import Mathlib.Data.List.Basic
import Mathlib.Tactic.Common

/-!
# Structured control flow over numbered places

A piece of code is known by the order in which a run of it comes to its places: a place is a
number, what is done there is not said.

* `Code`    places, sequences, choices, loops, exits, `try`, bodies of functions;
* `Run`     a run comes to the places of a list and leaves the code in some way; a run may be
            seen up to any point (`Exit.cut`), so that the runs of a loop without end count;
* `Again`   two places of one loop, or of one part that does not run in the order of its numbers;
* `Spans`   the numbers of a code lie in a range and grow along it;
* `Run.pairwise`  **in a run of such a code every place has a larger number than the places
            before, except where a loop leads back.**
-/

namespace Flow

/-- how a piece of code is left -/
inductive Exit where
  | next | brk | cont | ret | thrown
  /-- the run is not seen further -/
  | cut
  deriving DecidableEq, Repr

inductive Code where
  | skip
  | use (n : Nat)
  | leave (x : Exit)
  | seq (a b : Code)
  | alt (a b : Code)
  /-- again and again, until it is left -/
  | loop (a : Code)
  /-- a part whose numbers do not grow along it -/
  | group (a : Code)
  /-- the exit `x` of `a` ends here -/
  | upTo (x : Exit) (a : Code)
  /-- a value with a body of its own, which does not run here -/
  | fn (a : Code)
  | tryC (body handler final : Code)

/-- the exit of a `try`, from the exits of its body (or handler) and of its final part -/
def Exit.after (x y : Exit) : Exit := if y = .next then x else y

inductive Run : Code → List Nat → Exit → Prop
  | cut (c : Code) : Run c [] .cut
  | skip : Run .skip [] .next
  | use (n : Nat) : Run (.use n) [n] .next
  | leave (x : Exit) : Run (.leave x) [] x
  | seq {a b : Code} {t u : List Nat} {x : Exit} :
      Run a t .next → Run b u x → Run (.seq a b) (t ++ u) x
  | seqLeave {a : Code} (b : Code) {t : List Nat} {x : Exit} :
      Run a t x → x ≠ .next → Run (.seq a b) t x
  | altL {a : Code} (b : Code) {t : List Nat} {x : Exit} : Run a t x → Run (.alt a b) t x
  | altR (a : Code) {b : Code} {t : List Nat} {x : Exit} : Run b t x → Run (.alt a b) t x
  | again {a : Code} {t u : List Nat} {x : Exit} :
      Run a t .next → Run (.loop a) u x → Run (.loop a) (t ++ u) x
  | loopLeave {a : Code} {t : List Nat} {x : Exit} :
      Run a t x → x ≠ .next → Run (.loop a) t x
  | group {a : Code} {t : List Nat} {x : Exit} : Run a t x → Run (.group a) t x
  | upTo (y : Exit) {a : Code} {t : List Nat} {x : Exit} :
      Run a t x → Run (.upTo y a) t (if x = y then .next else x)
  | fn (a : Code) : Run (.fn a) [] .next
  | tryNext {a : Code} (b : Code) {c : Code} {t u : List Nat} {x y : Exit} :
      Run a t x → x ≠ .thrown → x ≠ .cut → Run c u y → Run (.tryC a b c) (t ++ u) (x.after y)
  | tryThrown {a b c : Code} {t u v : List Nat} {x y : Exit} :
      Run a t .thrown → Run b u x → x ≠ .cut → Run c v y →
        Run (.tryC a b c) (t ++ (u ++ v)) (x.after y)
  | tryCut {a : Code} (b c : Code) {t : List Nat} : Run a t .cut → Run (.tryC a b c) t .cut
  | handlerCut {a b : Code} (c : Code) {t u : List Nat} :
      Run a t .thrown → Run b u .cut → Run (.tryC a b c) (t ++ u) .cut

namespace Code

/-- the places that runs of the code come to -/
def nums : Code → List Nat
  | .skip => []
  | .use n => [n]
  | .leave _ => []
  | .seq a b => a.nums ++ b.nums
  | .alt a b => a.nums ++ b.nums
  | .loop a => a.nums
  | .group a => a.nums
  | .upTo _ a => a.nums
  | .fn _ => []
  | .tryC a b c => a.nums ++ (b.nums ++ c.nums)

/-- the bodies of the functions in the code, and of those in them -/
def bodies : Code → List Code
  | .skip => []
  | .use _ => []
  | .leave _ => []
  | .seq a b => a.bodies ++ b.bodies
  | .alt a b => a.bodies ++ b.bodies
  | .loop a => a.bodies
  | .group a => a.bodies
  | .upTo _ a => a.bodies
  | .fn a => a :: a.bodies
  | .tryC a b c => a.bodies ++ (b.bodies ++ c.bodies)

/-- both places are in one loop, or in one part that does not run in the order of its numbers -/
def Again : Code → Nat → Nat → Prop
  | .skip, _, _ => False
  | .use _, _, _ => False
  | .leave _, _, _ => False
  | .seq a b, p, q => a.Again p q ∨ b.Again p q
  | .alt a b, p, q => a.Again p q ∨ b.Again p q
  | .loop a, p, q => p ∈ a.nums ∧ q ∈ a.nums
  | .group a, p, q => p ∈ a.nums ∧ q ∈ a.nums
  | .upTo _ a, p, q => a.Again p q
  | .fn _, _, _ => False
  | .tryC a b c, p, q => a.Again p q ∨ b.Again p q ∨ c.Again p q

/-- every number of the one code is below every number of the other -/
def Before (a b : Code) : Prop := ∀ p ∈ a.nums, ∀ q ∈ b.nums, p < q

/-- the numbers grow along the code, loops and groups left aside -/
def Ordered : Code → Prop
  | .seq a b => a.Ordered ∧ b.Ordered ∧ a.Before b
  | .alt a b => a.Ordered ∧ b.Ordered
  | .upTo _ a => a.Ordered
  | .tryC a b c => a.Ordered ∧ b.Ordered ∧ c.Ordered ∧ a.Before b ∧ a.Before c ∧ b.Before c
  | _ => True

end Code

/-! ## runs -/

variable {a b c : Code} {t u : List Nat} {x : Exit}

theorem Run.mem_nums (h : Run c t x) : ∀ n ∈ t, n ∈ c.nums := by
  induction h with
  | cut c => intro n hn; cases hn
  | skip => intro n hn; cases hn
  | use n => intro m hm; exact hm
  | leave x => intro n hn; cases hn
  | seq _ _ iha ihb =>
    intro n hn
    rcases List.mem_append.mp hn with hn | hn
    · exact List.mem_append_left _ (iha n hn)
    · exact List.mem_append_right _ (ihb n hn)
  | seqLeave b _ _ ih => intro n hn; exact List.mem_append_left _ (ih n hn)
  | altL b _ ih => intro n hn; exact List.mem_append_left _ (ih n hn)
  | altR a _ ih => intro n hn; exact List.mem_append_right _ (ih n hn)
  | again _ _ iha ihl =>
    intro n hn
    rcases List.mem_append.mp hn with hn | hn
    · exact iha n hn
    · exact ihl n hn
  | loopLeave _ _ ih => exact ih
  | group _ ih => exact ih
  | upTo y _ ih => exact ih
  | fn a => intro n hn; cases hn
  | tryNext b _ _ _ _ iha ihc =>
    intro n hn
    rcases List.mem_append.mp hn with hn | hn
    · exact List.mem_append_left _ (iha n hn)
    · exact List.mem_append_right _ (List.mem_append_right _ (ihc n hn))
  | tryThrown _ _ _ _ iha ihb ihc =>
    intro n hn
    rcases List.mem_append.mp hn with hn | hn
    · exact List.mem_append_left _ (iha n hn)
    · rcases List.mem_append.mp hn with hn | hn
      · exact List.mem_append_right _ (List.mem_append_left _ (ihb n hn))
      · exact List.mem_append_right _ (List.mem_append_right _ (ihc n hn))
  | tryCut b c _ ih => intro n hn; exact List.mem_append_left _ (ih n hn)
  | handlerCut c _ _ iha ihb =>
    intro n hn
    rcases List.mem_append.mp hn with hn | hn
    · exact List.mem_append_left _ (iha n hn)
    · exact List.mem_append_right _ (List.mem_append_left _ (ihb n hn))

/-- the places of a run, each with a larger number than the ones before or in a loop with them -/
def Forward (c : Code) (t : List Nat) : Prop := t.Pairwise fun p q => p < q ∨ c.Again p q

theorem Forward.mono {d : Code} (h : Forward c t) (hcd : ∀ p q, c.Again p q → d.Again p q) :
    Forward d t :=
  List.Pairwise.imp (fun hpq => hpq.imp_right (hcd _ _)) h

theorem Forward.nil (c : Code) : Forward c [] := List.Pairwise.nil

theorem Forward.append (ht : Forward c t) (hu : Forward c u)
    (h : ∀ p ∈ t, ∀ q ∈ u, p < q ∨ c.Again p q) : Forward c (t ++ u) :=
  List.pairwise_append.mpr ⟨ht, hu, h⟩

/-- within a loop or a group every place can come after every other -/
theorem Forward.of_all (h : ∀ p ∈ t, ∀ q ∈ t, c.Again p q) : Forward c t :=
  List.pairwise_iff_forall_sublist.mpr fun hs =>
    .inr (h _ (hs.subset (List.mem_cons_self ..))
      _ (hs.subset (List.mem_cons_of_mem _ (List.mem_cons_self ..))))

/-- **A run goes forward, except where a loop leads back.** -/
theorem Run.pairwise (h : Run c t x) (ho : c.Ordered) : Forward c t := by
  induction h with
  | cut c => exact .nil _
  | skip => exact .nil _
  | use n => exact List.pairwise_singleton _ n
  | leave x => exact .nil _
  | seq ha hb iha ihb =>
    obtain ⟨hoa, hob, hab⟩ := ho
    refine ((iha hoa).mono fun _ _ => Or.inl).append ((ihb hob).mono fun _ _ => Or.inr) ?_
    intro p hp q hq
    exact .inl (hab p (ha.mem_nums p hp) q (hb.mem_nums q hq))
  | seqLeave b _ _ ih => exact (ih ho.1).mono fun _ _ => Or.inl
  | altL b _ ih => exact (ih ho.1).mono fun _ _ => Or.inl
  | altR a _ ih => exact (ih ho.2).mono fun _ _ => Or.inr
  | again ha hl _ _ =>
    have hm := (Run.again ha hl).mem_nums
    exact .of_all fun p hp q hq => ⟨hm p hp, hm q hq⟩
  | loopLeave ha hx _ =>
    exact .of_all fun p hp q hq => ⟨ha.mem_nums p hp, ha.mem_nums q hq⟩
  | group ha _ => exact .of_all fun p hp q hq => ⟨ha.mem_nums p hp, ha.mem_nums q hq⟩
  | upTo y _ ih => exact ih ho
  | fn a => exact .nil _
  | tryNext b ha _ _ hc iha ihc =>
    obtain ⟨hoa, _, hoc, _, hac, _⟩ := ho
    refine ((iha hoa).mono fun _ _ => Or.inl).append
      ((ihc hoc).mono fun _ _ h => Or.inr (Or.inr h)) ?_
    intro p hp q hq
    exact .inl (hac p (ha.mem_nums p hp) q (hc.mem_nums q hq))
  | tryThrown ha hb _ hc iha ihb ihc =>
    obtain ⟨hoa, hob, hoc, hab, hac, hbc⟩ := ho
    refine ((iha hoa).mono fun _ _ => Or.inl).append (Forward.append ?_ ?_ ?_) ?_
    · exact (ihb hob).mono fun _ _ h => Or.inr (Or.inl h)
    · exact (ihc hoc).mono fun _ _ h => Or.inr (Or.inr h)
    · intro p hp q hq
      exact .inl (hbc p (hb.mem_nums p hp) q (hc.mem_nums q hq))
    intro p hp q hq
    rcases List.mem_append.mp hq with hq | hq
    · exact .inl (hab p (ha.mem_nums p hp) q (hb.mem_nums q hq))
    · exact .inl (hac p (ha.mem_nums p hp) q (hc.mem_nums q hq))
  | tryCut b c _ ih => exact (ih ho.1).mono fun _ _ => Or.inl
  | handlerCut c ha hb iha ihb =>
    obtain ⟨hoa, hob, _, hab, _, _⟩ := ho
    refine ((iha hoa).mono fun _ _ => Or.inl).append
      ((ihb hob).mono fun _ _ h => Or.inr (Or.inl h)) ?_
    intro p hp q hq
    exact .inl (hab p (ha.mem_nums p hp) q (hb.mem_nums q hq))

/-- a place that comes before another in a run is below it, or a loop leads back -/
theorem Run.lt_or_again {p q : Nat} (h : Run c (t ++ q :: u) x) (ho : c.Ordered) (hp : p ∈ t) :
    p < q ∨ c.Again p q := by
  have hpw := List.pairwise_append.mp (h.pairwise ho)
  exact hpw.2.2 p hp q (List.mem_cons_self ..)

/-! ## ranges of numbers -/

/-- the numbers of the code lie between `lo` and `hi`, and the bodies in it are in order -/
structure Within (c : Code) (lo hi : Nat) : Prop where
  le : lo ≤ hi
  nums : ∀ n ∈ c.nums, lo ≤ n ∧ n < hi
  bodies : ∀ b ∈ c.bodies, b.Ordered

/-- the numbers of the code lie between `lo` and `hi` and grow along it -/
structure Spans (c : Code) (lo hi : Nat) : Prop extends Within c lo hi where
  ordered : c.Ordered

variable {lo mid hi : Nat}

theorem Within.mono {lo' hi' : Nat} (h : Within c lo hi) (hl : lo' ≤ lo) (hh : hi ≤ hi') :
    Within c lo' hi' :=
  ⟨Nat.le_trans hl (Nat.le_trans h.le hh), fun n hn =>
    ⟨Nat.le_trans hl (h.nums n hn).1, Nat.lt_of_lt_of_le (h.nums n hn).2 hh⟩, h.bodies⟩

theorem Within.both (ha : Within a lo hi) (hb : Within b lo hi) :
    (∀ n ∈ a.nums ++ b.nums, lo ≤ n ∧ n < hi) ∧ ∀ d ∈ a.bodies ++ b.bodies, d.Ordered := by
  constructor
  · intro n hn
    rcases List.mem_append.mp hn with hn | hn
    · exact ha.nums n hn
    · exact hb.nums n hn
  · intro d hd
    rcases List.mem_append.mp hd with hd | hd
    · exact ha.bodies d hd
    · exact hb.bodies d hd

theorem Within.seq (ha : Within a lo hi) (hb : Within b lo hi) : Within (.seq a b) lo hi :=
  ⟨ha.le, (ha.both hb).1, (ha.both hb).2⟩

theorem Within.alt (ha : Within a lo hi) (hb : Within b lo hi) : Within (.alt a b) lo hi :=
  ⟨ha.le, (ha.both hb).1, (ha.both hb).2⟩

theorem Within.upTo (y : Exit) (h : Within a lo hi) : Within (.upTo y a) lo hi :=
  ⟨h.le, h.nums, h.bodies⟩

theorem Within.skip (h : lo ≤ hi) : Within .skip lo hi :=
  ⟨h, fun _ hn => (by cases hn), fun _ hb => (by cases hb)⟩

theorem Within.leave (y : Exit) (h : lo ≤ hi) : Within (.leave y) lo hi :=
  ⟨h, fun _ hn => (by cases hn), fun _ hb => (by cases hb)⟩

theorem Within.use {n : Nat} (h1 : lo ≤ n) (h2 : n < hi) : Within (.use n) lo hi :=
  ⟨Nat.le_of_lt (Nat.lt_of_le_of_lt h1 h2), fun m hm => List.mem_singleton.mp hm ▸ ⟨h1, h2⟩,
    fun _ hb => (by cases hb)⟩

theorem Within.loop (h : Within a lo hi) : Spans (.loop a) lo hi :=
  ⟨⟨h.le, h.nums, h.bodies⟩, trivial⟩

theorem Within.group (h : Within a lo hi) : Spans (.group a) lo hi :=
  ⟨⟨h.le, h.nums, h.bodies⟩, trivial⟩

theorem Within.before (ha : Within a lo mid) (hb : Within b mid hi) : a.Before b :=
  fun p hp q hq => Nat.lt_of_lt_of_le (ha.nums p hp).2 (hb.nums q hq).1

theorem Spans.skip (lo : Nat) : Spans .skip lo lo := ⟨.skip (Nat.le_refl _), trivial⟩

theorem Spans.leave (y : Exit) (lo : Nat) : Spans (.leave y) lo lo :=
  ⟨.leave y (Nat.le_refl _), trivial⟩

theorem Spans.use (n : Nat) : Spans (.use n) n (n + 1) :=
  ⟨.use (Nat.le_refl _) (Nat.lt_succ_self n), trivial⟩

theorem Spans.seq (ha : Spans a lo mid) (hb : Spans b mid hi) : Spans (.seq a b) lo hi :=
  ⟨(ha.toWithin.mono (Nat.le_refl _) hb.le).seq (hb.toWithin.mono ha.le (Nat.le_refl _)),
    ha.ordered, hb.ordered, ha.toWithin.before hb.toWithin⟩

theorem Spans.alt (ha : Spans a lo mid) (hb : Spans b mid hi) : Spans (.alt a b) lo hi :=
  ⟨(ha.toWithin.mono (Nat.le_refl _) hb.le).alt (hb.toWithin.mono ha.le (Nat.le_refl _)),
    ha.ordered, hb.ordered⟩

theorem Spans.upTo (y : Exit) (h : Spans a lo hi) : Spans (.upTo y a) lo hi :=
  ⟨h.toWithin.upTo y, h.ordered⟩

theorem Spans.fn (h : Spans a lo hi) : Spans (.fn a) lo hi := by
  refine ⟨⟨h.le, fun n hn => (by cases hn), ?_⟩, trivial⟩
  intro b hb
  rcases List.mem_cons.mp hb with rfl | hb
  · exact h.ordered
  · exact h.bodies b hb

theorem Spans.tryC {m n : Nat} (ha : Spans a lo m) (hb : Spans b m n) (hc : Spans c n hi) :
    Spans (.tryC a b c) lo hi := by
  have wa := ha.toWithin.mono (Nat.le_refl _) (Nat.le_trans hb.le hc.le)
  have wb := hb.toWithin.mono ha.le hc.le
  have wc := hc.toWithin.mono (Nat.le_trans ha.le hb.le) (Nat.le_refl _)
  have w := wa.seq (wb.seq wc)
  refine ⟨⟨w.le, w.nums, w.bodies⟩, ha.ordered, hb.ordered, hc.ordered, ?_, ?_, ?_⟩
  · exact ha.toWithin.before hb.toWithin
  · exact (ha.toWithin.mono (Nat.le_refl _) hb.le).before hc.toWithin
  · exact hb.toWithin.before hc.toWithin

end Flow
