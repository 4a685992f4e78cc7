import HolyPhp.Regex.Match

/-!
# The matcher is sound and complete

* `Answers c x Q`     with enough fuel `x` has one and the same result: success, and `Q` of the
                      end of the match, or failure, and then `Q` has no solution and the context
                      is `c` again;
* `Cont.Decides k Q`  a continuation answers for the relation `Q`, from every place;
* `Rx.Decides n`      the matcher on `n`, in front of any continuation, answers for the language
                      of `n` and what comes behind it.

Every kind of node gets a lemma; `Rx.Wf.decides` puts them together, by induction on the tree.
-/

namespace HolyPhp
namespace Regex
open Function Relation

/-! ## answers -/

def Answers (c : RxCtx) (x : Nat → Answer) (Q : Nat → Prop) : Prop :=
  ∃ N b d, (∀ n, N ≤ n → x n = .ret (b, d)) ∧ (b = true → Q d.endPos) ∧
    (b = false → d = c ∧ ∀ e, ¬ Q e)

section
variable {s : Bytes} {c : RxCtx} {x y : Nat → Answer} {P Q : Nat → Prop} {pos : Nat}

theorem Answers.fail (h : ∀ e, ¬ Q e) : Answers c (fun _ => .ret (false, c)) Q :=
  ⟨0, false, c, fun _ _ => rfl, (by cases ·), fun _ => ⟨rfl, h⟩⟩

/-- a call takes one unit of fuel -/
theorem Answers.succ (h : Answers c x Q) (hy : ∀ n, y (n + 1) = x n) : Answers c y Q := by
  obtain ⟨N, b, d, hN, hres⟩ := h
  refine ⟨N + 1, b, d, fun n hn => ?_, hres⟩
  obtain ⟨m, rfl⟩ : ∃ m, n = m + 1 := ⟨n - 1, by omega⟩
  rw [hy]
  exact hN m (by omega)

theorem Answers.pred (h : Answers c y Q) (hy : ∀ n, y (n + 1) = x n) : Answers c x Q := by
  obtain ⟨N, b, d, hN, hres⟩ := h
  exact ⟨N, b, d, fun n hn => (hy n).symm.trans (hN (n + 1) (by omega)), hres⟩

theorem Answers.congr (h : Answers c x P) (hPQ : ∀ e, P e ↔ Q e) : Answers c x Q := by
  obtain ⟨N, b, d, hN, ht, hf⟩ := h
  refine ⟨N, b, d, hN, fun hb => (hPQ _).mp (ht hb), fun hb => ⟨(hf hb).1, fun e he => ?_⟩⟩
  exact (hf hb).2 e ((hPQ e).mpr he)

theorem Answers.orElse {f : Nat → RxCtx → Answer} (h : Answers c x P)
    (h' : Answers c (fun n => f n c) Q) :
    Answers c (fun n => (x n).orElse (f n)) fun e => P e ∨ Q e := by
  obtain ⟨N, b, d, hN, ht, hf⟩ := h
  cases b with
  | true =>
    refine ⟨N, true, d, fun n hn => ?_, fun _ => .inl (ht rfl), fun hb => by cases hb⟩
    show (x n).orElse (f n) = _
    rw [hN n hn]
    rfl
  | false =>
    obtain ⟨rfl, hP⟩ := hf rfl
    obtain ⟨M, b, d', hM, ht', hf'⟩ := h'
    refine ⟨max N M, b, d', fun n hn => ?_, fun hb => .inr (ht' hb), fun hb => ⟨(hf' hb).1, ?_⟩⟩
    · show (x n).orElse (f n) = _
      rw [hN n (by omega), Call.orElse]
      exact hM n (by omega)
    · intro e he
      exact he.elim (hP e) ((hf' hb).2 e)

/-- a test in front of the rest -/
theorem Answers.test {t : Prop} [Decidable t] (h : t → Answers c x Q) :
    Answers c (fun n => if t then x n else .ret (false, c)) fun e => t ∧ Q e := by
  by_cases ht : t
  · simp only [if_pos ht]
    exact (h ht).congr fun e => ⟨fun he => ⟨ht, he⟩, fun he => he.2⟩
  · simp only [if_neg ht]
    exact .fail fun e he => ht he.1

def Cont.Decides (s : Bytes) (k : Cont) (Q : Nat → Nat → Prop) : Prop :=
  ∀ pos ≤ s.length, ∀ c, Answers c (fun n => rxK s n k pos c) (Q pos)

def Rx.Decides (s : Bytes) (x : Rx) : Prop := ∀ (k : Cont) (Q : Nat → Nat → Prop), k.Decides s Q →
  ∀ pos ≤ s.length, ∀ c, Answers c (fun n => rxM s n x pos c k) (Comp (x.Lang s) Q pos)

theorem done_decides (s : Bytes) : Cont.done.Decides s Eq := by
  intro pos _ c
  refine ⟨1, true, { c with endPos := pos }, fun n hn => ?_, fun _ => rfl, fun hb => by cases hb⟩
  cases n with
  | zero => omega
  | succ n =>
    show rxK s (n + 1) .done pos c = _
    rw [rxK]

/-! ## characters and places -/

theorem any_iff {f : UInt8 → Bool} {R : UInt8 → Prop} (hf : ∀ c, f c = true ↔ R c) :
    (s[pos]?).any f = true ↔ At s pos R := by
  rw [Option.any_eq_true]
  exact exists_congr fun c => and_congr Iff.rfl (hf c)

/-- the nodes that take one character -/
theorem one_decides {x : Rx} {f : UInt8 → Bool} {R : UInt8 → Prop} (hf : ∀ c, f c = true ↔ R c)
    (hL : x.Lang s = One s R) (hx : ∀ n pos c k, rxM s (n + 1) x pos c k =
      if (s[pos]?).any f then rxK s n k (pos + 1) c else .ret (false, c)) : x.Decides s := by
  intro k Q hk pos hpos c
  refine .succ (.congr (.test fun ht => hk (pos + 1) ?_ c) fun e => ?_) fun n => hx n pos c k
  · exact ((any_iff hf).mp ht).lt
  · rw [hL]
    constructor
    · intro h
      obtain ⟨ht, he⟩ := h
      exact ⟨pos + 1, ⟨(any_iff hf).mp ht, rfl⟩, he⟩
    · intro h
      obtain ⟨q, ⟨ht, hq⟩, he⟩ := h
      exact ⟨(any_iff hf).mpr ht, hq ▸ he⟩

/-- the nodes that look at their place only -/
theorem here_decides {x : Rx} {f : Nat → Bool} {R : Nat → Prop} (hf : ∀ p, f p = true ↔ R p)
    (hL : x.Lang s = Here R) (hx : ∀ n pos c k, rxM s (n + 1) x pos c k =
      if f pos then rxK s n k pos c else .ret (false, c)) : x.Decides s := by
  intro k Q hk pos hpos c
  refine .succ (.congr (.test fun _ => hk pos hpos c) fun e => ?_) fun n => hx n pos c k
  rw [hL]
  constructor
  · intro h
    obtain ⟨ht, he⟩ := h
    exact ⟨pos, ⟨(hf pos).mp ht, rfl⟩, he⟩
  · intro h
    obtain ⟨q, ⟨ht, hq⟩, he⟩ := h
    exact ⟨(hf pos).mpr ht, hq ▸ he⟩

theorem charTest_iff {ch : UInt8} {ci : Bool} (c : UInt8) :
    charTest ch ci c = true ↔ c = ch ∨ (ci = true ∧ toLower c = toLower ch) := by
  unfold charTest
  cases ci with
  | false => simp
  | true =>
    simp only [if_true, beq_iff_eq, true_and]
    exact ⟨.inr, fun h => h.elim (congrArg toLower) id⟩

theorem anyTest_iff {dotall : Bool} (c : UInt8) :
    anyTest dotall c = true ↔ dotall = true ∨ c ≠ 10 := by
  cases dotall <;> simp [anyTest]

theorem clsTest_iff {set : UInt8 → Bool} {neg : Bool} (c : UInt8) :
    clsTest set neg c = true ↔ (set c = true ↔ neg = false) := by
  unfold clsTest
  cases set c <;> cases neg <;> decide

theorem newline_iff {p : Nat} : (s[p]? == some 10) = true ↔ At s p (· = 10) := by
  rw [beq_iff_eq]
  constructor
  · intro h
    exact ⟨10, h, rfl⟩
  · intro h
    obtain ⟨c, h, rfl⟩ := h
    exact h

theorem bolTest_iff {m : Bool} (p : Nat) : bolTest s m p = true ↔ AtBol s m p := by
  rw [bolTest, Bool.or_eq_true, Bool.and_eq_true, newline_iff, beq_iff_eq, AtBol]

theorem eolTest_iff {m : Bool} (p : Nat) : eolTest s m p = true ↔ AtEol s m p := by
  rw [eolTest, Bool.or_eq_true, Bool.and_eq_true, newline_iff, beq_iff_eq, AtEol]

theorem bowTest_iff (p : Nat) : bowTest s p = true ↔ AtBow s p := by
  unfold bowTest AtBow
  dsimp only
  rw [← any_iff (f := rxIsWord) (fun c => Iff.rfl), ← any_iff (f := rxIsWord) (fun c => Iff.rfl),
    bne_iff_ne, Ne, Bool.eq_iff_iff, Bool.and_eq_true, decide_eq_true_iff]

/-! ## sequences, branches and groups -/

variable {k : Cont} {R : Nat → Nat → Prop}

/-- past the last item -/
theorem mseq_end {x : Rx} {idx : Nat} (hk : k.Decides s R) (hidx : x.kids.length ≤ idx)
    (hpos : pos ≤ s.length) (c : RxCtx) :
    Answers c (fun n => rxMSeq s n x idx pos c k) (Comp (LangSeq s (x.kids.drop idx)) R pos) := by
  have hnone : x.kids[idx]? = none := List.getElem?_eq_none hidx
  rw [List.drop_eq_nil_of_le hidx]
  refine .succ (.congr (hk pos hpos c) fun e => ?_) fun n => by rw [rxMSeq, hnone]
  constructor
  · intro he
    exact ⟨pos, rfl, he⟩
  · intro h
    obtain ⟨q, hq, he⟩ := h
    have hq : pos = q := hq
    exact hq ▸ he

/-- the items from `idx` on; the induction is on their number -/
theorem mseq_answers {x : Rx} (hkids : ∀ kid ∈ x.kids, kid.Decides s) (hk : k.Decides s R)
    (r idx : Nat) (hr : x.kids.length ≤ idx + r) (hpos : pos ≤ s.length) (c : RxCtx) :
    Answers c (fun n => rxMSeq s n x idx pos c k) (Comp (LangSeq s (x.kids.drop idx)) R pos) := by
  induction r generalizing idx pos c with
  | zero => exact mseq_end hk hr hpos c
  | succ r ih =>
    by_cases hlt : idx < x.kids.length
    · have hsome : x.kids[idx]? = some x.kids[idx] := List.getElem?_eq_getElem hlt
      have hnext : (Cont.seq x (idx + 1) k).Decides s
          (Comp (LangSeq s (x.kids.drop (idx + 1))) R) :=
        fun p hp d => .succ (ih (idx + 1) (by omega) hp d) fun n => by rw [rxK]
      rw [List.drop_eq_getElem_cons hlt]
      refine .succ (.congr (hkids _ (List.getElem_mem hlt) _ _ hnext pos hpos c) fun e => ?_)
        fun n => by rw [rxMSeq, hsome]
      rw [LangSeq, Relation.comp_assoc]
    · exact mseq_end hk (Nat.le_of_not_lt hlt) hpos c

theorem seq_decides {ks : List Rx} (h : ∀ kid ∈ ks, kid.Decides s) : (Rx.seq ks).Decides s := by
  intro k Q hk pos hpos c
  refine .succ (mseq_answers (x := .seq ks) h hk ks.length 0 ?_ hpos c) fun n => by rw [rxM]
  exact Nat.le_add_left ..

/-- the loop over the branches tries them in order -/
theorem malt_answers {ks : List Rx} (hseq : ∀ kid ∈ ks, ∃ items, kid = .seq items)
    (h : ∀ kid ∈ ks, kid.Decides s) (hk : k.Decides s R) (hpos : pos ≤ s.length) (c : RxCtx) :
    Answers c (fun n => rxMAlt s n ks pos c k) (Comp (LangAlt s ks) R pos) := by
  induction ks with
  | nil =>
    refine .succ (.fail ?_) fun n => by rw [rxMAlt]
    intro e he
    obtain ⟨q, hq, -⟩ := he
    exact hq
  | cons kid ks ih =>
    have hkid := h kid (List.mem_cons_self ..) k R hk pos hpos c
    obtain ⟨items, rfl⟩ := hseq kid (List.mem_cons_self ..)
    have hrest := ih (fun k hk => hseq k (List.mem_cons_of_mem _ hk))
      (fun k hk => h k (List.mem_cons_of_mem _ hk))
    refine .succ (.congr (.orElse (hkid.pred fun n => by rw [rxM]) hrest) fun e => ?_)
      fun n => by rw [rxMAlt]
    constructor
    · intro he
      rcases he with ⟨q, hq, he⟩ | ⟨q, hq, he⟩
      · exact ⟨q, .inl hq, he⟩
      · exact ⟨q, .inr hq, he⟩
    · intro h
      obtain ⟨q, hq, he⟩ := h
      rcases hq with hq | hq
      · exact .inl ⟨q, hq, he⟩
      · exact .inr ⟨q, hq, he⟩

theorem alt_decides {ks : List Rx} (hseq : ∀ kid ∈ ks, ∃ items, kid = .seq items)
    (h : ∀ kid ∈ ks, kid.Decides s) : (Rx.alt ks).Decides s := by
  intro k Q hk pos hpos c
  exact .succ (malt_answers hseq h hk hpos c) fun n => by rw [rxM]

/-- a capture that comes to nothing is undone -/
theorem grp_decides {gidx start : Nat} (hg : gidx < 32) (hk : k.Decides s R) :
    (Cont.grp gidx start k).Decides s R := by
  intro pos hpos c
  obtain ⟨N, b, d, hN, ht, hf⟩ := hk pos hpos
    { c with capS := update c.capS gidx start, capE := update c.capE gidx pos }
  refine ⟨N + 1, b, bif b then d else c, fun n hn => ?_, fun hb => ?_, fun hb => ?_⟩
  · obtain ⟨m, rfl⟩ : ∃ m, n = m + 1 := ⟨n - 1, by omega⟩
    have hm := hN m (by omega)
    dsimp only at hm
    show rxK s (m + 1) (.grp gidx start k) pos c = _
    rw [rxK, if_pos hg, hm]
    cases b with
    | true => rfl
    | false =>
      obtain ⟨rfl, -⟩ := hf rfl
      simp only [Call.orElse, update_idem, update_eq_self, cond_false]
  · rw [hb]
    exact ht hb
  · rw [hb]
    exact ⟨rfl, (hf hb).2⟩

theorem group_decides {ks : List Rx} {gidx : Nat} (hg : gidx < 32) (h : (Rx.seq ks).Decides s) :
    (Rx.group (.seq ks) gidx).Decides s := by
  intro k Q hk pos hpos c
  have hnext : (if gidx = 0 then k else .grp gidx pos k).Decides s Q := by
    split
    · exact hk
    · exact grp_decides hg hk
  have hseq := (h _ Q hnext pos hpos c).pred fun n => by rw [rxM]
  exact .succ hseq fun n => by rw [rxM]

/-! ## repetitions -/

theorem iterCap_eq {len : Nat} {rmin : Int} (h0 : 0 ≤ rmin) (h : (len : Int) + rmin + 2 ≤ intMax) :
    iterCap len rmin = (len + rmin.toNat + 2 : Nat) := by
  unfold intMax at h
  rw [iterCap, Int.bmod_eq_of_le (by omega) (by omega)]
  omega

/-- the rounds that the code allows -/
def Allowed (s : Bytes) (rmin rmax : Int) (i : Nat) : Prop :=
  (rmax < 0 ∨ ((i + 1 : Nat) : Int) ≤ rmax) ∧ i < s.length + rmin.toNat + 2

theorem allowed_iff {rmin rmax : Int} {i : Nat} (h0 : 0 ≤ rmin)
    (h : (s.length : Int) + rmin + 2 ≤ intMax) :
    (canMore rmax i = true ∧ (i : Int) < iterCap s.length rmin) ↔ Allowed s rmin rmax i := by
  rw [iterCap_eq h0 h, canMore, Bool.or_eq_true, decide_eq_true_iff, decide_eq_true_iff, Allowed]
  omega

section
variable {child : Rx} {rmin rmax : Int} {lz : Bool} {count : Nat}

/-- one round: stop, or match the body once more, in the order that `lazy` says -/
theorem mrep_round (h0 : 0 ≤ rmin) (hfit : (s.length : Int) + rmin + 2 ≤ intMax)
    (hchild : child.Decides s) (hk : k.Decides s R)
    (hnext : Allowed s rmin rmax count → (Cont.rep child rmin rmax lz (count + 1) k).Decides s
      (Comp (Rounds (child.Lang s) rmin.toNat (Allowed s rmin rmax) (count + 1)) R))
    (hpos : pos ≤ s.length) (c : RxCtx) :
    Answers c (fun n => rxMRepAt s n child rmin rmax lz count pos c k)
      (Comp (Rounds (child.Lang s) rmin.toNat (Allowed s rmin rmax) count) R pos) := by
  have hstop := Answers.test (c := c) (t := rmin ≤ count) fun _ => hk pos hpos c
  have hmore := Answers.test (c := c)
    (t := canMore rmax count ∧ (count : Int) < iterCap s.length rmin)
    fun ht => hchild _ _ (hnext ((allowed_iff h0 hfit).mp ht)) pos hpos c
  have hiff : ∀ e, ((rmin ≤ count ∧ R pos e) ∨
      ((canMore rmax count = true ∧ (count : Int) < iterCap s.length rmin) ∧
        Comp (child.Lang s)
          (Comp (Rounds (child.Lang s) rmin.toNat (Allowed s rmin rmax) (count + 1)) R) pos e)) ↔
      Comp (Rounds (child.Lang s) rmin.toNat (Allowed s rmin rmax) count) R pos e := by
    intro e
    rw [allowed_iff h0 hfit, rounds_comp_iff, Int.toNat_le]
  cases lz with
  | true => exact .succ ((hstop.orElse hmore).congr hiff) fun n => by rw [rxMRepAt]; rfl
  | false =>
    exact .succ ((hmore.orElse hstop).congr fun e => or_comm.trans (hiff e)) fun n => by
      rw [rxMRepAt]; rfl

/-- the induction is on the rounds up to the cap -/
theorem mrep_answers (h0 : 0 ≤ rmin) (hfit : (s.length : Int) + rmin + 2 ≤ intMax)
    (hchild : child.Decides s) (hk : k.Decides s R) (r count : Nat)
    (hr : s.length + rmin.toNat + 2 ≤ count + r) (hpos : pos ≤ s.length) (c : RxCtx) :
    Answers c (fun n => rxMRepAt s n child rmin rmax lz count pos c k)
      (Comp (Rounds (child.Lang s) rmin.toNat (Allowed s rmin rmax) count) R pos) := by
  induction r generalizing count pos c with
  | zero =>
    refine mrep_round h0 hfit hchild hk (fun ha => ?_) hpos c
    have := ha.2
    omega
  | succ r ih =>
    refine mrep_round h0 hfit hchild hk (fun _ p hp d => ?_) hpos c
    exact .succ (ih (count + 1) (by omega) hp d) fun n => by rw [rxK]

/-- **No round that is needed is cut off**: of more than `rmin` rounds, those that match nothing
can be left out, and the others make way in the subject. -/
theorem rep_decides {g : Nat} (hw : child.Wf g) (h0 : 0 ≤ rmin)
    (hfit : (s.length : Int) + rmin + 2 ≤ intMax) (hchild : child.Decides s) :
    (Rx.rep child rmin rmax lz).Decides s := by
  intro k Q hk pos hpos c
  refine .succ (.congr (mrep_answers h0 hfit hchild hk (s.length + rmin.toNat + 2) 0
    (Nat.le_add_left ..) hpos c) fun e => ?_) fun n => by rw [rxM]
  have hlang : ∀ q, Rounds (child.Lang s) rmin.toNat (Allowed s rmin rmax) 0 pos q ↔
      (Rx.rep child rmin rmax lz).Lang s pos q := by
    intro q
    refine (rounds_bounded (f := id) (D := fun m => rmax < 0 ∨ (m : Int) ≤ rmax)
      (fun p q h => ?_) ?_ (fun m n hmn h => ?_) fun m hm => ?_).trans ?_
    · have hle : p ≤ q := (hw.span h).1
      exact (Nat.eq_or_lt_of_le hle)
    · omega
    · omega
    · have hq : q ≤ s.length := (hm.inv (Span.refl s) fun p r q h h' => (hw.span h).trans h').2 hpos
      dsimp only [id]
      omega
    · rw [Rx.Lang]
      simp only [Int.toNat_le]
  exact exists_congr fun q => and_congr (hlang q) Iff.rfl

end

/-! ## the matcher -/

/-- **The matcher in front of a continuation** decides the language of the node and what comes
behind it. -/
theorem Rx.Wf.decides {x : Rx} {g : Nat} (hw : x.Wf g) (hg : g < 32) (hf : x.Fits s.length) :
    x.Decides s := by
  induction hw with
  | char ch ci => exact one_decides charTest_iff (by rw [Rx.Lang]) fun n pos c k => by rw [rxM]
  | any dotall => exact one_decides anyTest_iff (by rw [Rx.Lang]) fun n pos c k => by rw [rxM]
  | cls set neg => exact one_decides clsTest_iff (by rw [Rx.Lang]) fun n pos c k => by rw [rxM]
  | bol m => exact here_decides bolTest_iff (by rw [Rx.Lang]) fun n pos c k => by rw [rxM]
  | eol m => exact here_decides eolTest_iff (by rw [Rx.Lang]) fun n pos c k => by rw [rxM]
  | bow => exact here_decides bowTest_iff (by rw [Rx.Lang]) fun n pos c k => by rw [rxM]
  | seq _ ih =>
    cases hf with
    | seq hf => exact seq_decides fun kid hkid => ih kid hkid (hf kid hkid)
  | alt hseq _ ih =>
    cases hf with
    | alt hf => exact alt_decides hseq fun kid hkid => ih kid hkid (hf kid hkid)
  | rep h0 hw ih =>
    cases hf with
    | rep _ hlen hf => exact rep_decides hw h0 hlen (ih hf)
  | group hgidx _ ih =>
    cases hf with
    | group hf => exact group_decides (Nat.lt_of_le_of_lt hgidx hg) (ih hf)

/-! ## offsets -/

variable {tree : Rx} {off ng : Nat}

/-- what `rx_run` has to return -/
def RunOk (s : Bytes) (tree : Rx) (off : Nat) (r : Option Found) : Prop :=
  (r.isSome = true ↔ ∃ e, tree.Lang s off e) ∧
    ∀ m, r = some m → m.ms = off ∧ tree.Lang s off m.me

/-- what `rx_search` has to return: the leftmost match -/
def SearchOk (s : Bytes) (tree : Rx) (off : Nat) (r : Option Found) : Prop :=
  (r.isSome = true ↔ ∃ i e, off ≤ i ∧ i ≤ s.length ∧ tree.Lang s i e) ∧
    ∀ m, r = some m → off ≤ m.ms ∧ m.ms ≤ s.length ∧ tree.Lang s m.ms m.me ∧
      ∀ i e, off ≤ i → i ≤ s.length → tree.Lang s i e → m.ms ≤ i

theorem run_ok (hd : tree.Decides s) (hoff : off ≤ s.length) (ng : Nat) :
    ∃ N r, (∀ n, N ≤ n → rxRun n tree ng s off = .ret r) ∧ RunOk s tree off r := by
  obtain ⟨N, b, d, hN, ht, hf⟩ :=
    hd .done Eq (done_decides s) off hoff ⟨fun _ => unset, fun _ => unset, ng, 0⟩
  dsimp only at hN
  cases b with
  | true =>
    obtain ⟨q, hq, rfl⟩ := ht rfl
    refine ⟨N, some ⟨off, d.endPos, d⟩, fun n hn => by rw [rxRun, hN n hn], ?_, fun m hm => ?_⟩
    · exact ⟨fun _ => ⟨_, hq⟩, fun _ => rfl⟩
    · cases hm
      exact ⟨rfl, hq⟩
  | false =>
    refine ⟨N, none, fun n hn => by rw [rxRun, hN n hn], ?_, fun m hm => by cases hm⟩
    refine ⟨fun h => (by cases h), fun h => ?_⟩
    obtain ⟨e, he⟩ := h
    exact absurd ⟨e, he, rfl⟩ ((hf rfl).2 e)

/-- `r` rounds of the loop reach the end of the subject -/
theorem searchFrom_ok (hd : tree.Decides s) (ng r off : Nat) (hr : s.length + 1 ≤ off + r)
    (hr' : off + r ≤ s.length + 1 ∨ r = 0) :
    ∃ N o, (∀ n, N ≤ n → rxSearchFrom n tree ng s r off = .ret o) ∧ SearchOk s tree off o := by
  induction r generalizing off with
  | zero =>
    refine ⟨0, none, fun n _ => rfl, ?_, fun m hm => by cases hm⟩
    refine ⟨fun h => (by cases h), fun h => ?_⟩
    obtain ⟨i, e, h1, h2, -⟩ := h
    omega
  | succ r ih =>
    obtain ⟨N, o, hN, hsome, hm⟩ := run_ok hd (show off ≤ s.length by omega) ng
    cases o with
    | some m =>
      obtain ⟨hms, hlang⟩ := hm m rfl
      refine ⟨N, some m, fun n hn => by rw [rxSearchFrom, hN n hn], ?_, fun m' hm' => ?_⟩
      · exact ⟨fun _ => ⟨off, m.me, Nat.le_refl _, by omega, hlang⟩, fun _ => rfl⟩
      · cases hm'
        exact ⟨Nat.le_of_eq hms.symm, by omega, hms.symm ▸ hlang, fun i e hi _ _ => by omega⟩
    | none =>
      have hno : ∀ e, ¬ tree.Lang s off e := fun e he => by cases hsome.mpr ⟨e, he⟩
      obtain ⟨M, o, hM, hiff, hleft⟩ := ih (off + 1) (by omega) (by omega)
      have hskip : ∀ i e, off ≤ i → tree.Lang s i e → off + 1 ≤ i := by
        intro i e hi he
        rcases Nat.eq_or_lt_of_le hi with rfl | hlt
        · exact absurd he (hno e)
        · exact hlt
      refine ⟨max N M, o, fun n hn => ?_, hiff.trans ?_, fun m hm => ?_⟩
      · rw [rxSearchFrom, hN n (by omega)]
        exact hM n (by omega)
      · constructor
        · intro h
          obtain ⟨i, e, h1, h2, he⟩ := h
          exact ⟨i, e, by omega, h2, he⟩
        · intro h
          obtain ⟨i, e, h1, h2, he⟩ := h
          exact ⟨i, e, hskip i e h1 he, h2, he⟩
      · obtain ⟨h1, h2, hlang, hmin⟩ := hleft m hm
        exact ⟨by omega, h2, hlang, fun i e hi hi' he => hmin i e (hskip i e hi he) hi' he⟩

theorem search_ok (hd : tree.Decides s) (ng off : Nat) :
    ∃ N o, (∀ n, N ≤ n → rxSearch n tree ng s off = .ret o) ∧ SearchOk s tree off o :=
  searchFrom_ok hd ng (s.length + 1 - off) off (by omega) (by omega)

end

/-- **The matcher is sound and complete** for the trees that the parser makes. -/
theorem matcher_correct {f : Nat} {rp rp' : RxParser} {tree : Rx} {s : Bytes}
    (hp : rxParseAlt f rp = .ret tree rp') (hg : rp'.ngroups < 32) (hf : tree.Fits s.length)
    (ng : Nat) :
    (∀ off ≤ s.length, ∃ N r, (∀ n, N ≤ n → rxRun n tree ng s off = .ret r) ∧
      RunOk s tree off r) ∧
    ∀ off, ∃ N r, (∀ n, N ≤ n → rxSearch n tree ng s off = .ret r) ∧ SearchOk s tree off r := by
  have hd : tree.Decides s := (parseAlt_wf hp).decides hg hf
  exact ⟨fun off hoff => run_ok hd hoff ng, fun off => search_ok hd ng off⟩

/-- the pattern `a*b` finds its match in `cab` -/
theorem matcher_correct_ab : ∃ N m, (∀ n, N ≤ n → rxSearch n
    (.seq [.rep (.char 97 false) 0 (-1) false, .char 98 false]) 0 [99, 97, 98] 0 = .ret (some m)) ∧
    m.ms ≤ 1 := by
  have hp : rxParseAlt 20 ⟨[97, 42, 98], false, false, false, 0⟩ =
      .ret (.seq [.rep (.char 97 false) 0 (-1) false, .char 98 false])
        ⟨[], false, false, false, 0⟩ := rfl
  have hf : (Rx.seq [.rep (.char 97 false) 0 (-1) false, .char 98 false]).Fits
      ([99, 97, 98] : Bytes).length := by
    refine .seq fun k hk => ?_
    rcases List.mem_cons.mp hk with rfl | hk
    · exact .rep (by decide) (by decide) (.char ..)
    · rw [List.mem_singleton.mp hk]
      exact .char ..
  have hmatch : (Rx.seq [.rep (.char 97 false) 0 (-1) false, .char 98 false]).Lang
      [99, 97, 98] 1 3 :=
    ⟨2, ⟨1, by decide, .inl (by decide), 2, ⟨⟨97, rfl, .inl rfl⟩, rfl⟩, rfl⟩, 3,
      ⟨⟨98, rfl, .inl rfl⟩, rfl⟩, rfl⟩
  obtain ⟨N, r, hN, hiff, hleft⟩ := (matcher_correct hp (by decide) hf 0).2 0
  have hsome := hiff.mpr ⟨1, 3, by decide, by decide, hmatch⟩
  obtain ⟨m, rfl⟩ := Option.isSome_iff_exists.mp hsome
  exact ⟨N, m, hN, (hleft m rfl).2.2.2 1 3 (by decide) (by decide) hmatch⟩

end Regex
end HolyPhp
