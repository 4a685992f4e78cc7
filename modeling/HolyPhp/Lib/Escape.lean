import HolyPhp.Lib.Split

/-!
# Replacing one list by another, and codes made of replacements

`replace d r s` has `r` for each place where `split` finds `d`.  An escape puts a word for each
element that is to be kept out of a text: all words begin with the mark `q`, and the mark has a
word itself.

* `escape q m T`     the mark first, then the elements of the table `T`, one replacement each;
* `unescape q T`     the words of `T` back, one replacement each;
* `Marked q T`       no word of `T` meets another one, or an element that has a word;
* `unescape_escape`  what is escaped is unescaped to what the text itself is unescaped to.
-/

set_option autoImplicit false
set_option linter.unusedSectionVars false

namespace Substr
variable {α : Type} [DecidableEq α]

def replace (d r s : List α) : List α := r.intercalate (split d s)

variable {d r s t w : List α} {b c q : α} {T : List (α × List α)}

/-! ## replacements -/

theorem replace_nil (d r : List α) : replace d r [] = [] := by
  simp [replace, split_nil, List.intercalate]

theorem replace_hit (hd : d ≠ []) : replace d r (d ++ s) = r ++ replace d r s := by
  rw [replace, intercalate_hit r hd (List.prefix_append d s), List.drop_left]
  rfl

theorem replace_miss (h : ¬ d <+: c :: s) : replace d r (c :: s) = c :: replace d r s :=
  intercalate_miss r fun h' => h h'.2

/-- over elements that `d` does not begin with -/
theorem replace_skip (ht : q ∉ t) : replace (q :: w) r (t ++ s) = t ++ replace (q :: w) r s := by
  induction t with
  | nil => rfl
  | cons c t ih =>
    rw [List.mem_cons, not_or] at ht
    rw [List.cons_append, replace_miss fun h => ht.1 (List.cons_prefix_cons.mp h).1, ih ht.2]
    rfl

theorem replace_free (h : ¬ d <:+: s) : replace d r s = s := by
  induction s with
  | nil => exact replace_nil d r
  | cons c s ih =>
    rw [List.infix_cons_iff, not_or] at h
    rw [replace_miss h.1, ih h.2]

/-- one element -/
theorem replace_one (c : α) (r s : List α) :
    replace [c] r s = s.flatMap fun b => if b = c then r else [b] := by
  induction s with
  | nil => exact replace_nil [c] r
  | cons b s ih =>
    rw [List.flatMap_cons]
    by_cases hb : b = c
    · rw [if_pos hb, hb, ← ih]
      exact replace_hit (List.cons_ne_nil c [])
    · rw [if_neg hb, replace_miss fun h => hb (List.cons_prefix_cons.mp h).1.symm, ih]
      rfl

/-- a shorter text where a longer word is replaced -/
theorem length_replace (hr : r.length < d.length) (s : List α) :
    (replace d r s).length ≤ s.length ∧ (d <:+: s → (replace d r s).length < s.length) := by
  have hd : d ≠ [] := List.length_pos_iff.mp (Nat.zero_lt_of_lt hr)
  induction hn : s.length using Nat.strong_induction_on generalizing s with
  | _ n ih =>
    by_cases h : d <+: s
    · obtain ⟨t, rfl⟩ := h
      have hlen : (d ++ t).length = d.length + t.length := List.length_append
      obtain ⟨hle, -⟩ := ih t.length (by omega) t rfl
      rw [replace_hit hd, List.length_append]
      exact ⟨by omega, fun _ => by omega⟩
    · cases s with
      | nil =>
        rw [replace_nil]
        exact ⟨Nat.zero_le n, fun h' => absurd (List.infix_nil.mp h') hd⟩
      | cons c s =>
        obtain ⟨hle, hlt⟩ := ih s.length (by rw [← hn]; exact Nat.lt_succ_self _) s rfl
        rw [replace_miss h, ← hn]
        refine ⟨Nat.succ_le_succ hle, fun h' => Nat.succ_lt_succ (hlt ?_)⟩
        exact (List.infix_cons_iff.mp h').resolve_left h

/-! ## escapes -/

/-- the words of `T` begin with `q` -/
def escape (q : α) (m : List α) (T : List (α × List α)) (s : List α) : List α :=
  T.foldl (fun s p => replace [p.1] (q :: p.2) s) (replace [q] (q :: m) s)

def unescape (q : α) (T : List (α × List α)) (s : List α) : List α :=
  T.foldl (fun s p => replace (q :: p.2) [p.1] s) s

/-- what an element becomes -/
def code (q : α) : List (α × List α) → α → List α
  | [], b => [b]
  | (c, w) :: T, b => if b = c then q :: w else code q T b

/-- two words that stand at different places only -/
def Apart (v w : List α) : Prop := ¬ v <+: w ∧ ¬ w <+: v

/-- the elements of `T` are not the mark, and in no word behind it; no word begins another -/
structure Marked (q : α) (T : List (α × List α)) : Prop where
  keys : ∀ p ∈ T, p.1 ≠ q
  words : ∀ p ∈ T, q ∉ p.2 ∧ ∀ p' ∈ T, p'.1 ∉ p.2
  apart : T.Pairwise fun p p' => p.1 ≠ p'.1 ∧ Apart p.2 p'.2

theorem Marked.tail {p : α × List α} (h : Marked q (p :: T)) : Marked q T where
  keys p' hp := h.keys p' (List.mem_cons_of_mem p hp)
  words p' hp := ⟨(h.words p' (List.mem_cons_of_mem p hp)).1, fun p'' hp'' =>
    (h.words p' (List.mem_cons_of_mem p hp)).2 p'' (List.mem_cons_of_mem p hp'')⟩
  apart := (List.pairwise_cons.mp h.apart).2

theorem Apart.not_front {v : List α} (h : Apart v w) (s : List α) : ¬ v <+: w ++ s := by
  intro hv
  rcases List.prefix_or_prefix_of_prefix hv (List.prefix_append w s) with h' | h'
  · exact h.1 h'
  · exact h.2 h'

/-- an element with a word, or one that stands for itself -/
theorem code_cases (q : α) (T : List (α × List α)) (b : α) :
    (∃ p ∈ T, p.1 = b ∧ code q T b = q :: p.2) ∨ (∀ p ∈ T, p.1 ≠ b) ∧ code q T b = [b] := by
  induction T with
  | nil => exact .inr ⟨fun p hp => (by cases hp), rfl⟩
  | cons p T ih =>
    obtain ⟨c, w⟩ := p
    by_cases hb : b = c
    · exact .inl ⟨(c, w), List.mem_cons_self, hb.symm, if_pos hb⟩
    · have hcode : code q ((c, w) :: T) b = code q T b := if_neg hb
      rw [hcode]
      rcases ih with ⟨p, hp, he⟩ | ⟨hno, he⟩
      · exact .inl ⟨p, List.mem_cons_of_mem _ hp, he⟩
      · exact .inr ⟨List.forall_mem_cons.mpr ⟨fun h => hb h.symm, hno⟩, he⟩

theorem code_self (h : ∀ p ∈ T, p.1 ≠ b) : code q T b = [b] := by
  rcases code_cases q T b with ⟨p, hp, he, -⟩ | ⟨-, he⟩
  · exact absurd he (h p hp)
  · exact he

theorem flatMap_code_self (h : ∀ p ∈ T, p.1 ∉ s) : s.flatMap (code q T) = s := by
  induction s with
  | nil => rfl
  | cons b s ih =>
    have hb : ∀ p ∈ T, p.1 ≠ b := fun p hp he => h p hp (he ▸ List.mem_cons_self)
    rw [List.flatMap_cons, code_self hb, ih fun p hp hs => h p hp (List.mem_cons_of_mem b hs)]
    rfl

/-- the replacements of a table, all at once -/
theorem foldl_replace_one (h : Marked q T) (s : List α) :
    T.foldl (fun s p => replace [p.1] (q :: p.2) s) s = s.flatMap (code q T) := by
  induction T generalizing s with
  | nil => exact (flatMap_code_self fun p hp => by cases hp).symm
  | cons p T ih =>
    obtain ⟨c, w⟩ := p
    rw [List.foldl_cons, ih h.tail, replace_one, List.flatMap_assoc]
    apply List.flatMap_congr
    intro b _
    by_cases hb : b = c
    · rw [code, if_pos hb, if_pos hb]
      apply flatMap_code_self
      intro p hp hm
      have hp' : p ∈ (c, w) :: T := List.mem_cons_of_mem _ hp
      rcases List.mem_cons.mp hm with he | hm
      · exact h.keys p hp' he
      · exact (h.words (c, w) List.mem_cons_self).2 p hp' hm
    · rw [code, if_neg hb, if_neg hb, List.flatMap_singleton]

/-- words without elements of `T` are seen through the code -/
theorem prefix_flatMap_code (hq : q ∉ w) (hT : ∀ p ∈ T, p.1 ∉ w) (s : List α) :
    w <+: s.flatMap (code q T) ↔ w <+: s := by
  induction w generalizing s with
  | nil => exact iff_of_true List.nil_prefix List.nil_prefix
  | cons a w ih =>
    rw [List.mem_cons, not_or] at hq
    have hT' : ∀ p ∈ T, p.1 ∉ w := fun p hp hm => hT p hp (List.mem_cons_of_mem a hm)
    cases s with
    | nil => rfl
    | cons b s =>
      rw [List.flatMap_cons, List.cons_prefix_cons]
      rcases code_cases q T b with ⟨p, hp, rfl, he⟩ | ⟨-, he⟩
      · rw [he, List.cons_append, List.cons_prefix_cons]
        refine iff_of_false (fun h => hq.1 h.1.symm) fun h => ?_
        exact hT p hp (h.1 ▸ List.mem_cons_self)
      · rw [he, List.singleton_append, List.cons_prefix_cons, ih hq.2 hT' s]

/-- **The mark** is unescaped first: a word of `T` is not one of the mark. -/
theorem replace_mark {m : List α} (hm : ∀ p ∈ T, Apart m p.2) (hT : Marked q T) (s : List α) :
    replace (q :: m) [q] (s.flatMap fun b => if b = q then q :: m else code q T b) =
      s.flatMap (code q T) := by
  induction s with
  | nil => exact replace_nil _ _
  | cons b s ih =>
    rw [List.flatMap_cons, List.flatMap_cons]
    by_cases hb : b = q
    · rw [if_pos hb, replace_hit (List.cons_ne_nil q m), ih, hb, code_self hT.keys]
    · rw [if_neg hb]
      rcases code_cases q T b with ⟨p, hp, rfl, he⟩ | ⟨-, he⟩
      · rw [he, List.cons_append, replace_miss, replace_skip (hT.words p hp).1, ih]
        · rfl
        · intro h
          exact (hm p hp).not_front _ (List.cons_prefix_cons.mp h).2
      · rw [he, replace_skip fun h => hb (List.mem_singleton.mp h).symm, ih]

/-- **One word**: it is taken out of the code, and out of the text. -/
theorem replace_code (h : Marked q ((c, w) :: T)) (s : List α) :
    replace (q :: w) [c] (s.flatMap (code q ((c, w) :: T))) =
      (replace (q :: w) [c] s).flatMap (code q T) := by
  have hcq : c ≠ q := h.keys (c, w) List.mem_cons_self
  have hw := h.words (c, w) List.mem_cons_self
  have hne : q :: w ≠ [] := List.cons_ne_nil q w
  obtain ⟨happ, -⟩ := List.pairwise_cons.mp h.apart
  induction hn : s.length using Nat.strong_induction_on generalizing s with
  | _ n ih =>
    by_cases hs : q :: w <+: s
    · obtain ⟨t, rfl⟩ := hs
      have hlt : t.length < n := by
        rw [← hn, List.length_append, List.length_cons]
        omega
      have hcode : (q :: w).flatMap (code q ((c, w) :: T)) = q :: w := by
        apply flatMap_code_self
        intro p hp hm
        rcases List.mem_cons.mp hm with he | hm
        · exact h.keys p hp he
        · exact hw.2 p hp hm
      rw [List.flatMap_append, hcode, replace_hit hne, replace_hit hne, ih t.length hlt t rfl,
        List.flatMap_append, List.flatMap_singleton, code_self fun p hp => (happ p hp).1.symm]
    · cases s with
      | nil => rw [List.flatMap_nil, replace_nil, List.flatMap_nil]
      | cons b s =>
        have hlt : s.length < n := by
          rw [← hn]
          exact Nat.lt_succ_self _
        rw [replace_miss hs, List.flatMap_cons, List.flatMap_cons, ← ih s.length hlt s rfl]
        rcases code_cases q ((c, w) :: T) b with ⟨p, hp, rfl, he⟩ | ⟨hno, he⟩
        · rcases List.mem_cons.mp hp with rfl | hp
          · rw [he, replace_hit hne, code_self fun p hp => (happ p hp).1.symm]
          · have hpc : p.1 ≠ c := (happ p hp).1.symm
            have he' : code q T p.1 = q :: p.2 := by
              rw [← he, code, if_neg hpc]
            rw [he, he', List.cons_append, replace_miss, replace_skip (h.words p
              (List.mem_cons_of_mem _ hp)).1]
            · rfl
            · intro hpre
              exact (happ p hp).2.not_front _ (List.cons_prefix_cons.mp hpre).2
        · have hself : code q T b = [b] := code_self fun p hp => hno p (List.mem_cons_of_mem _ hp)
          rw [he, hself, List.singleton_append, replace_miss]
          · rfl
          · rw [List.cons_prefix_cons, prefix_flatMap_code hw.1 hw.2]
            intro hpre
            exact hs (List.cons_prefix_cons.mpr hpre)

theorem escape_eq {m : List α} (hT : Marked q T) (hm : ∀ p ∈ T, p.1 ∉ m) (s : List α) :
    escape q m T s = s.flatMap fun b => if b = q then q :: m else code q T b := by
  rw [escape, foldl_replace_one hT, replace_one, List.flatMap_assoc]
  apply List.flatMap_congr
  intro b _
  by_cases hb : b = q
  · rw [if_pos hb, if_pos hb]
    apply flatMap_code_self
    intro p hp hmem
    rcases List.mem_cons.mp hmem with he | hmem
    · exact hT.keys p hp he
    · exact hm p hp hmem
  · rw [if_neg hb, if_neg hb, List.flatMap_singleton]

theorem unescape_code (hT : Marked q T) (s : List α) :
    unescape q T (s.flatMap (code q T)) = unescape q T s := by
  induction T generalizing s with
  | nil => exact flatMap_code_self fun p hp => by cases hp
  | cons p T ih =>
    show unescape q T (replace (q :: p.2) [p.1] _) = unescape q T (replace (q :: p.2) [p.1] s)
    rw [replace_code hT, ih hT.tail]

/-- **Escaped and back**, the text is unescaped once. -/
theorem unescape_escape {m : List α} (hT : Marked q T) (hm : ∀ p ∈ T, p.1 ∉ m)
    (happ : ∀ p ∈ T, Apart m p.2) (s : List α) :
    unescape q ((q, m) :: T) (escape q m T s) = unescape q T s := by
  show unescape q T (replace (q :: m) [q] (escape q m T s)) = _
  rw [escape_eq hT hm, replace_mark happ hT, unescape_code hT]

theorem length_unescape (hT : ∀ p ∈ T, p.2 ≠ []) (s : List α) :
    (unescape q T s).length ≤ s.length := by
  induction T generalizing s with
  | nil => exact Nat.le_refl _
  | cons p T ih =>
    obtain ⟨hp, hT⟩ := List.forall_mem_cons.mp hT
    have hlen : [p.1].length < (q :: p.2).length :=
      Nat.succ_lt_succ (List.length_pos_iff.mpr hp)
    exact (ih hT _).trans (length_replace hlen s).1

/-- only a text without the words stays as it is -/
theorem unescape_eq_self (hT : ∀ p ∈ T, p.2 ≠ []) (s : List α) :
    unescape q T s = s ↔ ∀ p ∈ T, ¬ q :: p.2 <:+: s := by
  induction T with
  | nil => exact iff_of_true rfl fun p hp => by cases hp
  | cons p T ih =>
    obtain ⟨hp, hT⟩ := List.forall_mem_cons.mp hT
    have hlen : [p.1].length < (q :: p.2).length :=
      Nat.succ_lt_succ (List.length_pos_iff.mpr hp)
    have hstep : unescape q (p :: T) s = unescape q T (replace (q :: p.2) [p.1] s) := rfl
    rw [hstep, List.forall_mem_cons]
    by_cases hin : q :: p.2 <:+: s
    · refine iff_of_false (fun he => ?_) fun h => h.1 hin
      have h1 := length_unescape (q := q) hT (replace (q :: p.2) [p.1] s)
      have h2 := (length_replace hlen s).2 hin
      rw [he] at h1
      exact absurd h1 (Nat.not_le.mpr h2)
    · rw [replace_free hin, ih hT]
      exact (and_iff_right hin).symm

end Substr
