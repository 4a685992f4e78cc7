import Mathlib.Data.List.Infix

/-!
# Cutting a list at the occurrences of another one

`split d s` looks for `d` from the left and goes on behind each place where it stands.  `d` joins
the pieces to `s` again (`intercalate_split`), and no piece holds `d` (`split_free`).  With another
list between the pieces they are what a replacement of `d` makes (`intercalate_hit`,
`intercalate_miss`).

`cut d s a i` is the same list for a reader at `i`, whose piece began at `a`.
-/

set_option autoImplicit false
set_option linter.unusedSectionVars false

namespace Substr
variable {α : Type} [DecidableEq α]

def split (d : List α) : List α → List (List α)
  | [] => [[]]
  | c :: s =>
    if d ≠ [] ∧ d <+: c :: s then [] :: split d (s.drop (d.length - 1))
    else (split d s).modifyHead (c :: ·)
termination_by s => s.length
decreasing_by
  · simp only [List.length_drop, List.length_cons]
    omega
  · simp

variable {d r s t p : List α} {c : α} {ps : List (List α)}

theorem split_nil (d : List α) : split d [] = [[]] := by rw [split]

/-- here stands `d` -/
theorem split_hit (hd : d ≠ []) (h : d <+: s) : split d s = [] :: split d (s.drop d.length) := by
  cases s with
  | nil => exact absurd (List.prefix_nil.mp h) hd
  | cons c s =>
    rw [split, if_pos ⟨hd, h⟩]
    cases d with
    | nil => exact absurd rfl hd
    | cons e d => rfl

theorem split_miss (h : ¬ (d ≠ [] ∧ d <+: c :: s)) :
    split d (c :: s) = (split d s).modifyHead (c :: ·) := by
  rw [split, if_neg h]

/-- there is a first piece -/
theorem exists_split (d s : List α) : ∃ p ps, split d s = p :: ps := by
  induction s using split.induct d with
  | case1 => exact ⟨[], [], split_nil d⟩
  | case2 c s h => exact ⟨[], _, split_hit h.1 h.2⟩
  | case3 c s h ih =>
    obtain ⟨p, ps, hp⟩ := ih
    exact ⟨c :: p, ps, by rw [split_miss h, hp]; rfl⟩

theorem split_short (h : s.length < d.length) : split d s = [s] := by
  induction s with
  | nil => exact split_nil d
  | cons c s ih =>
    have hm : ¬ (d ≠ [] ∧ d <+: c :: s) := fun h' => absurd h'.2.length_le (Nat.not_le.mpr h)
    rw [split_miss hm, ih (Nat.lt_of_succ_lt h)]
    rfl

/-! ## joining -/

theorem intercalate_cons (d p q : List α) (ps : List (List α)) :
    d.intercalate (p :: q :: ps) = p ++ (d ++ d.intercalate (q :: ps)) := by
  simp [List.intercalate]

theorem intercalate_hit (r : List α) (hd : d ≠ []) (h : d <+: s) :
    r.intercalate (split d s) = r ++ r.intercalate (split d (s.drop d.length)) := by
  obtain ⟨p, ps, hp⟩ := exists_split d (s.drop d.length)
  rw [split_hit hd h, hp, intercalate_cons]
  rfl

theorem intercalate_miss (r : List α) (h : ¬ (d ≠ [] ∧ d <+: c :: s)) :
    r.intercalate (split d (c :: s)) = c :: r.intercalate (split d s) := by
  obtain ⟨p, ps, hp⟩ := exists_split d s
  rw [split_miss h, hp]
  cases ps with
  | nil => simp [List.intercalate]
  | cons q ps =>
    show r.intercalate ((c :: p) :: q :: ps) = _
    rw [intercalate_cons, intercalate_cons]
    rfl

/-- the separator joins the pieces -/
theorem intercalate_split (d s : List α) : d.intercalate (split d s) = s := by
  induction s using split.induct d with
  | case1 => simp [split_nil, List.intercalate]
  | case2 c s h ih =>
    obtain ⟨t, ht⟩ := h.2
    have hdrop : (c :: s).drop d.length = t := by rw [← ht, List.drop_left]
    have hs : s.drop (d.length - 1) = t := by
      rw [← hdrop]
      cases d with
      | nil => exact absurd rfl h.1
      | cons e d => rfl
    rw [hs] at ih
    rw [intercalate_hit d h.1 h.2, hdrop, ih, ht]
  | case3 c s h ih => rw [intercalate_miss d h, ih]

/-- the first piece is a beginning of the text -/
theorem head_split_prefix (h : split d s = p :: ps) : p <+: s := by
  induction s using split.induct d generalizing p ps with
  | case1 =>
    rw [split_nil] at h
    exact (List.cons.inj h).1 ▸ List.prefix_refl _
  | case2 c s h' =>
    rw [split_hit h'.1 h'.2] at h
    exact (List.cons.inj h).1 ▸ List.nil_prefix
  | case3 c s h' ih =>
    obtain ⟨q, qs, hq⟩ := exists_split d s
    rw [split_miss h', hq] at h
    have hp : c :: q = p := (List.cons.inj h).1
    rw [← hp, List.cons_prefix_cons]
    exact ⟨rfl, ih hq⟩

/-- **No piece holds the separator.** -/
theorem split_free (hd : d ≠ []) : ∀ p ∈ split d s, ¬ d <:+: p := by
  induction s using split.induct d with
  | case1 =>
    intro p hp
    rw [split_nil, List.mem_singleton] at hp
    rw [hp, List.infix_nil]
    exact hd
  | case2 c s h ih =>
    intro p hp
    rw [split, if_pos h, List.mem_cons] at hp
    rcases hp with rfl | hp
    · rw [List.infix_nil]
      exact hd
    · exact ih p hp
  | case3 c s h ih =>
    intro p hp
    obtain ⟨q, qs, hq⟩ := exists_split d s
    rw [split_miss h, hq, List.modifyHead_cons, List.mem_cons] at hp
    rw [hq] at ih
    rcases hp with rfl | hp
    · rw [List.infix_cons_iff]
      rintro (hpre | hin)
      · have hs : c :: q <+: c :: s := List.cons_prefix_cons.mpr ⟨rfl, head_split_prefix hq⟩
        exact h ⟨hd, hpre.trans hs⟩
      · exact ih q List.mem_cons_self hin
    · exact ih p (List.mem_cons_of_mem _ hp)

/-- where two lists are joined by the same separator -/
theorem append_cons_eq {α : Type} {s : α} {a b c d : List α} :
    a ++ s :: b = c ++ s :: d ↔ (a = c ∧ b = d) ∨
      (∃ x, c = a ++ s :: x ∧ b = x ++ s :: d) ∨ ∃ x, a = c ++ s :: x ∧ d = x ++ s :: b := by
  constructor
  · intro h
    rcases List.append_eq_append_iff.1 h with ⟨x, hc, hb⟩ | ⟨x, ha, hd⟩
    · cases x with
      | nil => exact .inl ⟨by rw [hc, List.append_nil], (List.cons.inj hb).2⟩
      | cons y x =>
        obtain ⟨rfl, hx⟩ := List.cons.inj hb
        exact .inr (.inl ⟨x, hc, hx⟩)
    · cases x with
      | nil => exact .inl ⟨by rw [ha, List.append_nil], (List.cons.inj hd).2.symm⟩
      | cons y x =>
        obtain ⟨rfl, hx⟩ := List.cons.inj hd
        exact .inr (.inr ⟨x, ha, hx⟩)
  · rintro (⟨rfl, rfl⟩ | ⟨x, rfl, rfl⟩ | ⟨x, rfl, rfl⟩)
    · rfl
    · rw [List.append_assoc, List.cons_append]
    · rw [List.append_assoc, List.cons_append]

end Substr
