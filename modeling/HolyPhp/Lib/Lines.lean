import HolyPhp.Lib.Substr

/-!
# Lines of a stream

`Lines q s ls r`: the stream `s` is the lines `ls`, each with an end `q` behind it, and the rest `r`
without one.  Every stream has its lines, and no others (`exists_lines`, `Lines.unique`).

A reader that keeps the rest may take the stream in pieces (`Lines.append`); it finds the first line
with `strpos` (`Lines.none`, `Lines.next`).
-/

set_option autoImplicit false
set_option linter.unusedSectionVars false

namespace Substr

structure Lines {α : Type} (q : α) (s : List α) (ls : List (List α)) (r : List α) : Prop where
  flat : ls.flatMap (fun l => l ++ [q]) ++ r = s
  line : ∀ l ∈ ls, q ∉ l
  rest : q ∉ r

section
variable {α : Type} [BEq α] [LawfulBEq α] {q : α} {s t l r r' : List α} {ls ls' : List (List α)}

theorem Lines.of_free (h : q ∉ s) : Lines q s [] s := ⟨rfl, fun _ hl => (nomatch hl), h⟩

/-- one line in front -/
theorem Lines.cons (hl : q ∉ l) (h : Lines q s ls r) : Lines q (l ++ q :: s) (l :: ls) r := by
  refine ⟨?_, ?_, h.rest⟩
  · rw [List.flatMap_cons, List.append_assoc, h.flat, List.append_assoc]
    rfl
  · intro m hm
    rcases List.mem_cons.mp hm with rfl | hm
    · exact hl
    · exact h.line m hm

/-- **the stream goes on behind the rest** -/
theorem Lines.append (h : Lines q s ls r) (h' : Lines q (r ++ t) ls' r') :
    Lines q (s ++ t) (ls ++ ls') r' := by
  refine ⟨?_, ?_, h'.rest⟩
  · rw [List.flatMap_append, List.append_assoc, h'.flat, ← h.flat, List.append_assoc]
  · intro l hl
    rcases List.mem_append.mp hl with hl | hl
    · exact h.line l hl
    · exact h'.line l hl

theorem strpos_none_iff : strpos [q] s = none ↔ q ∉ s := by
  induction s with
  | nil => simp [strpos]
  | cons c s ih =>
    by_cases hc : [q] <+: c :: s
    · rw [strpos_here hc]
      have hq := (List.cons_prefix_cons.mp hc).1
      simp [hq]
    · rw [strpos_next hc, Option.map_eq_none_iff, ih, List.mem_cons, not_or]
      have hq : q ≠ c := fun h => hc (List.cons_prefix_cons.mpr ⟨h, List.nil_prefix⟩)
      exact ⟨fun h => ⟨hq, h⟩, fun h => h.2⟩

/-- a place cuts the stream behind a line -/
theorem strpos_cut {i : Nat} (h : strpos [q] s = some i) :
    q ∉ s.take i ∧ s = s.take i ++ q :: s.drop (i + 1) ∧ i < s.length := by
  induction s generalizing i with
  | nil => simp [strpos] at h
  | cons c s ih =>
    by_cases hc : [q] <+: c :: s
    · rw [strpos_here hc, Option.some.injEq] at h
      obtain rfl := h
      have hq := (List.cons_prefix_cons.mp hc).1
      refine ⟨by simp, ?_, Nat.succ_pos _⟩
      rw [hq]
      rfl
    · rw [strpos_next hc] at h
      obtain ⟨j, hj, rfl⟩ := Option.map_eq_some_iff.mp h
      obtain ⟨hfree, hcut, hlt⟩ := ih hj
      have hq : q ≠ c := fun h => hc (List.cons_prefix_cons.mpr ⟨h, List.nil_prefix⟩)
      refine ⟨?_, ?_, Nat.succ_lt_succ hlt⟩
      · rw [List.take_succ_cons, List.mem_cons, not_or]
        exact ⟨hq, hfree⟩
      · rw [List.take_succ_cons, List.drop_succ_cons, List.cons_append, ← hcut]

theorem Lines.none (h : strpos [q] s = none) : Lines q s [] s := .of_free (strpos_none_iff.mp h)

theorem Lines.next {i : Nat} (h : strpos [q] s = some i) (hs : Lines q (s.drop (i + 1)) ls r) :
    Lines q s (s.take i :: ls) r := by
  obtain ⟨hfree, hcut, -⟩ := strpos_cut h
  have := hs.cons hfree
  rwa [← hcut] at this

theorem exists_lines (q : α) (s : List α) : ∃ ls r, Lines q s ls r := by
  induction hn : s.length using Nat.strong_induction_on generalizing s with
  | _ n ih =>
    cases h : strpos [q] s with
    | none => exact ⟨[], s, .none h⟩
    | some i =>
      obtain ⟨-, -, hlt⟩ := strpos_cut h
      have hshort : (s.drop (i + 1)).length < n := by
        rw [List.length_drop]
        omega
      obtain ⟨ls, r, hs⟩ := ih _ hshort _ rfl
      exact ⟨_, r, hs.next h⟩

/-- two texts up to the first `q` -/
theorem append_delim_inj (hl : q ∉ l) (hr : q ∉ r) (h : l ++ q :: s = r ++ q :: t) :
    l = r ∧ s = t := by
  induction l generalizing r with
  | nil =>
    cases r with
    | nil => exact ⟨rfl, (List.cons.inj h).2⟩
    | cons d r =>
      have hd := (List.cons.inj h).1
      exact absurd (hd ▸ List.mem_cons_self) hr
  | cons c l ih =>
    rw [List.mem_cons, not_or] at hl
    cases r with
    | nil => exact absurd (List.cons.inj h).1.symm hl.1
    | cons d r =>
      rw [List.mem_cons, not_or] at hr
      obtain ⟨hcd, hrest⟩ := List.cons.inj h
      obtain ⟨hlr, hst⟩ := ih hl.2 hr.2 hrest
      exact ⟨by rw [hcd, hlr], hst⟩

theorem Lines.unique (h : Lines q s ls r) (h' : Lines q s ls' r') : ls = ls' ∧ r = r' := by
  induction ls generalizing s ls' with
  | nil =>
    cases ls' with
    | nil => exact ⟨rfl, h.flat.trans h'.flat.symm⟩
    | cons l ls' =>
      have hs := h.flat.trans h'.flat.symm
      have hq : q ∈ r := by
        rw [show r = _ from hs]
        simp
      exact absurd hq h.rest
  | cons l ls ih =>
    cases ls' with
    | nil =>
      have hs := h'.flat.trans h.flat.symm
      have hq : q ∈ r' := by
        rw [show r' = _ from hs]
        simp
      exact absurd hq h'.rest
    | cons l' ls' =>
      have hs := h.flat.trans h'.flat.symm
      rw [List.flatMap_cons, List.flatMap_cons, List.append_assoc, List.append_assoc,
        List.append_assoc, List.append_assoc] at hs
      obtain ⟨hl, hrest⟩ := append_delim_inj (h.line l List.mem_cons_self)
        (h'.line l' List.mem_cons_self) hs
      have h1 : Lines q (ls.flatMap (fun l => l ++ [q]) ++ r) ls r :=
        ⟨rfl, fun m hm => h.line m (List.mem_cons_of_mem _ hm), h.rest⟩
      have h2 : Lines q (ls.flatMap (fun l => l ++ [q]) ++ r) ls' r' :=
        ⟨hrest.symm, fun m hm => h'.line m (List.mem_cons_of_mem _ hm), h'.rest⟩
      obtain ⟨hls, hr⟩ := ih h1 h2
      exact ⟨by rw [hl, hls], hr⟩

end

end Substr
