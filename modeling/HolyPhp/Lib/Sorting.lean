import Mathlib.Data.List.Pairwise
import Mathlib.Data.List.Sort
import Mathlib.Tactic.Common

/-!
# Sorting with a comparison function

A comparison function gives a number: negative, zero or positive, as in C.

* `Ordered cmp l`    on the elements of `l` the function is an order, as `qsort` asks for;
* `Sorts sort`       what is known of a sort: the elements stay, and an ordered list gets sorted;
                     equal elements may come out in any order (`mergeSort_sorts` is one sort);
* `Ascending cmp l`  the list is sorted, and only one and the same element stands there twice;
* `Sorts.ascending`  such a list is the only result that a sort of its elements has.
-/

set_option linter.unusedVariables false
set_option autoImplicit false

namespace Sorting

section
variable {α β : Type}

/-- the answers on the elements of the list fit together -/
structure Ordered (cmp : α → α → Int) (l : List α) : Prop where
  neg : ∀ a ∈ l, ∀ b ∈ l, cmp a b < 0 ↔ 0 < cmp b a
  trans : ∀ a ∈ l, ∀ b ∈ l, ∀ c ∈ l, cmp a b ≤ 0 → cmp b c ≤ 0 → cmp a c ≤ 0

def Ascending (cmp : α → α → Int) (l : List α) : Prop := l.Pairwise fun a b => a = b ∨ cmp a b < 0

/-- the other way round the answer has the other sign -/
def Odd (cmp : α → α → Int) : Prop := ∀ a b, cmp b a = -cmp a b

end

structure Sorts (sort : (α : Type) → (α → α → Int) → List α → List α) : Prop where
  perm : ∀ (α : Type) (cmp : α → α → Int) (l : List α), (sort α cmp l).Perm l
  sorted : ∀ (α : Type) (cmp : α → α → Int) (l : List α), Ordered cmp l →
    (sort α cmp l).Pairwise fun a b => cmp a b ≤ 0

section
variable {α β : Type} {cmp : α → α → Int} {l m : List α}

theorem Odd.self (h : Odd cmp) (a : α) : cmp a a = 0 := by
  have := h a a
  omega

/-- an element that stands before another one is not greater -/
theorem Ascending.le (h : Ascending cmp l) (ho : Odd cmp) {i j : Nat} (hi : i < l.length)
    (hj : j < l.length) (hij : i ≤ j) : cmp l[i] l[j] ≤ 0 := by
  rcases Nat.eq_or_lt_of_le hij with rfl | hlt
  · exact (ho.self _).le
  · rcases List.pairwise_iff_getElem.mp h i j hi hj hlt with he | hneg
    · rw [he, ho.self]
    · exact hneg.le

/-- an element that is not greater stands before, or is the same -/
theorem Ascending.index (h : Ascending cmp l) (ho : Odd cmp) {i j : Nat} (hi : i < l.length)
    (hj : j < l.length) (hle : cmp l[i] l[j] ≤ 0) : i ≤ j ∨ l[i] = l[j] := by
  by_cases hij : i ≤ j
  · exact .inl hij
  · rcases List.pairwise_iff_getElem.mp h j i hj hi (by omega) with he | hneg
    · exact .inr he.symm
    · have := ho l[j] l[i]
      omega

theorem Ascending.ordered (h : Ascending cmp l) (ho : Odd cmp) : Ordered cmp l where
  neg a _ b _ := by
    have := ho a b
    omega
  trans a ha b hb c hc hab hbc := by
    obtain ⟨i, hi, rfl⟩ := List.mem_iff_getElem.mp ha
    obtain ⟨j, hj, rfl⟩ := List.mem_iff_getElem.mp hb
    obtain ⟨k, hk, rfl⟩ := List.mem_iff_getElem.mp hc
    rcases h.index ho hi hj hab with hij | he
    · rcases h.index ho hj hk hbc with hjk | he
      · exact h.le ho hi hk (hij.trans hjk)
      · rwa [← he]
    · rwa [he]

/-- a sorted list of the same elements is the ascending one -/
theorem Ascending.unique (h : Ascending cmp l) (ho : Odd cmp) (hp : m.Perm l)
    (hm : m.Pairwise fun a b => cmp a b ≤ 0) : m = l := by
  have hl : l.Pairwise fun a b => cmp a b ≤ 0 := by
    apply List.pairwise_iff_getElem.mpr
    exact fun i j hi hj hij => h.le ho hi hj hij.le
  apply hp.eq_of_pairwise _ hm hl
  intro a b ha hb hab hba
  obtain ⟨i, hi, rfl⟩ := List.mem_iff_getElem.mp (hp.mem_iff.mp ha)
  obtain ⟨j, hj, rfl⟩ := List.mem_iff_getElem.mp hb
  rcases h.index ho hi hj hab with hij | he
  · rcases h.index ho hj hi hba with hji | he
    · simp only [Nat.le_antisymm hij hji]
    · exact he.symm
  · exact he

theorem Ordered.of_map {γ : β → β → Int} {f : α → β} (h : Ordered γ (l.map f)) :
    Ordered (fun a b => γ (f a) (f b)) l where
  neg a ha b hb := h.neg _ (List.mem_map_of_mem ha) _ (List.mem_map_of_mem hb)
  trans a ha b hb c hc :=
    h.trans _ (List.mem_map_of_mem ha) _ (List.mem_map_of_mem hb) _ (List.mem_map_of_mem hc)

theorem Ordered.perm (h : Ordered cmp l) (hp : m.Perm l) : Ordered cmp m where
  neg a ha b hb := h.neg a (hp.mem_iff.mp ha) b (hp.mem_iff.mp hb)
  trans a ha b hb c hc := h.trans a (hp.mem_iff.mp ha) b (hp.mem_iff.mp hb) c (hp.mem_iff.mp hc)

/-- **A sort by a part of the elements** gives the list with these parts in ascending order. -/
theorem Sorts.ascending {sort : (α : Type) → (α → α → Int) → List α → List α} (hs : Sorts sort)
    {γ : β → β → Int} {f : α → β} {r : List β} (ho : Odd γ) (hr : Ascending γ r)
    (hp : (l.map f).Perm r) : (sort α (fun a b => γ (f a) (f b)) l).map f = r := by
  have hord : Ordered (fun a b => γ (f a) (f b)) l := ((hr.ordered ho).perm hp).of_map
  apply hr.unique ho
  · exact ((hs.perm _ _ l).map f).trans hp
  · exact List.pairwise_map.mpr (hs.sorted _ _ l hord)

end

/-- merge sort, which compares elements of the list only -/
def mergeSort (α : Type) (cmp : α → α → Int) (l : List α) : List α :=
  (l.attach.mergeSort fun a b => decide (cmp a.1 b.1 ≤ 0)).map Subtype.val

theorem mergeSort_sorts : Sorts mergeSort where
  perm α cmp l := by
    have hp := (List.mergeSort_perm l.attach fun a b => decide (cmp a.1 b.1 ≤ 0)).map Subtype.val
    rwa [List.attach_map_subtype_val] at hp
  sorted α cmp l h := by
    have hs : (l.attach.mergeSort fun a b => decide (cmp a.1 b.1 ≤ 0)).Pairwise
        fun a b => decide (cmp a.1 b.1 ≤ 0) = true := by
      apply List.pairwise_mergeSort
      · intro a b c hab hbc
        exact decide_eq_true (h.trans a.1 a.2 b.1 b.2 c.1 c.2 (of_decide_eq_true hab)
          (of_decide_eq_true hbc))
      · intro a b
        have := h.neg b.1 b.2 a.1 a.2
        simp only [Bool.or_eq_true, decide_eq_true_eq]
        omega
    exact List.pairwise_map.mpr (hs.imp of_decide_eq_true)

end Sorting
