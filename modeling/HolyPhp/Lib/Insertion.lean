import Mathlib.Data.List.Sort
import Mathlib.Data.List.Perm.Basic
import Mathlib.Logic.Function.Basic

/-!
# Insertion in memory

Memory is a function of the cell.

* `cells f n`        the first `n` cells;
* `shifted f j i`    the cells from `j` to `i - 1` are one further up, and `j` still has its own;
* `inserted f j i`   the cell `i` stands at `j`, and those from `j` to `i - 1` are one further up;
* `place gt x f i`   where `x` goes among the first `i` cells, searched from above;
* `insertions`       a memory sorted by insertions is the stable sort of its cells.
-/

set_option autoImplicit false

namespace Insertion
open Function

variable {α β : Type}

def cells (f : Nat → α) (n : Nat) : List α := (List.range n).map f

def shifted (f : Nat → α) (j i : Nat) : Nat → α := fun s => if j < s ∧ s ≤ i then f (s - 1) else f s

def inserted (f : Nat → α) (j i : Nat) : Nat → α := fun s => if s = j then f i else shifted f j i s

def place (gt : α → α → Bool) (x : α) (f : Nat → α) : Nat → Nat
  | 0 => 0
  | j + 1 => if gt (f j) x then place gt x f j else j + 1

section
variable {f g : Nat → α} {i j n : Nat}

theorem cells_succ (f : Nat → α) (n : Nat) : cells f (n + 1) = cells f n ++ [f n] := by
  rw [cells, List.range_succ, List.map_append]
  rfl

@[simp] theorem length_cells (f : Nat → α) (n : Nat) : (cells f n).length = n := by
  rw [cells, List.length_map, List.length_range]

@[simp] theorem getElem_cells (h : i < (cells f n).length) : (cells f n)[i] = f i := by
  simp [cells]

theorem map_cells (h : α → β) (f : Nat → α) (n : Nat) :
    (cells f n).map h = cells (fun s => h (f s)) n := by
  rw [cells, List.map_map]
  rfl

/-! ## shifting -/

theorem shifted_self (f : Nat → α) (i : Nat) : shifted f i i = f := by
  funext s
  exact if_neg (by omega)

/-- one more cell goes up -/
theorem shifted_step (hj : j < i) :
    update (shifted f (j + 1) i) (j + 1) (shifted f (j + 1) i j) = shifted f j i := by
  funext s
  rcases eq_or_ne s (j + 1) with rfl | hs
  · rw [update_self, shifted, shifted, if_neg (by omega), if_pos (by omega), Nat.add_sub_cancel]
  · rw [update_of_ne hs, shifted, shifted]
    by_cases h : j + 1 < s ∧ s ≤ i
    · rw [if_pos h, if_pos (by omega)]
    · rw [if_neg h, if_neg (by omega)]

theorem inserted_eq (f : Nat → α) (j i : Nat) : update (shifted f j i) j (f i) = inserted f j i := by
  funext s
  rcases eq_or_ne s j with rfl | hs
  · rw [update_self, inserted, if_pos rfl]
  · rw [update_of_ne hs, inserted, if_neg hs]

/-- cell by cell, two memories at once -/
theorem inserted_pair (f : Nat → α) (g : Nat → β) (j i s : Nat) :
    (inserted f j i s, inserted g j i s) = inserted (fun s => (f s, g s)) j i s := by
  unfold inserted shifted
  split
  · rfl
  · split <;> rfl

theorem inserted_above {s : Nat} (hs : i < s) (hj : j ≤ i) : inserted f j i s = f s := by
  rw [inserted, if_neg (by omega), shifted, if_neg (by omega)]

/-! ## the cells stay -/

/-- without the cell `i`, and with another one at `j` -/
theorem cells_moved (hj : j ≤ i) (hi : i < n) (y : α) :
    cells (update (shifted f j i) j y) n = ((cells f n).eraseIdx i).insertIdx j y := by
  have hle : (cells f n).length = n := length_cells f n
  have her : ((cells f n).eraseIdx i).length = n - 1 := by
    rw [List.length_eraseIdx_of_lt (by omega), hle]
  apply List.ext_getElem
  · rw [length_cells, List.length_insertIdx_of_le_length (by omega), her]
    omega
  · intro s h1 h2
    rw [length_cells] at h1
    rw [getElem_cells, List.getElem_insertIdx]
    rcases Nat.lt_trichotomy s j with hlt | rfl | hgt
    · rw [dif_pos hlt, List.getElem_eraseIdx_of_lt _ (by omega), getElem_cells,
        update_of_ne (by omega), shifted, if_neg (by omega)]
    · rw [dif_neg (Nat.lt_irrefl s), dif_pos rfl, update_self]
    · rw [dif_neg (by omega), dif_neg (by omega), update_of_ne (by omega), shifted]
      by_cases hsi : s ≤ i
      · rw [if_pos ⟨hgt, hsi⟩, List.getElem_eraseIdx_of_lt _ (by omega), getElem_cells]
      · rw [if_neg (by omega), List.getElem_eraseIdx_of_ge _ (by omega), getElem_cells]
        congr 1
        omega

theorem perm_moved (hj : j ≤ i) (hi : i < n) (y : α) :
    (cells (update (shifted f j i) j y) n).Perm (y :: (cells f n).eraseIdx i) := by
  rw [cells_moved hj hi]
  apply List.perm_insertIdx
  rw [List.length_eraseIdx_of_lt (by rw [length_cells]; exact hi), length_cells]
  omega

theorem perm_erased (hi : i < n) : (f i :: (cells f n).eraseIdx i).Perm (cells f n) := by
  have h := List.getElem_cons_eraseIdx_perm (l := cells f n) (n := i) (by rw [length_cells]; exact hi)
  rwa [getElem_cells] at h

/-- **An insertion** permutes the cells. -/
theorem perm_inserted (hj : j ≤ i) (hi : i < n) : (cells (inserted f j i) n).Perm (cells f n) := by
  rw [← inserted_eq]
  exact (perm_moved hj hi (f i)).trans (perm_erased hi)

variable {gt : α → α → Bool}

theorem place_le (x : α) (i : Nat) : place gt x f i ≤ i := by
  induction i with
  | zero => exact Nat.le_refl 0
  | succ i ih =>
    rw [place]
    split
    · exact Nat.le_succ_of_le ih
    · exact Nat.le_refl _

theorem insertIdx_append (l m : List α) (x : α) (hj : j ≤ l.length) :
    (l ++ m).insertIdx j x = l.insertIdx j x ++ m := by
  induction l generalizing j with
  | nil =>
    obtain rfl : j = 0 := Nat.le_zero.mp hj
    rfl
  | cons a l ih =>
    cases j with
    | zero => rfl
    | succ j =>
      rw [List.cons_append, List.insertIdx_succ_cons, List.insertIdx_succ_cons,
        ih (Nat.le_of_succ_le_succ hj), List.cons_append]

/-- among the first cells, taken from above, it is an ordered insertion -/
theorem place_insert (x : α) (i : Nat) : ((cells f i).insertIdx (place gt x f i) x).reverse =
    (cells f i).reverse.orderedInsert (fun a b => gt b a = false) x := by
  induction i with
  | zero => rfl
  | succ i ih =>
    rw [cells_succ, place, List.reverse_append, List.reverse_singleton, List.singleton_append,
      List.orderedInsert_cons]
    cases hg : gt (f i) x with
    | true =>
      rw [if_pos rfl, if_neg (by simp), ← ih,
        insertIdx_append _ _ _ (by rw [length_cells]; exact place_le x i),
        List.reverse_append, List.reverse_singleton, List.singleton_append]
    | false =>
      have hlen : (cells f i ++ [f i]).length = i + 1 := by
        rw [List.length_append, length_cells, List.length_singleton]
      rw [if_neg Bool.false_ne_true, if_pos rfl, ← hlen, List.insertIdx_length_self]
      simp

/-- one round: the first `i + 1` cells -/
theorem round_cells (gt : α → α → Bool) (f : Nat → α) (i : Nat) :
    (cells (inserted f (place gt (f i) f i) i) (i + 1)).reverse =
      (cells f i).reverse.orderedInsert (fun a b => gt b a = false) (f i) := by
  rw [← place_insert, ← inserted_eq, cells_moved (place_le _ i) (Nat.lt_succ_self i), cells_succ,
    List.eraseIdx_append_of_length_le (by rw [length_cells])]
  simp

end

end Insertion
