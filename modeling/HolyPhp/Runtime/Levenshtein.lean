import HolyPhp.Lib.EditDistance
import HolyPhp.Runtime.Value

/-!
# `levenshtein`

The table of the distances of the prefixes is computed row by row in `dp`, which is static: what it
holds at the start of a call is what the calls before have left.  The entries are far below `2^64`.

* `Row`                `dp` holds a row of the table up to a column, and the row before it behind;
* `levenshtein_least`  **the result is the least number of edits, whatever `dp` held.**
-/

set_option autoImplicit false

namespace HolyPhp
namespace Std
open Function EditDistance

/-! ## the function -/

/-- the body of the loop over `j`: `dp` and `prev` -/
def levCell (x y : Bytes) (i : Nat) (st : (Nat → Nat) × Nat) (j : Nat) : (Nat → Nat) × Nat :=
  let (dp, prev) := st
  let cur := dp j
  let cost := if x.getD (i - 1) 0 = y.getD (j - 1) 0 then 0 else 1
  let dp := update dp j (if dp (j - 1) + 1 < dp j + 1 then dp (j - 1) + 1 else dp j + 1)
  let dp := if prev + cost < dp j then update dp j (prev + cost) else dp
  (dp, cur)

/-- the body of the loop over `i` -/
def levRow (x y : Bytes) (dp : Nat → Nat) (i : Nat) : Nat → Nat :=
  ((List.range y.length).foldl (fun st j => levCell x y i st (j + 1)) (update dp 0 i, dp 0)).1

/-- with `dp` from the calls before: `dp` after the call, and the result -/
def hpbiLevenshtein (dp : Nat → Nat) (x y : Bytes) : (Nat → Nat) × Int64 :=
  if 512 < y.length + 1 then (dp, -1)
  else
    let dp := (List.range (y.length + 1)).foldl (fun dp j => update dp j j) dp
    let dp := (List.range x.length).foldl (fun dp i => levRow x y dp (i + 1)) dp
    (dp, Int64.ofNat (dp y.length))

/-! ## the table -/

/-- the distance of two prefixes -/
def table (x y : Bytes) (i j : Nat) : Nat := dist (x.take i) (y.take j)

/-- row `i + 1` up to column `j`, and row `i` behind it -/
def Row (x y : Bytes) (i j : Nat) (dp : Nat → Nat) : Prop :=
  ∀ k ≤ y.length, dp k = if k ≤ j then table x y (i + 1) k else table x y i k

section
variable {x y : Bytes} {i j n : Nat} {dp : Nat → Nat}

theorem table_zero_left (hj : j ≤ y.length) : table x y 0 j = j := by
  rw [table, List.take_zero, dist_nil_left, List.length_take_of_le hj]

theorem table_zero_right (hi : i ≤ x.length) : table x y i 0 = i := by
  rw [table, List.take_zero, dist_nil_right, List.length_take_of_le hi]

theorem take_snoc {s : Bytes} (hi : i < s.length) : s.take (i + 1) = s.take i ++ [s.getD i 0] := by
  rw [List.take_succ_eq_append_getElem hi, List.getD_eq_getElem?_getD, List.getElem?_eq_getElem hi,
    Option.getD_some]

theorem table_succ (hi : i < x.length) (hj : j < y.length) : table x y (i + 1) (j + 1) =
    min (min (table x y i (j + 1) + 1) (table x y (i + 1) j + 1))
      (table x y i j + if x.getD i 0 = y.getD j 0 then 0 else 1) := by
  simp only [table, take_snoc hi, take_snoc hj, dist_concat]
  rfl

/-- one cell -/
theorem levCell_row (hi : i < x.length) (hj : j < y.length) (hrow : Row x y i j dp) :
    Row x y i (j + 1) (levCell x y (i + 1) (dp, table x y i j) (j + 1)).1 ∧
      (levCell x y (i + 1) (dp, table x y i j) (j + 1)).2 = table x y i (j + 1) := by
  have hleft : dp j = table x y (i + 1) j := by
    rw [hrow j hj.le, if_pos (Nat.le_refl j)]
  have hcur : dp (j + 1) = table x y i (j + 1) := by
    rw [hrow (j + 1) hj, if_neg (Nat.not_succ_le_self j)]
  refine ⟨fun k hk => ?_, hcur⟩
  simp only [levCell, Nat.add_sub_cancel, update_self]
  by_cases hkj : k = j + 1
  · subst hkj
    rw [if_pos (Nat.le_refl _), table_succ hi hj, ← hleft, ← hcur]
    generalize (if x.getD i 0 = y.getD j 0 then 0 else 1) = c
    rw [ite_apply, update_self, update_self]
    split_ifs <;> omega
  · have hrest : (if k ≤ j + 1 then table x y (i + 1) k else table x y i k) = dp k := by
      rw [hrow k hk]
      split <;> split <;> first | rfl | omega
    rw [hrest, ite_apply, update_of_ne hkj, update_of_ne hkj, ite_self]

/-- the loop over `j` -/
theorem levRow_loop (hi : i < x.length) (hrow : Row x y i 0 dp) (hj : j ≤ y.length) :
    let st := (List.range j).foldl (fun st j => levCell x y (i + 1) st (j + 1)) (dp, table x y i 0)
    Row x y i j st.1 ∧ st.2 = table x y i j := by
  induction j with
  | zero => exact ⟨hrow, rfl⟩
  | succ j ih =>
    obtain ⟨h1, h2⟩ := ih (Nat.le_of_succ_le hj)
    rw [List.range_succ, List.foldl_append, List.foldl_cons, List.foldl_nil]
    generalize (List.range j).foldl _ (dp, table x y i 0) = st at h1 h2 ⊢
    obtain ⟨dp', prev⟩ := st
    obtain rfl : prev = table x y i j := h2
    exact levCell_row hi hj h1

/-- the loop over `i` -/
theorem levRow_table (hi : i < x.length) (hrow : ∀ k ≤ y.length, dp k = table x y i k) :
    ∀ k ≤ y.length, levRow x y dp (i + 1) k = table x y (i + 1) k := by
  have hstart : Row x y i 0 (update dp 0 (i + 1)) := by
    intro k hk
    cases k with
    | zero => rw [update_self, if_pos (Nat.le_refl 0), table_zero_right hi]
    | succ k => rw [update_of_ne (Nat.succ_ne_zero k), if_neg (Nat.not_succ_le_zero k), hrow _ hk]
  have hrows := (levRow_loop hi hstart (Nat.le_refl y.length)).1
  intro k hk
  rw [levRow, hrow 0 (Nat.zero_le _), hrows k hk, if_pos hk]

theorem levInit (hn : n ≤ y.length + 1) : ∀ k < n,
    (List.range n).foldl (fun dp j => update dp j j) dp k = k := by
  induction n with
  | zero => exact fun k hk => absurd hk (Nat.not_lt_zero k)
  | succ n ih =>
    intro k hk
    rw [List.range_succ, List.foldl_append, List.foldl_cons, List.foldl_nil]
    by_cases e : k = n
    · rw [e, update_self]
    · rw [update_of_ne e]
      exact ih (Nat.le_of_succ_le hn) k (by omega)

theorem levRows (hn : n ≤ x.length) (hrow : ∀ k ≤ y.length, dp k = table x y 0 k) :
    ∀ k ≤ y.length,
      (List.range n).foldl (fun dp i => levRow x y dp (i + 1)) dp k = table x y n k := by
  induction n with
  | zero => exact hrow
  | succ n ih =>
    rw [List.range_succ, List.foldl_append, List.foldl_cons, List.foldl_nil]
    exact levRow_table hn (ih (Nat.le_of_succ_le hn))

/-- **The result** is the distance: the least number of single-byte edits. -/
theorem levenshtein_least (dp : Nat → Nat) (x : Bytes) (hy : y.length ≤ 511) :
    (hpbiLevenshtein dp x y).2 = Int64.ofNat (dist x y) ∧
      IsLeast {n | Edits n x y} (dist x y) := by
  refine ⟨?_, dist_isLeast x y⟩
  have hfirst : ∀ k ≤ y.length, (List.range (y.length + 1)).foldl (fun dp j => update dp j j) dp k =
      table x y 0 k := by
    intro k hk
    rw [levInit (Nat.le_refl _) k (Nat.lt_succ_of_le hk), table_zero_left hk]
  have hlast := levRows (Nat.le_refl x.length) hfirst y.length (Nat.le_refl _)
  rw [hpbiLevenshtein, if_neg (by omega)]
  dsimp only
  rw [hlast, table, List.take_length, List.take_length]

/-- `ab` and `b`, after a call that left other numbers -/
theorem levenshtein_least_one : (ascii "b").length ≤ 511 ∧
    IsLeast {n | Edits n (ascii "ab") (ascii "b")} (dist (ascii "ab") (ascii "b")) ∧
    (hpbiLevenshtein (fun _ => 77) (ascii "ab") (ascii "b")).2 =
      Int64.ofNat (dist (ascii "ab") (ascii "b")) :=
  have h := levenshtein_least (fun _ => 77) (ascii "ab") (y := ascii "b") (by decide)
  ⟨by decide, h.2, h.1⟩

end

end Std
end HolyPhp
