import HolyPhp.Lib.Sorting
import HolyPhp.Runtime.ArrFill
import HolyPhp.Runtime.Cmp

/-!
# `sort`, `rsort`, `ksort`, `krsort`, `asort`

All are `hp_sort_pairs`.  A map is sorted as pairs of key and value; an array without keys is
sorted by its values, also by `ksort`.  `qsort` is the library's, for elements of any size.

* `hpSortPairs`        the function, with `hp_sort_mode` as an argument of the comparison;
* `ksort_map`          a map with the keys `0 .. n - 1` comes out in the order of the keys;
* `ksort_list`         a list comes out in the order of its values.
-/

set_option autoImplicit false

namespace HolyPhp
namespace Std
open Sorting Arr
open Cmp hiding Val

/-- `hp_sgn64` -/
def hpSgn64 (x : Int) : Int := if x < 0 then -1 else if 0 < x then 1 else 0

/-- `hp_kv` -/
structure HpKv where
  k : Key
  v : Val

inductive SortMode where
  | valAsc | valDesc | keyAsc | keyDesc

section
variable (strtod : Bytes → Double)

def hpQcmpValAsc (a b : Val) : Int := hpSgn64 (hpValCmp strtod a b)

def hpQcmpValDesc (a b : Val) : Int := -hpQcmpValAsc strtod a b

def hpKvCmp (mode : SortMode) (a b : HpKv) : Int :=
  match mode with
  | .keyAsc => hpSgn64 (hpValCmp strtod a.k.val b.k.val)
  | .keyDesc => -hpSgn64 (hpValCmp strtod a.k.val b.k.val)
  | .valDesc => -hpSgn64 (hpValCmp strtod a.v b.v)
  | .valAsc => hpSgn64 (hpValCmp strtod a.v b.v)

variable (qsort : (α : Type) → (α → α → Int) → List α → List α)

/-- `vals[0..len)` -/
def values (a : Harr) : List Val := (List.range a.len).map a.vals

/-- `tmp` -/
def pairs (a : Harr) : List HpKv := (List.range a.len).map fun i => ⟨a.keys i, a.vals i⟩

def hpSortPairs (a : Harr) (byKey desc : Bool) : Harr :=
  if a.len < 2 then a
  else if !(a.isMap && a.keyed) then
    let vs := qsort Val (if desc then hpQcmpValDesc strtod else hpQcmpValAsc strtod) (values a)
    { a with vals := fun i => (vs[i]?).getD (a.vals i) }
  else
    let mode : SortMode :=
      if byKey then (if desc then .keyDesc else .keyAsc) else (if desc then .valDesc else .valAsc)
    let tmp := qsort HpKv (hpKvCmp strtod mode) (pairs a)
    { a with
      keys := fun i => (tmp[i]?.map HpKv.k).getD (a.keys i)
      vals := fun i => (tmp[i]?.map HpKv.v).getD (a.vals i) }

def hpbiSort (a : Harr) : Harr := hpSortPairs strtod qsort a false false

def hpbiRsort (a : Harr) : Harr := hpSortPairs strtod qsort a false true

def hpbiKsort (a : Harr) : Harr := hpSortPairs strtod qsort a true false

def hpbiKrsort (a : Harr) : Harr := hpSortPairs strtod qsort a true true

def hpbiAsort (a : Harr) : Harr := hpSortPairs strtod qsort a false false

end

section
variable {strtod : Bytes → Double} {qsort : (α : Type) → (α → α → Int) → List α → List α}
  {a : Harr} {n : Nat} {f : Nat → Val}

theorem values_eq : values a = (List.range n).map f ↔ a.len = n ∧ ∀ i < n, a.vals i = f i := by
  constructor
  · intro h
    have hlen := congrArg List.length h
    rw [values, List.length_map, List.length_map, List.length_range, List.length_range] at hlen
    rw [values, hlen, List.map_inj_left] at h
    exact ⟨hlen, fun i hi => h i (List.mem_range.mpr hi)⟩
  · rintro ⟨rfl, h⟩
    apply List.map_congr_left
    exact fun i hi => h i (List.mem_range.mp hi)

theorem valCmp_sgn (v w : Val) : hpSgn64 (hpValCmp strtod v w) = hpValCmp strtod v w := by
  have hcases : hpValCmp strtod v w = -1 ∨ hpValCmp strtod v w = 1 ∨ hpValCmp strtod v w = 0 := by
    unfold hpValCmp
    split
    · dsimp only
      split
      · exact .inl rfl
      · split
        · exact .inr (.inl rfl)
        · exact .inr (.inr rfl)
    · dsimp only
      split
      · exact .inl rfl
      · split
        · exact .inr (.inl rfl)
        · exact .inr (.inr rfl)
  rcases hcases with h | h | h <;> rw [h] <;> rfl

/-- the entries with the keys `0 .. n - 1` ascend by their keys -/
theorem ascending_keys (hn : n ≤ 2 ^ 53) : Ascending (fun a b : Val × Val => hpValCmp strtod a.1 b.1)
    ((List.range n).map fun j => (.int (Int64.ofNat j), f j)) := by
  apply List.pairwise_map.mpr
  apply List.pairwise_lt_range.imp_of_mem
  intro i j _ hj hij
  right
  have hlt := List.mem_range.mp hj
  exact (valCmp_int hij (by omega)).trans_lt (Int.negSucc_lt_zero 0)

theorem length_pairs : (pairs a).length = a.len := by
  rw [pairs, List.length_map, List.length_range]

theorem map_pairs : (pairs a).map (fun p => (p.k.val, p.v)) = a.entries := by
  rw [pairs, List.map_map]
  rfl

theorem pairwise_of_short {α : Type} {l : List α} {r : α → α → Prop} (h : l.length < 2) :
    l.Pairwise r := by
  apply List.pairwise_iff_getElem.mpr
  intro i j hi hj hij
  omega

/-- memory that was filled from the list `l` -/
theorem values_filled {l : List Val} {v : Nat → Val} {b : Harr} (hl : l.length = b.len)
    (hv : b.vals = fun i => (l[i]?).getD (v i)) : values b = l := by
  apply List.ext_getElem
  · rw [values, List.length_map, List.length_range, hl]
  · intro i h1 h2
    simp only [values, List.getElem_map, List.getElem_range, hv, List.getElem?_eq_getElem h2,
      Option.getD_some]

/-- **`ksort` of a map** with the keys `0 .. n - 1`, which came in any order -/
theorem ksort_map (hs : Sorts qsort) (hm : a.isMap = true) (hk : 0 < a.len → a.keyed = true)
    (hn : n ≤ 2 ^ 53)
    (he : a.entries.Perm ((List.range n).map fun j => (.int (Int64.ofNat j), f j))) :
    values (hpbiKsort strtod qsort a) = (List.range n).map f := by
  have hr : Ascending (fun a b : Val × Val => hpValCmp strtod a.1 b.1)
      ((List.range n).map fun j => (.int (Int64.ofNat j), f j)) := ascending_keys hn
  have hodd : Sorting.Odd fun a b : Val × Val => hpValCmp strtod a.1 b.1 :=
    fun a b => cmp_antisymm strtod b.1 a.1
  have hf : (List.range n).map f =
      ((List.range n).map fun j => ((.int (Int64.ofNat j), f j) : Val × Val)).map Prod.snd := by
    rw [List.map_map]
    rfl
  rw [hf]
  unfold hpbiKsort hpSortPairs
  by_cases h2 : a.len < 2
  · rw [if_pos h2, ← hr.unique hodd he (pairwise_of_short (length_entries a ▸ h2))]
    rw [Harr.entries, List.map_map]
    rfl
  · have hcmp : hpKvCmp strtod .keyAsc =
        fun p q : HpKv => hpValCmp strtod (p.k.val, p.v).1 (q.k.val, q.v).1 := by
      funext p q
      exact valCmp_sgn p.k.val q.k.val
    have hsort := hs.ascending (l := pairs a) hodd hr (map_pairs ▸ he)
    rw [← hcmp] at hsort
    rw [if_neg h2, hm, hk (by omega), Bool.and_self, Bool.not_true, if_neg Bool.false_ne_true,
      if_pos rfl, if_neg Bool.false_ne_true]
    have hlen := (hs.perm HpKv (hpKvCmp strtod .keyAsc) (pairs a)).length_eq
    rw [length_pairs] at hlen
    rw [← hsort, List.map_map]
    apply values_filled (v := a.vals)
    · rwa [List.length_map]
    · funext i
      rw [List.getElem?_map]
      rfl

/-- **`ksort` of a list** sorts its values; they stay where they are only when they ascend -/
theorem ksort_list {r : List Val} (hs : Sorts qsort) (hm : a.isMap = false)
    (hasc : Ascending (hpValCmp strtod) r) (hp : (values a).Perm r) :
    values (hpbiKsort strtod qsort a) = r := by
  have hodd : Sorting.Odd (hpValCmp strtod) := fun a b => cmp_antisymm strtod b a
  unfold hpbiKsort hpSortPairs
  by_cases h2 : a.len < 2
  · rw [if_pos h2]
    apply hasc.unique hodd hp (pairwise_of_short _)
    rwa [values, List.length_map, List.length_range]
  · have hcmp : hpQcmpValAsc strtod = fun v w => hpValCmp strtod (id v) (id w) := by
      funext v w
      exact valCmp_sgn v w
    have hsort := hs.ascending (l := values a) (f := id) hodd hasc (by rwa [List.map_id])
    rw [← hcmp, List.map_id] at hsort
    rw [if_neg h2, hm, Bool.false_and, Bool.not_false, if_pos rfl, if_neg Bool.false_ne_true,
      hsort]
    apply values_filled (v := a.vals)
    · rw [← hp.length_eq, values, List.length_map, List.length_range]
    · rfl

end

end Std
end HolyPhp
