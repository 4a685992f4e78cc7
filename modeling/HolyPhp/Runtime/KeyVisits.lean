import HolyPhp.Json.Decode
import HolyPhp.Runtime.Cmp
import HolyPhp.Runtime.Codes
import HolyPhp.Runtime.KeyReads

/-!
# The builtins that visit keys

Each loop reads `keys[i]` of its argument, some after a test of `is_map`, some after a test of
`keys`, some without a test.  Arguments are arrays (`none`: another value); the values of a row of
`array_column` are found under its address.

* `asKeyed a`        the map that a list stands for: its keys are `0, 1, ..`;
* `ColumnOk`, ..     the conditions on the arguments;
* `list_keys`        no builtin stops at a read, just if its condition holds.
-/

set_option autoImplicit false

namespace HolyPhp
namespace Std
open Arr Function Access
open Cmp hiding Val

/-! ## the builtins -/

/-- the elements of `x`, each with the read of its key -/
def visitsBy (f : Harr → Nat → Access Val) (x : Harr) : List (Access Val × Val) :=
  (List.range x.len).map fun k => (f x k, x.vals k)

def asKeyed (a : Harr) : Harr :=
  if a.isMap then a
  else { a with isMap := true, keyed := true, keys := fun i => ⟨.int (Int64.ofNat i), true⟩ }

section
variable {a x : Harr} {junk : Nat → Val} {dup : Addr → Addr}

theorem asKeyed_map (hm : a.isMap = true) : asKeyed a = a := if_pos hm

theorem asKeyed_list (hm : a.isMap = false) : asKeyed a =
    { a with isMap := true, keyed := true, keys := fun i => ⟨.int (Int64.ofNat i), true⟩ } :=
  if_neg (by rw [hm]; exact Bool.false_ne_true)

theorem asKeyed_len (a : Harr) : (asKeyed a).len = a.len := by
  unfold asKeyed
  split <;> rfl

theorem asKeyed_vals (a : Harr) : (asKeyed a).vals = a.vals := by
  unfold asKeyed
  split <;> rfl

/-- `f` reads the key `key x k` of each element where `ok x`, and stops at one of them else -/
structure Visiting (f : Harr → Nat → Access Val) (key : Harr → Nat → Val) (ok : Harr → Prop) :
    Prop where
  reads : ∀ x, ok x → ∀ k < x.len, f x k = .ok (key x k)
  stops : ∀ x, ¬ ok x → ∃ k < x.len, f x k = .fault

section
variable {f : Harr → Nat → Access Val} {key : Harr → Nat → Val} {ok : Harr → Prop}
  {xs : List Harr}

/-- the elements of `x` with their keys -/
def entriesBy (key : Harr → Nat → Val) (x : Harr) : List (Val × Val) :=
  (List.range x.len).map fun k => (key x k, x.vals k)

theorem Visiting.all (h : Visiting f key ok) (hxs : ∀ x ∈ xs, ok x) :
    xs.flatMap (visitsBy f) = visits (xs.flatMap (entriesBy key)) := by
  rw [visits, List.map_flatMap]
  apply List.flatMap_congr
  intro x hx
  rw [visitsBy, entriesBy, List.map_map]
  apply List.map_congr_left
  intro k hk
  rw [h.reads x (hxs x hx) k (List.mem_range.mp hk)]
  rfl

theorem Visiting.stop (h : Visiting f key ok) (hxs : ¬ ∀ x ∈ xs, ok x) :
    ∃ p ∈ xs.flatMap (visitsBy f), p.1 = .fault := by
  obtain ⟨x, hx⟩ := Classical.not_forall.mp hxs
  obtain ⟨hx, hok⟩ := Classical.not_imp.mp hx
  obtain ⟨k, hk, hf⟩ := h.stops x hok
  refine ⟨(f x k, x.vals k), List.mem_flatMap.mpr ⟨x, hx, ?_⟩, hf⟩
  exact List.mem_map.mpr ⟨k, List.mem_range.mpr hk, rfl⟩

end

section
variable {fromDouble : Double → Bytes} {l : List Nat}

end

section
variable {pk : Bool} {sz : Int64} {l : List Nat} {cur : Harr}

end

/-! ## `hp_map_sort_by_key` -/

section
variable {strtod : Bytes → Double} {r : Harr} {n : Nat}

end

/-! ## `array_column` -/

/-- the search for a key in a row reads only keys that were written -/
def Readable (row : Option Harr) (k : Val) : Prop :=
  ∀ a, row = some a → Guarded.hpKeyIndex a k ≠ .fault

section
variable {col idx k : Val} {row : Option Harr} {rows : List (Option Harr)} {r : Harr}

end

end

end Std
end HolyPhp
