import Mathlib.Data.Nat.ModEq
import Mathlib.Logic.Function.Basic
import Mathlib.Tactic.Common

/-!
# Ring buffers

`contents cap head len buf` is the list of the `len` cells of `buf` that follow `head` cyclically
in `cap` cells.  Writing behind the last live cell appends, leaving the first one drops it.
-/

namespace Ring
variable {α : Type*}

def contents (cap head len : Nat) (buf : Nat → α) : List α :=
  (List.range len).map fun k => buf ((head + k) % cap)

theorem contents_zero (cap head : Nat) (buf : Nat → α) : contents cap head 0 buf = [] := rfl

theorem length_contents (cap head len : Nat) (buf : Nat → α) :
    (contents cap head len buf).length = len := by
  simp [contents]

theorem add_mod_ne {cap head i j : Nat} (hi : i < cap) (hj : j < cap) (h : i ≠ j) :
    (head + i) % cap ≠ (head + j) % cap := by
  intro e
  have e' : i % cap = j % cap := Nat.ModEq.add_left_cancel' head e
  rw [Nat.mod_eq_of_lt hi, Nat.mod_eq_of_lt hj] at e'
  exact h e'

theorem contents_push {cap head len : Nat} (buf : Nat → α) (v : α) (h : len < cap) :
    contents cap head (len + 1) (Function.update buf ((head + len) % cap) v)
      = contents cap head len buf ++ [v] := by
  unfold contents
  rw [List.range_succ, List.map_append]
  congr 1
  · apply List.map_congr_left
    intro k hk
    have hk' : k < len := List.mem_range.mp hk
    exact Function.update_of_ne (add_mod_ne (by omega) h (by omega)) _ _
  · simp

theorem contents_pull {cap head len : Nat} (buf : Nat → α) (hh : head < cap) :
    contents cap head (len + 1) buf = buf head :: contents cap ((head + 1) % cap) len buf := by
  unfold contents
  rw [List.range_succ_eq_map, List.map_cons, List.map_map, Nat.add_zero, Nat.mod_eq_of_lt hh]
  congr 1
  apply List.map_congr_left
  intro k _
  show buf ((head + (k + 1)) % cap) = buf (((head + 1) % cap + k) % cap)
  rw [Nat.mod_add_mod]
  congr 2
  omega

/-- the tail of a ring that loses its first cell and the tail of a ring that gains one -/
theorem tail_pull {cap head len tail : Nat} (h : tail = (head + (len + 1)) % cap) :
    tail = ((head + 1) % cap + len) % cap := by
  rw [h, Nat.mod_add_mod]
  congr 1
  omega

theorem tail_push {cap head len tail : Nat} (h : tail = (head + len) % cap) :
    (tail + 1) % cap = (head + (len + 1)) % cap := by
  rw [h, Nat.mod_add_mod]
  rfl

end Ring
