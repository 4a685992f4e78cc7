import Mathlib.Data.List.Infix
import Mathlib.Tactic.Common

/-!
# Codes that say where they end

A `Codec` writes an item as a nonempty list and reads it back from the front of a longer one; from
a part of an item it reads nothing.  So whatever has come of a stream of items, its front is either
a part of the next item or begins with all of it (`Codec.front`), and a reader that takes items
from a growing buffer takes the items of the stream, however the stream was cut.
-/

/-- `dec` gives what it sees of an item (`view`) and the length of its code -/
structure Codec (α β γ : Type*) where
  enc : α → List β
  dec : List β → Option (γ × Nat)
  view : α → γ
  enc_ne : ∀ a, enc a ≠ []
  dec_enc : ∀ a t, dec (enc a ++ t) = some (view a, (enc a).length)
  dec_part : ∀ a p, p <+: enc a → p ≠ enc a → dec p = none
  dec_nil : dec [] = none

namespace Codec
variable {α β γ : Type*} (C : Codec α β γ) {a : α} {as : List α} {b t : List β}

def encs (as : List α) : List β := as.flatMap C.enc

theorem encs_cons : C.encs (a :: as) = C.enc a ++ C.encs as := rfl

/-- **The front of a stream**: `b` has come, `t` will. -/
theorem front (h : b ++ t = C.encs (a :: as)) :
    C.dec b = none ∧ t ≠ [] ∨
      ∃ b', b = C.enc a ++ b' ∧ C.dec b = some (C.view a, (C.enc a).length) ∧
        b' ++ t = C.encs as := by
  rw [encs_cons] at h
  rcases List.append_eq_append_iff.1 h with ⟨u, hu, ht⟩ | ⟨b', hb, ht⟩
  · cases u with
    | nil =>
      rw [List.append_nil] at hu
      right
      refine ⟨[], ?_, ?_, ht⟩
      · rw [hu, List.append_nil]
      · have hd := C.dec_enc a []
        rw [List.append_nil] at hd
        rwa [← hu]
    | cons x u =>
      left
      refine ⟨C.dec_part a b ⟨x :: u, hu.symm⟩ ?_, ?_⟩
      · intro he
        rw [he] at hu
        exact absurd (List.self_eq_append_right.1 hu) (List.cons_ne_nil x u)
      · rw [ht]
        exact List.cons_ne_nil x _
  · right
    refine ⟨b', hb, ?_, ht.symm⟩
    rw [hb]
    exact C.dec_enc a b'

/-- the whole stream has come, and nothing can be read -/
theorem done (h : b = C.encs as) (hd : C.dec b = none) : as = [] := by
  cases as with
  | nil => rfl
  | cons a as =>
    rcases C.front (t := []) ((List.append_nil b).trans h) with ⟨-, ht⟩ | ⟨b', -, hs, -⟩
    · exact absurd rfl ht
    · rw [hd] at hs
      cases hs

end Codec
