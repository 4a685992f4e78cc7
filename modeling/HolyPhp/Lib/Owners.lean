import Mathlib.Logic.Function.Basic
import Mathlib.Tactic.Common

/-!
# Nodes with one owner

`H x q`: the node `q` is held by `x`, which is a root or a node.  Where every node is held once,
what is reached from two roots is apart (`Unique.reach`).

* `Unique.map`  holdings that move along a map of the owners, and new nodes.
-/

set_option autoImplicit false

namespace Owners
variable {ι κ α : Type*}

/-- nothing is held twice -/
def Unique (H : ι ⊕ α → α → Prop) : Prop := ∀ x y q, H x q → H y q → x = y

/-- what is reached from a root -/
inductive Reach (H : ι ⊕ α → α → Prop) (i : ι) : α → Prop
  | root {q : α} : H (.inl i) q → Reach H i q
  | node {p q : α} : Reach H i p → H (.inr p) q → Reach H i q

section
variable {H : ι ⊕ α → α → Prop} {H' : κ ⊕ α → α → Prop} {i j : ι} {q : α}

/-- **Two roots reach different nodes.** -/
theorem Unique.reach (h : Unique H) (hi : Reach H i q) (hj : Reach H j q) : i = j := by
  induction hi with
  | @root q hq =>
    cases hj with
    | root hq' => exact Sum.inl.inj (h _ _ q hq hq')
    | node _ hq' => cases h _ _ q hq hq'
  | @node p q _ hq ih =>
    cases hj with
    | root hq' => cases h _ _ q hq hq'
    | @node p' q hp' hq' =>
      have hp : p = p' := Sum.inr.inj (h _ _ q hq hq')
      exact ih (hp ▸ hp')

/-- what is held is held by the image of its old owner, or it is new and held once -/
theorem Unique.map (h : Unique H) (new : α → Prop) (g : ι ⊕ α → κ ⊕ α)
    (hold : ∀ x q, ¬ new q → H' x q → ∃ y, H y q ∧ g y = x)
    (hnew : ∀ x y q, new q → H' x q → H' y q → x = y) : Unique H' := by
  intro x y q hx hy
  by_cases hq : new q
  · exact hnew x y q hq hx hy
  · obtain ⟨x', hx', rfl⟩ := hold x q hq hx
    obtain ⟨y', hy', rfl⟩ := hold y q hq hy
    rw [h x' y' q hx' hy']

end

end Owners
