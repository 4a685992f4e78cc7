import Mathlib.Data.List.Basic
import Mathlib.Tactic.Common

/-!
# Traces

A trace is the list of the events so far, the newest last.  `Along ok tr`: every event of `tr` was
allowed by what came before it.
-/

namespace Traces
variable {ε : Type*} {ok : List ε → ε → Prop} {tr : List ε} {e : ε}

def Along (ok : List ε → ε → Prop) (tr : List ε) : Prop :=
  ∀ pre e post, tr = pre ++ e :: post → ok pre e

theorem along_nil : Along ok [] := by
  intro pre e post h
  exact absurd h.symm (List.append_ne_nil_of_right_ne_nil _ (List.cons_ne_nil e post))

/-- one more event -/
theorem Along.concat (h : Along ok tr) (he : ok tr e) : Along ok (tr ++ [e]) := by
  intro pre x post hx
  rcases List.eq_nil_or_concat post with rfl | ⟨post', y, rfl⟩
  · obtain ⟨rfl, hxe⟩ := List.append_inj' hx rfl
    cases hxe
    exact he
  · rw [List.concat_eq_append, ← List.cons_append, ← List.append_assoc] at hx
    exact h pre x post' (List.append_inj' hx rfl).1

/-- two events of a trace -/
theorem Along.pair (h : Along ok tr) {pre mid post : List ε} {x y : ε}
    (hx : tr = pre ++ x :: (mid ++ y :: post)) : ok (pre ++ x :: mid) y := by
  apply h (pre ++ x :: mid) y post
  rw [hx, List.append_assoc]
  rfl

/-- an event that is not allowed behind itself comes once -/
theorem Along.countP_le (h : Along ok tr) {p : ε → Bool}
    (hp : ∀ pre e, ok pre e → p e = true → ∀ x ∈ pre, p x = false) : tr.countP p ≤ 1 := by
  by_contra hlt
  obtain ⟨pre, x, rest, rfl, hx, hrest⟩ : ∃ pre x rest, tr = pre ++ x :: rest ∧ p x = true ∧
      ∃ y ∈ rest, p y = true := by
    clear h
    induction tr with
    | nil =>
      rw [List.countP_nil] at hlt
      omega
    | cons z tr ih =>
      by_cases hz : p z = true
      · rw [List.countP_cons_of_pos hz] at hlt
        exact ⟨[], z, tr, rfl, hz, List.countP_pos_iff.1 (by omega)⟩
      · rw [List.countP_cons_of_neg hz] at hlt
        obtain ⟨pre, x, rest, he, hxr⟩ := ih hlt
        exact ⟨z :: pre, x, rest, congrArg (z :: ·) he, hxr⟩
  obtain ⟨y, hy, hpy⟩ := hrest
  obtain ⟨mid, post, rfl⟩ := List.append_of_mem hy
  have hno := hp _ y (h.pair rfl) hpy x (List.mem_append_right pre List.mem_cons_self)
  rw [hx] at hno
  cases hno

end Traces
