import HolyPhp.Sema.Log
import Mathlib.Data.List.Induction
import Mathlib.Logic.Function.Basic

/-!
# Moves of `own<T>` values

Along a run the value of an `own<T>` variable moves when it is assigned, or given by `let`, to
another variable; a variable has a value again once it is set.  `MoveSafe` says that a run reads no
variable whose value has moved.

An accepted body does not make its runs safe (`accepted_not_moveSafe`).  `moveSafe_iff`: a run of
an accepted body is safe exactly when for every read of a moved variable that it comes to

* the assignment marked the symbol that the read resolves to: it was an assignment to an `own` or
  `Rc` variable that existed, or a `let` without `mut` that does not declare its source anew;
* the read is an `EX_VAR` node, not a capture of `use`, a `compact` or the target of an operator;
* no loop (or switch) holds both the move and the read.
-/

namespace HolyPhp
namespace Sema

open Flow

/-- where the value of a variable went: the place of the log, by the storage of the variable -/
abbrev Moved := Nat → Option Nat

/-- the variables are set -/
def Moved.set (m : Moved) (vs : List Ref) : Moved :=
  fun u => if vs.any fun v => v.uid = u then none else m u

/-- a use at the place `n` runs -/
def Use.moveOn (n : Nat) (m : Moved) : Use → Moved
  | .assign d (.var src true _) _ => Moved.set (Function.update m src.uid (some n)) [d]
  | .assign d _ _ => m.set [d]
  | .write vs => m.set vs
  | _ => m

/-- a run comes to the place -/
def moveStep (log : List Use) (m : Moved) (n : Nat) : Moved := log[n]?.elim m (Use.moveOn n m)

/-- the moves of a run that has come to the places of the list -/
def movedAt (log : List Use) (t : List Nat) : Moved := t.foldl (moveStep log) fun _ => none

/-- the variables that a use reads -/
def Use.reads : Use → List Ref
  | .read v => [v]
  | .peek vs => vs
  | _ => []

/-- at the place `q`, a run reads `v`, whose value moved at the place `p` -/
structure ReadMoved (log : List Use) (t : List Nat) (q p : Nat) (v : Ref) : Prop where
  read : ∃ u, log[q]? = some u ∧ v ∈ u.reads
  moved : movedAt log t v.uid = some p

/-- the run reads no variable whose value has moved -/
def MoveSafe (log : List Use) (t : List Nat) : Prop :=
  ∀ t₁ q t₂, t = t₁ ++ q :: t₂ → ∀ p v, ¬ ReadMoved log t₁ q p v

/-- the move at `p` marked the symbol of the `EX_VAR` at `q`, and no loop leads back -/
structure MoveSeen (log : List Use) (c : Code) (p q : Nat) (v : Ref) : Prop where
  marked : ∃ u, log[p]? = some u ∧ u.moves v.sym
  checked : log[q]? = some (.read v)
  forward : ¬ c.Again p q

/-- every move that a later read of the run sees was seen by the checker -/
def MovesSeen (log : List Use) (c : Code) (t : List Nat) : Prop :=
  ∀ t₁ q t₂, t = t₁ ++ q :: t₂ → ∀ p v, ReadMoved log t₁ q p v → MoveSeen log c p q v

theorem Moved.set_some {m : Moved} {vs : List Ref} {u p : Nat} (h : m.set vs u = some p) :
    m u = some p := by
  rw [Moved.set] at h
  split at h
  · cases h
  · exact h

theorem moveOn_some {u : Use} {n p w : Nat} {m : Moved} (h : u.moveOn n m w = some p) :
    p = n ∨ m w = some p := by
  cases u with
  | assign d val how =>
    cases val with
    | var src own inScope =>
      cases own with
      | true =>
        have h' := Moved.set_some h
        by_cases hw : w = src.uid
        · subst hw
          rw [Function.update_self] at h'
          exact .inl (Option.some.inj h').symm
        · rw [Function.update_of_ne hw] at h'
          exact .inr h'
      | false => exact .inr (Moved.set_some h)
    | ref => exact .inr (Moved.set_some h)
    | other => exact .inr (Moved.set_some h)
  | write vs => exact .inr (Moved.set_some h)
  | read | peek | borrow | release | nothing => exact .inr h

/-- a place of a move is a place of the run -/
theorem movedAt_mem {log : List Use} {t : List Nat} {u p : Nat} (h : movedAt log t u = some p) :
    p ∈ t := by
  induction t using List.reverseRecOn generalizing u with
  | nil => cases h
  | append_singleton t n ih =>
    simp only [movedAt, List.foldl_append, List.foldl_cons, List.foldl_nil] at h
    have hold : movedAt log t u = some p → p ∈ t ++ [n] :=
      fun hu => List.mem_append_left _ (ih hu)
    rw [moveStep] at h
    cases hn : log[n]? with
    | none =>
      rw [hn] at h
      exact hold h
    | some v =>
      rw [hn] at h
      rcases moveOn_some h with rfl | hm
      · exact List.mem_append_right _ (List.mem_singleton_self p)
      · exact hold hm

/-- **A run of an accepted body is safe exactly when every move that a later read sees was seen by
the checker.** -/
theorem moveSafe_iff (s : State) (parent : List Scope) (fn : Fn)
    (hok : (checkFnBody parent fn s).ok = true) {c : Code} (hc : c ∈ fn.bodies) {t : List Nat}
    {x : Exit} (hr : Run c t x) :
    MoveSafe (checkFnBody parent fn s).log t ↔ MovesSeen (checkFnBody parent fn s).log c t := by
  constructor
  · intro h t₁ q t₂ ht p v hm
    exact absurd hm (h t₁ q t₂ ht p v)
  · intro h t₁ q t₂ ht p v hm
    have hseen := h t₁ q t₂ ht p v hm
    subst ht
    have hpq : p < q := by
      rcases hr.lt_or_again (fn.bodies_ordered c hc) (movedAt_mem hm.moved) with hlt | hag
      · exact hlt
      · exact absurd hag hseen.forward
    obtain ⟨u, hu, hmoves⟩ := hseen.marked
    have hgood := (checkFnBody_good s parent fn hok).at hseen.checked
    exact hgood u (mem_take_of_getElem? hu hpq) hmoves

/-- `$a = new C(); let $b = $a; echo $b;` -/
def letFn : Fn where
  params := []
  ret := .void
  body :=
    [.expr (.assign [97] .eq none (some (.other none [] (.own (.cls [67])) true))),
     .let_ [98] false none (.var [97]),
     .echo [.var [98]]]

theorem moveSafe_iff_let : MoveSafe (checkFnBody [] letFn .start).log [0, 1, 2, 3] ↔
    MovesSeen (checkFnBody [] letFn .start).log (codeStmts letFn.body 0).1 [0, 1, 2, 3] :=
  moveSafe_iff .start [] letFn rfl (List.mem_cons_self ..)
    (.seq (.seq (.seq .skip (.altL _ .skip)) (.use 0))
      (.seq (.seq (.use 1) (.use 2)) (.seq (.seq (.use 3) .skip) .skip)))

/-- `$a = new C(); $b = $a; echo $a;` -/
def assignFn : Fn where
  params := []
  ret := .void
  body :=
    [.expr (.assign [97] .eq none (some (.other none [] (.own (.cls [67])) true))),
     .expr (.assign [98] .eq none (some (.var [97]))),
     .echo [.var [97]]]

/-- the assignment that declares `$b` moves the value of `$a` and marks nothing -/
theorem accepted_not_moveSafe : ¬ ∀ (s : State) (parent : List Scope) (fn : Fn),
    (checkFnBody parent fn s).ok = true → ∀ c ∈ fn.bodies, ∀ t x, Run c t x →
      MoveSafe (checkFnBody parent fn s).log t := by
  intro h
  have hrun : Run (codeStmts assignFn.body 0).1 [0, 1, 2, 3] .next :=
    .seq (.seq (.seq .skip (.altL _ .skip)) (.use 0))
      (.seq (.seq (.use 1) (.use 2)) (.seq (.seq (.use 3) .skip) .skip))
  have hsafe := h .start [] assignFn rfl _ (List.mem_cons_self ..) _ _ hrun
  exact hsafe [0, 1, 2] 3 [] rfl 2 ⟨0, 0⟩ ⟨⟨_, rfl, List.mem_singleton_self _⟩, rfl⟩

end Sema
end HolyPhp
