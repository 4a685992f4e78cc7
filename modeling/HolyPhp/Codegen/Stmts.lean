import HolyPhp.Lib.Exits

/-!
# The statements of a function body

What matters for the control flow of a body: its loops, switches and `try` statements, and the
statements that leave them.  The pieces between them (expression statements, `let`, `echo`,
`print` and `throw`, conditions, values) are known by numbers, and `Interp` says what they do;
each of them may throw.

* `run`      what a statement does: the state after it and how it is left (`Out`).  A `break`
             ends the innermost loop or switch, a `continue` the round of the innermost loop, a
             `return` the body; a `try` that is left in any way runs its final part before;
* `accepts`  what sema asks of `break` and `continue`;
* `Nest`     where in the body a statement stands.

Which clause of a `try` takes an exception is not said here: as in the C code, all of them run
in order, an exception that no clause is written for is handed on, and one whose value is null
is not.  `run true` watches the run: where a `break` or `continue` leaves a `try` that stands in
another one and ends a loop or a switch within that one, or a `continue` has no loop to go on
with, the run is `lost`.
-/

namespace HolyPhp
namespace Emit
open Exits

/-! ## the tree -/

mutual

inductive Stmt where
  /-- `ST_EXPR`, `ST_LET`, `ST_ECHO`, `ST_PRINT`, `ST_THROW` -/
  | act (a : Nat)
  | if_ (cond : Nat) (then_ els : List Stmt)
  | while_ (cond : Nat) (body : List Stmt)
  | do_ (body : List Stmt) (cond : Nat)
  | for_ (init : List Nat) (cond : Option Nat) (step : List Nat) (body : List Stmt)
  /-- `next` fetches an element and sets the loop variables -/
  | foreach_ (iter next : Nat) (body : List Stmt)
  | switch_ (isStr : Bool) (cond : Nat) (cases : List SwitchCase)
  | break_
  | continue_
  | return_ (value : Option Nat)
  /-- `ST_BLOCK`, `ST_UNSAFE_BLOCK` -/
  | block (stmts : List Stmt)
  | try_ (body : List Stmt) (catches : List CatchClause) (fin : List Stmt)

inductive SwitchCase where
  | mk (isDefault : Bool) (body : List Stmt)

inductive CatchClause where
  | mk (ty : Nat) (body : List Stmt)

end

/-! ## what the pieces do -/

/-- `sel` gives the case whose pattern is met; `bind` sets the variable of a clause;
`null` is `hp_null`, and `isNull` looks at the tag -/
structure Interp (σ V : Type) where
  act : Nat → σ → σ × Except V Unit
  cond : Nat → σ → σ × Except V Bool
  sel : Nat → σ → σ × Except V (Option Nat)
  val : Nat → σ → σ × Except V V
  bind : Nat → V → σ → σ
  null : V
  isNull : V → Bool
  isNull_null : isNull null = true

/-- how a statement is left -/
inductive Out (V : Type) where
  | next
  | brk
  | cont
  | ret (v : V)
  | thrown (v : V)
  /-- a loop was still running after all the rounds it was given -/
  | cut
  /-- only in a run that is watched -/
  | lost

/-- the statement after it is next -/
def Out.goes {V : Type} : Out V → Bool
  | .next => true
  | _ => false

/-- where a statement stands -/
structure Nest where
  /-- the bodies and clauses of `try` around it -/
  tries : Nat
  /-- the loops and switches around it that stand in the innermost of these -/
  depth : Nat
  /-- the loops among them -/
  loops : Nat
  allDepth : Nat
  allLoops : Nat
  /-- there is a switch on strings among those of `depth` -/
  once : Bool

namespace Nest

def top : Nest := ⟨0, 0, 0, 0, 0, false⟩

def loop (k : Nest) : Nest :=
  { k with
    depth := k.depth + 1, loops := k.loops + 1,
    allDepth := k.allDepth + 1, allLoops := k.allLoops + 1 }

def switch (k : Nest) (isStr : Bool) : Nest :=
  { k with depth := k.depth + 1, allDepth := k.allDepth + 1, once := k.once || isStr }

/-- in the body or in a clause of a `try` -/
def tried (k : Nest) : Nest :=
  { k with tries := k.tries + 1, depth := 0, loops := 0, once := false }

end Nest

section run
variable {σ V α : Type} (I : Interp σ V) (w : Bool) (n : Nat)

/-- goes on with the value, unless an exception was thrown -/
def check (r : σ × Except V α) (go : α → σ → σ × Out V) : σ × Out V :=
  match r with
  | (s, .ok a) => go a s
  | (s, .error v) => (s, .thrown v)

/-- what comes next, unless the exit leaves -/
def andThen (go : σ → σ × Out V) : σ × Out V → σ × Out V
  | (s, .next) => go s
  | r => r

/-- the actions of a `for` header -/
def acts : List Nat → σ → σ × Except V Unit
  | [], s => (s, .ok ())
  | a :: as, s =>
    match I.act a s with
    | (s, .ok _) => acts as s
    | r => r

/-- a test that is left out holds -/
def test : Option Nat → σ → σ × Except V Bool
  | none, s => (s, .ok true)
  | some c, s => I.cond c s

/-- actions at the end of a round, and then the next one -/
def steps (as : List Nat) (s : σ) : σ × Except V Bool :=
  match acts I as s with
  | (s, .ok _) => (s, .ok true)
  | (s, .error v) => (s, .error v)

/-- a round after its body -/
def endRound (post : σ → σ × Except V Bool) : σ × Out V → Round σ (Out V)
  | (s, .next) | (s, .cont) =>
    match post s with
    | (s, .ok true) => .again s
    | (s, .ok false) => .stop s .next
    | (s, .error v) => .stop s (.thrown v)
  | (s, .brk) => .stop s .next
  | (s, o) => .stop s o

def round (pre post : σ → σ × Except V Bool) (body : σ → σ × Out V) (s : σ) : Round σ (Out V) :=
  match pre s with
  | (s, .ok true) => endRound post (body s)
  | (s, .ok false) => .stop s .next
  | (s, .error v) => .stop s (.thrown v)

/-- the body of a loop between a test before it and one after it -/
def loop (pre post : σ → σ × Except V Bool) (body : σ → σ × Out V) : σ → σ × Out V :=
  rounds .cut (round pre post body) n

/-- the exit of a switch: a `break` ends here -/
def endSwitch : σ × Out V → σ × Out V
  | (s, .brk) => (s, .next)
  | r => r

/-- where a switch on integers is entered: at the case that is met, else at the default -/
def entry {β : Type} (cases : List (Bool × β)) : Option Nat → Nat
  | some i => i
  | none => cases.findIdx fun c => c.1

/-- the cases of a switch that run: on strings the one that is met, or all defaults; on integers
all from the entry on -/
def picked {β : Type} (isStr : Bool) (cases : List (Bool × β)) (o : Option Nat) : List β :=
  if isStr then
    match o with
    | some i => ((cases.drop i).take 1).map fun c => c.2
    | none => (cases.filter fun c => c.1).map fun c => c.2
  else (cases.drop (entry cases o)).map fun c => c.2

/-- what the clauses of a `try` make of the exit of its body -/
def handle (clauses : List (Nat × (σ → σ × Out V))) : σ × Out V → σ × Out V
  | (s, .thrown v) =>
    match clauses with
    | [] => (s, .thrown v)
    | _ :: _ => runAll Out.goes .next (clauses.map fun c => fun s => c.2 (I.bind c.1 v s)) s
  | r => r

/-- a jump out of a `try` is watched: within the `try` around it, is there what it ends? -/
def leave (k : Nest) (s : σ) : Out V → σ × Out V
  | .brk => (s, if w && (0 < k.tries && 0 < k.depth) then .lost else .brk)
  | .cont => (s, if w && (0 < k.tries && 0 < k.loops) then .lost else .cont)
  | .thrown v => (s, if I.isNull v then .next else .thrown v)
  | o => (s, o)

/-- the final part runs, and unless it leaves by itself the exit from before it counts -/
def finish (k : Nest) (fin : σ → σ × Out V) : σ × Out V → σ × Out V
  | (s, .cut) => (s, .cut)
  | (s, .lost) => (s, .lost)
  | (s, o) => andThen (fun s => leave I w k s o) (fin s)

mutual

def run (k : Nest) : Stmt → σ → σ × Out V
  | .act a => fun s => check (I.act a s) fun _ s => (s, .next)
  | .if_ c t e => fun s => check (I.cond c s) fun b s => if b then runs k t s else runs k e s
  | .while_ c body => loop n (I.cond c) (test I none) (runs k.loop body)
  | .do_ body c => loop n (test I none) (I.cond c) (runs k.loop body)
  | .for_ init c step body => fun s =>
    check (acts I init s) fun _ => loop n (test I c) (steps I step) (runs k.loop body)
  | .foreach_ iter next body => fun s =>
    check (I.act iter s) fun _ => loop n (I.cond next) (test I none) (runs k.loop body)
  | .switch_ isStr c cases => fun s =>
    check (I.sel c s) fun o s =>
      endSwitch (runAll Out.goes .next (picked isStr (runCases (k.switch isStr) cases) o) s)
  | .break_ => fun s => (s, .brk)
  | .continue_ => fun s => (s, if w && k.allLoops = 0 then .lost else .cont)
  | .return_ none => fun s => (s, .ret I.null)
  | .return_ (some a) => fun s => check (I.val a s) fun v s => (s, .ret v)
  | .block b => runs k b
  | .try_ body catches fin => fun s =>
    finish I w k (runs k fin) (handle I (runCatches k.tried catches) (runs k.tried body s))

def runs (k : Nest) : List Stmt → σ → σ × Out V
  | [] => fun s => (s, .next)
  | c :: rest => fun s => andThen (runs k rest) (run k c s)

def runCases (k : Nest) : List SwitchCase → List (Bool × (σ → σ × Out V))
  | [] => []
  | .mk d body :: rest => (d, runs k body) :: runCases k rest

def runCatches (k : Nest) : List CatchClause → List (Nat × (σ → σ × Out V))
  | [] => []
  | .mk ty body :: rest => (ty, runs k body) :: runCatches k rest

end

end run

/-- the same cases are picked from cases that correspond to each other -/
theorem picked_forall₂ {β γ : Type} {R : β → γ → Prop} {as : List (Bool × β)}
    {cs : List (Bool × γ)} (h : List.Forall₂ (fun a c => a.1 = c.1 ∧ R a.2 c.2) as cs)
    (isStr : Bool) (o : Option Nat) :
    List.Forall₂ R (picked isStr as o) (picked isStr cs o) := by
  have hmap : ∀ {as : List (Bool × β)} {cs : List (Bool × γ)},
      List.Forall₂ (fun a c => a.1 = c.1 ∧ R a.2 c.2) as cs →
      List.Forall₂ R (as.map fun c => c.2) (cs.map fun c => c.2) := by
    intro as cs h
    rw [List.forall₂_map_left_iff, List.forall₂_map_right_iff]
    exact h.imp fun _ _ hac => hac.2
  have hidx : as.findIdx (fun c => c.1) = cs.findIdx fun c => c.1 := by
    induction h with
    | nil => rfl
    | cons hac _ ih => rw [List.findIdx_cons, List.findIdx_cons, hac.1, ih]
  have hfilter : List.Forall₂ (fun a c => a.1 = c.1 ∧ R a.2 c.2) (as.filter fun c => c.1)
      (cs.filter fun c => c.1) := by
    clear hidx
    induction h with
    | nil => exact .nil
    | @cons a c _ _ hac _ ih =>
      cases hc : c.1 with
      | true =>
        rw [List.filter_cons_of_pos (hac.1.trans hc), List.filter_cons_of_pos hc]
        exact .cons hac ih
      | false =>
        rw [List.filter_cons_of_neg (by simp [hac.1, hc]), List.filter_cons_of_neg (by simp [hc])]
        exact ih
  cases isStr with
  | false =>
    cases o with
    | some i => exact hmap (List.forall₂_drop i h)
    | none =>
      rw [picked, picked, entry, entry, hidx]
      exact hmap (List.forall₂_drop _ h)
  | true =>
    cases o with
    | some i => exact hmap (List.forall₂_take 1 (List.forall₂_drop i h))
    | none => exact hmap hfilter

/-! ## what sema asks -/

mutual

/-- `break` and `continue` stand in a loop or a switch: `sc->loop_depth` is not 0 -/
def accepts (depth : Nat) : Stmt → Bool
  | .act _ => true
  | .if_ _ t e => acceptsAll depth t && acceptsAll depth e
  | .while_ _ body => acceptsAll (depth + 1) body
  | .do_ body _ => acceptsAll (depth + 1) body
  | .for_ _ _ _ body => acceptsAll (depth + 1) body
  | .foreach_ _ _ body => acceptsAll (depth + 1) body
  | .switch_ _ _ cases => acceptsCases (depth + 1) cases
  | .break_ => 0 < depth
  | .continue_ => 0 < depth
  | .return_ _ => true
  | .block b => acceptsAll depth b
  | .try_ body catches fin =>
    acceptsAll depth body && (acceptsCatches depth catches && acceptsAll depth fin)

def acceptsAll (depth : Nat) : List Stmt → Bool
  | [] => true
  | c :: rest => accepts depth c && acceptsAll depth rest

def acceptsCases (depth : Nat) : List SwitchCase → Bool
  | [] => true
  | .mk _ body :: rest => acceptsAll depth body && acceptsCases depth rest

def acceptsCatches (depth : Nat) : List CatchClause → Bool
  | [] => true
  | .mk _ body :: rest => acceptsAll depth body && acceptsCatches depth rest

end

end Emit
end HolyPhp
