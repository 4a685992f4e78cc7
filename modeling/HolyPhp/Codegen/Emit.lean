import HolyPhp.Codegen.Stmts

/-!
# What `emit_stmt` makes of the statements

The C that is emitted for a body (`CStmt`), what it does (`crun`), what a C compiler asks of it
(`legal`), and `emit_stmt` itself (`emit`), with the fields of `Codegen` that it goes by.

The body and the clauses of a `try` become C functions of their own, that run under
`hp_try_run`; a `return`, `break` or `continue` in them is a number in `_env->act`, which the
code after the call looks at.  A C function starts with `T_env` fresh: `act` 0 and `ret` null.
-/

namespace HolyPhp
namespace Emit
open Exits

/-! ## C -/

/-- what follows the call of `hp_try_run` and the final part -/
inductive Dispatch where
  /-- `if (e.act != 0) { _env->ret = e.ret; _env->act = e.act; return hp_null; }` -/
  | forward
  /-- `if (e.act == 1) return e.ret;`, and in a loop or switch `if (e.act == 2) break;` and
  `if (e.act == 3) goto hp_cont_l;`, or `continue;` where there is no label -/
  | here (loop : Option (Option Nat))

mutual

inductive CStmt where
  | act (a : Nat)
  | if_ (cond : Nat) (then_ els : List CStmt)
  /-- `while (c)`, or `for (; c ;)` where `c` may be left out -/
  | while_ (cond : Option Nat) (body : List CStmt)
  | doWhile (body : List CStmt) (cond : Nat)
  | switch_ (cond : Nat) (cases : List CCase)
  /-- `do { if (hp_str_eq(v, p)) { .. break; } .. default .. } while (0);` -/
  | once (cond : Nat) (cases : List CCase)
  | block (stmts : List CStmt)
  | break_
  | continue_
  | goto_ (l : Nat)
  | label (l : Nat)
  | return_ (value : Option Nat)
  /-- `_env->ret = hv(value); _env->act = act; return hp_null;` -/
  | leave (act : Nat) (value : Option Nat)
  /-- the helpers, the call of `hp_try_run`, the final part, `hp_throw` and the dispatch;
  `inside`: the helpers are written into the text of the function that is being written -/
  | try_ (inside : Bool) (body : List CStmt) (catches : List CClause) (fin : List CStmt)
      (disp : Dispatch)

inductive CCase where
  | mk (isDefault : Bool) (body : List CStmt)

inductive CClause where
  | mk (ty : Nat) (body : List CStmt)

end

/-- `T_env`, as far as it is not for the locals -/
structure Env (V : Type) where
  act : Nat
  ret : V

/-- how a C statement is left -/
inductive COut (V : Type) where
  | next
  | brk
  | cont
  | goto_ (l : Nat)
  | ret (v : V)
  | thrown (v : V)
  | cut
  /-- a C function cannot be left like this -/
  | stuck

def COut.goes {V : Type} : COut V → Bool
  | .next => true
  | _ => false

/-- how a helper is left -/
inductive Called (V : Type) where
  | returned (v : V)
  | threw (v : V)
  | cut
  | stuck

section crun
variable {σ V α : Type} (I : Interp σ V) (n : Nat)

/-- the state of a C function: the variables and its `_env` -/
abbrev CState (σ V : Type) : Type := σ × Env V

def ccheck (r : σ × Except V α) (e : Env V) (go : α → CState σ V → CState σ V × COut V) :
    CState σ V × COut V :=
  match r with
  | (s, .ok a) => go a (s, e)
  | (s, .error v) => ((s, e), .thrown v)

def candThen (go : CState σ V → CState σ V × COut V) :
    CState σ V × COut V → CState σ V × COut V
  | (st, .next) => go st
  | r => r

def cendRound (post : σ → σ × Except V Bool) :
    CState σ V × COut V → Round (CState σ V) (COut V)
  | ((s, e), .next) | ((s, e), .cont) =>
    match post s with
    | (s, .ok true) => .again (s, e)
    | (s, .ok false) => .stop (s, e) .next
    | (s, .error v) => .stop (s, e) (.thrown v)
  | (st, .brk) => .stop st .next
  | (st, o) => .stop st o

def cround (pre post : σ → σ × Except V Bool) (body : CState σ V → CState σ V × COut V) :
    CState σ V → Round (CState σ V) (COut V)
  | (s, e) =>
    match pre s with
    | (s, .ok true) => cendRound post (body (s, e))
    | (s, .ok false) => .stop (s, e) .next
    | (s, .error v) => .stop (s, e) (.thrown v)

def cloop (pre post : σ → σ × Except V Bool) (body : CState σ V → CState σ V × COut V) :
    CState σ V → CState σ V × COut V :=
  rounds .cut (cround pre post body) n

def cendSwitch : CState σ V × COut V → CState σ V × COut V
  | (st, .brk) => (st, .next)
  | r => r

/-- in `do .. while (0)` a `continue` leads to the test, and so out -/
def cendOnce : CState σ V × COut V → CState σ V × COut V
  | (st, .brk) => (st, .next)
  | (st, .cont) => (st, .next)
  | r => r

/-- a helper ends with `return hp_null` -/
def called : CState σ V × COut V → CState σ V × Called V
  | (st, .next) => (st, .returned I.null)
  | (st, .ret v) => (st, .returned v)
  | (st, .thrown v) => (st, .threw v)
  | (st, .cut) => (st, .cut)
  | (st, _) => (st, .stuck)

/-- the catch helper: the clauses one after the other, or `return _ex` where there is none -/
def catchHelper (clauses : List (Nat × (CState σ V → CState σ V × COut V))) (ex : V)
    (st : CState σ V) : CState σ V × COut V :=
  match clauses with
  | [] => (st, .ret ex)
  | _ :: _ =>
    runAll COut.goes .next (clauses.map fun c => fun st => c.2 (I.bind c.1 ex st.1, st.2)) st

/-- `hp_try_run`: what the handler throws is handed back like what it returns -/
def tryRun (body : CState σ V → CState σ V × COut V)
    (handler : V → CState σ V → CState σ V × COut V) (st : CState σ V) : CState σ V × Called V :=
  match called I (body st) with
  | (st, .threw ex) =>
    match called I (handler ex st) with
    | (st, .threw v) => (st, .returned v)
    | r => r
  | r => r

def dispatch (e : Env V) (st : CState σ V) : Dispatch → CState σ V × COut V
  | .forward => if e.act = 0 then (st, .next) else ((st.1, ⟨e.act, e.ret⟩), .ret I.null)
  | .here loop =>
    if e.act = 1 then (st, .ret e.ret)
    else match loop with
      | none => (st, .next)
      | some l =>
        if e.act = 2 then (st, .brk)
        else if e.act = 3 then (st, match l with | some l => .goto_ l | none => .cont)
        else (st, .next)

/-- `if (_tr.tag != HV_NULL) hp_throw(_tr);`, and then the dispatch -/
def afterFin (tr : V) (et : Env V) (disp : Dispatch) (st : CState σ V) : CState σ V × COut V :=
  if I.isNull tr then dispatch I et st disp else (st, .thrown tr)

/-- the code around `hp_try_run`; `e` is the `_env` of the function it stands in -/
def ctry (fin : CState σ V → CState σ V × COut V) (disp : Dispatch) (e : Env V) :
    CState σ V × Called V → CState σ V × COut V
  | ((s, et), .returned tr) => candThen (afterFin I tr et disp) (fin (s, e))
  | ((s, _), .cut) => ((s, e), .cut)
  | ((s, _), _) => ((s, e), .stuck)

def fresh : Env V := ⟨0, I.null⟩

mutual

def crun : CStmt → CState σ V → CState σ V × COut V
  | .act a => fun st => ccheck (I.act a st.1) st.2 fun _ st => (st, .next)
  | .if_ c t e => fun st =>
    ccheck (I.cond c st.1) st.2 fun b st => if b then cruns t st else cruns e st
  | .while_ c body => cloop n (test I c) (test I none) (cruns body)
  | .doWhile body c => cloop n (test I none) (I.cond c) (cruns body)
  | .switch_ c cases => fun st =>
    ccheck (I.sel c st.1) st.2 fun o st =>
      cendSwitch (runAll COut.goes .next (picked false (crunCases cases) o) st)
  | .once c cases => fun st =>
    ccheck (I.sel c st.1) st.2 fun o st =>
      cendOnce (runAll COut.goes .next (picked true (crunCases cases) o) st)
  | .block b => cruns b
  | .break_ => fun st => (st, .brk)
  | .continue_ => fun st => (st, .cont)
  | .goto_ l => fun st => (st, .goto_ l)
  | .label _ => fun st => (st, .next)
  | .return_ none => fun st => (st, .ret I.null)
  | .return_ (some a) => fun st => ccheck (I.val a st.1) st.2 fun v st => (st, .ret v)
  | .leave k none => fun st => ((st.1, { st.2 with act := k }), .ret I.null)
  | .leave k (some a) => fun st =>
    ccheck (I.val a st.1) st.2 fun v st => ((st.1, ⟨k, v⟩), .ret I.null)
  | .try_ _ body catches fin disp => fun st =>
    ctry I (cruns fin) disp st.2
      (tryRun I (cruns body) (catchHelper I (crunClauses catches)) (st.1, fresh I))

/-- a `goto` goes on behind its label, if that is further on in the list -/
def cruns : List CStmt → CState σ V → CState σ V × COut V
  | [] => fun st => (st, .next)
  | c :: rest => fun st =>
    match crun c st with
    | (st, .next) => cruns rest st
    | (st, .goto_ l) => behind l rest st
    | r => r

def behind (l : Nat) : List CStmt → CState σ V → CState σ V × COut V
  | [] => fun st => (st, .goto_ l)
  | .label l' :: rest => if l' = l then cruns rest else behind l rest
  | _ :: rest => behind l rest

def crunCases : List CCase → List (Bool × (CState σ V → CState σ V × COut V))
  | [] => []
  | .mk d body :: rest => (d, cruns body) :: crunCases rest

def crunClauses : List CClause → List (Nat × (CState σ V → CState σ V × COut V))
  | [] => []
  | .mk ty body :: rest => (ty, cruns body) :: crunClauses rest

end

end crun

/-! ## what a C compiler asks -/

mutual

/-- the labels of the function the statement is in -/
def labels : CStmt → List Nat
  | .if_ _ t e => labelsAll t ++ labelsAll e
  | .while_ _ body => labelsAll body
  | .doWhile body _ => labelsAll body
  | .switch_ _ cases => labelsCases cases
  | .once _ cases => labelsCases cases
  | .block b => labelsAll b
  | .label l => [l]
  | .try_ _ _ _ fin _ => labelsAll fin
  | _ => []

def labelsAll : List CStmt → List Nat
  | [] => []
  | c :: rest => labels c ++ labelsAll rest

def labelsCases : List CCase → List Nat
  | [] => []
  | .mk _ body :: rest => labelsAll body ++ labelsCases rest

end

def labelsClauses : List CClause → List Nat
  | [] => []
  | .mk _ body :: rest => labelsAll body ++ labelsClauses rest

/-- where a C statement stands -/
structure CScope where
  /-- the labels of the function -/
  labels : List Nat
  /-- in a loop -/
  loop : Bool
  /-- in a loop or a switch -/
  breakable : Bool

namespace CScope

def function (labels : List Nat) : CScope := ⟨labels, false, false⟩
def inLoop (c : CScope) : CScope := { c with loop := true, breakable := true }
def inSwitch (c : CScope) : CScope := { c with breakable := true }

end CScope

def Dispatch.legal (c : CScope) : Dispatch → Bool
  | .forward => true
  | .here none => true
  | .here (some none) => c.breakable && c.loop
  | .here (some (some l)) => c.breakable && c.labels.contains l

mutual

/-- `break` and `continue` stand where C allows them, a `goto` has its label in the same function,
the labels of a function are distinct, and no function is defined in another one -/
def legal (c : CScope) : CStmt → Bool
  | .if_ _ t e => legalAll c t && legalAll c e
  | .while_ _ body => legalAll c.inLoop body
  | .doWhile body _ => legalAll c.inLoop body
  | .switch_ _ cases => legalCases c.inSwitch cases
  | .once _ cases => legalCases c.inLoop cases
  | .block b => legalAll c b
  | .break_ => c.breakable
  | .continue_ => c.loop
  | .goto_ l => c.labels.contains l
  | .try_ inside body catches fin disp =>
    !inside && (decide (labelsAll body).Nodup && (legalAll (.function (labelsAll body)) body &&
      (decide (labelsClauses catches).Nodup &&
        (legalClauses (.function (labelsClauses catches)) catches &&
          (legalAll c fin && disp.legal c)))))
  | _ => true

def legalAll (c : CScope) : List CStmt → Bool
  | [] => true
  | s :: rest => legal c s && legalAll c rest

def legalCases (c : CScope) : List CCase → Bool
  | [] => true
  | .mk _ body :: rest => legalAll c body && legalCases c rest

def legalClauses (c : CScope) : List CClause → Bool
  | [] => true
  | .mk _ body :: rest => legalAll c body && legalClauses c rest

end

/-- a C function with this body -/
def legalFn (body : List CStmt) : Bool :=
  decide (labelsAll body).Nodup && legalAll (.function (labelsAll body)) body

/-! ## emission -/

/-- the fields of `Codegen` that the statements are emitted by; `out` is the buffer of helpers
that is being written to, if it is one -/
structure Codegen where
  inTryHelper : Bool
  helperDepth : Nat
  loopDepth : Nat
  loopLabels : List Nat
  out : Option Nat

namespace Codegen

def init : Codegen := ⟨false, 0, 0, [], none⟩

/-- in a loop that continues at `hp_cont_l` -/
def inLoop (g : Codegen) (l : Nat) : Codegen :=
  { g with loopDepth := g.loopDepth + 1, loopLabels := l :: g.loopLabels }

def inSwitch (g : Codegen) : Codegen := { g with loopDepth := g.loopDepth + 1 }

/-- the level of the helpers of a `try`: there are 8 buffers, and the last one is used for all
that are deeper -/
def hlevel (g : Codegen) : Nat := min g.helperDepth 7

/-- in a helper; afterwards the fields are put back (`helper_depth` as `hlevel`, which leads to
the same levels) -/
def inHelper (g : Codegen) : Codegen :=
  { g with
    inTryHelper := true, helperDepth := g.hlevel + 1, loopDepth := 0, out := some g.hlevel }

/-- `ST_RETURN` -/
def return_ (g : Codegen) (value : Option Nat) : CStmt :=
  if g.inTryHelper then .leave 1 value else .return_ value

/-- `ST_BREAK` -/
def break_ (g : Codegen) : CStmt :=
  if g.inTryHelper && g.loopDepth = 0 then .leave 2 none else .break_

/-- `ST_CONTINUE` -/
def continue_ (g : Codegen) : CStmt :=
  if g.inTryHelper && g.loopDepth = 0 then .leave 3 none
  else match g.loopLabels with
    | l :: _ => .goto_ l
    | [] => .continue_

/-- the end of `ST_TRY` -/
def disp (g : Codegen) : Dispatch :=
  if g.inTryHelper then .forward
  else .here (if 0 < g.loopDepth then some g.loopLabels.head? else none)

end Codegen

mutual

/-- `emit_stmt`; the number is `label_id` (the loops in a switch on strings are numbered in the
order of the source) -/
def emit (g : Codegen) : Stmt → Nat → CStmt × Nat
  | .act a, id => (.act a, id)
  | .if_ c t e, id =>
    let (t, id) := emitBlock g t id
    let (e, id) := emitBlock g e id
    (.if_ c t e, id)
  | .while_ c body, id =>
    let (body, id') := emitBlock (g.inLoop id) body (id + 1)
    (.while_ (some c) (body ++ [.label id]), id')
  | .do_ body c, id =>
    let (body, id') := emitBlock (g.inLoop id) body (id + 1)
    (.doWhile (body ++ [.label id]) c, id')
  | .for_ init c step body, id =>
    let (body, id') := emitBlock (g.inLoop id) body (id + 1)
    (.block (init.map .act ++ [.while_ c (body ++ .label id :: step.map .act)]), id')
  | .foreach_ iter next body, id =>
    let (body, id') := emitBlock (g.inLoop id) body (id + 1)
    (.block [.act iter, .while_ (some next) (body ++ [.label id])], id')
  | .switch_ isStr c cases, id =>
    let (cases, id) := emitCases g.inSwitch cases id
    (if isStr then .once c cases else .switch_ c cases, id)
  | .break_, id => (g.break_, id)
  | .continue_, id => (g.continue_, id)
  | .return_ value, id => (g.return_ value, id)
  | .block b, id =>
    let (b, id) := emitBlock g b id
    (.block b, id)
  | .try_ body catches fin, id =>
    let (body, id) := emitBlock g.inHelper body id
    let (catches, id) := emitCatches g.inHelper catches id
    let (fin, id) := emitBlock g fin id
    (.try_ (g.out = some g.hlevel) body catches fin g.disp, id)

/-- `emit_block` -/
def emitBlock (g : Codegen) : List Stmt → Nat → List CStmt × Nat
  | [], id => ([], id)
  | s :: rest, id =>
    let (c, id) := emit g s id
    let (cs, id) := emitBlock g rest id
    (c :: cs, id)

def emitCases (g : Codegen) : List SwitchCase → Nat → List CCase × Nat
  | [], id => ([], id)
  | .mk d body :: rest, id =>
    let (body, id) := emitBlock g body id
    let (cs, id) := emitCases g rest id
    (.mk d body :: cs, id)

def emitCatches (g : Codegen) : List CatchClause → Nat → List CClause × Nat
  | [], id => ([], id)
  | .mk ty body :: rest, id =>
    let (body, id) := emitBlock g body id
    let (cs, id) := emitCatches g rest id
    (.mk ty body :: cs, id)

end

/-- the body of the C function that is emitted for a function body -/
def emitFn (body : List Stmt) (id : Nat) : List CStmt := (emitBlock .init body id).1

end Emit
end HolyPhp
