import HolyPhp.Sema.Ast

/-!
# `check_expr`, `check_stmt`, `check_block`, `check_fn_body`

A `VarSym` is known by its place in `syms`; a scope holds such places, the newest first, and the
scopes are listed from the innermost one.  An error is `ok := false`.  What the checks read of a
`Scope` besides its variables (`loop_depth`, the result type of `cur_fn`) are fields of the state.
A call through a null pointer (a declaration refused by a full scope) follows an error and is not
modelled.

`log` is no part of the source: it lists, in the order of the checks, the uses that the checked
nodes make of symbols when they run, and the ends of blocks (`loans_release_all`).
-/

namespace HolyPhp
namespace Sema

/-! ## the state -/

structure VarSym where
  name : Bytes
  ty : Ty
  isMut : Bool
  uid : Nat
  declSeq : Nat
  movedFrom : Bool
  isGlobalAlias : Bool
  isProgramGlobal : Bool

instance : Inhabited VarSym := ⟨⟨[], .mixed, false, 0, 0, false, false, false⟩⟩

structure Scope where
  vars : List Nat
  seq : Nat

/-- `Loan`, with the fields that are read -/
structure Loan where
  var : Nat
  isMut : Bool
  deriving DecidableEq, Repr

/-- a closure whose body is being checked: `g_clo_body_seq` and `g_clo_caps` -/
structure Clo where
  bodySeq : Nat
  caps : List Nat

/-- a symbol, and the storage it stands for: a `global` alias shares its `uid` -/
structure Ref where
  sym : Nat
  uid : Nat
  deriving DecidableEq, Repr

/-- what a variable is set to -/
inductive Val where
  /-- the reference of the borrow that ran just before -/
  | ref
  /-- the value of a variable; `own`: of type `own<T>`; `inScope`: `scope_find` finds it -/
  | var (src : Ref) (own inScope : Bool)
  | other
  deriving DecidableEq, Repr

/-- how a variable is set -/
inductive How where
  /-- by an assignment that declares it -/
  | fresh
  /-- by an assignment; `smart`: the variable is of type `own<T>` or `Rc<T>` -/
  | set (smart : Bool)
  /-- by a `let`; `same`: its source has the same name -/
  | let_ (isMut same : Bool)
  deriving DecidableEq, Repr

inductive Use where
  /-- an `EX_VAR` node -/
  | read (v : Ref)
  /-- variables are read, and no `EX_VAR` node is checked for it -/
  | peek (vs : List Ref)
  /-- `live`: the storage of the variables of the open scopes -/
  | borrow (v : Ref) (isMut : Bool) (live : List Nat)
  | assign (dst : Ref) (val : Val) (how : How)
  | write (vs : List Ref)
  /-- the end of a block -/
  | release
  | nothing
  deriving DecidableEq, Repr

structure State where
  ok : Bool
  syms : List VarSym
  uids : Nat
  scopes : List Scope
  scopeSeq : Nat
  globals : List Nat
  clos : List Clo
  loans : List Loan
  loopDepth : Nat
  ret : Ty
  log : List Use

namespace State

def err (s : State) : State := { s with ok := false }

/-- `if (b) sema_error(..)` -/
def errIf (s : State) (b : Bool) : State := { s with ok := s.ok && !b }

def note (s : State) (u : Use) : State := { s with log := s.log ++ [u] }

def sym (s : State) (p : Nat) : VarSym := s.syms.getD p default

def refOf (s : State) (p : Nat) : Ref := ⟨p, (s.sym p).uid⟩

def setSym (s : State) (p : Nat) (f : VarSym → VarSym) : State :=
  { s with syms := s.syms.modify p f }

/-- `moved_from = true` -/
def move (s : State) (p : Nat) : State := s.setSym p fun v => { v with movedFrom := true }

/-- `scope_init` -/
def push (s : State) : State :=
  { s with scopes := ⟨[], s.scopeSeq⟩ :: s.scopes, scopeSeq := s.scopeSeq + 1 }

/-- a scope ends with its statement -/
def pop (s : State) : State := { s with scopes := s.scopes.tail }

/-- the variables of the open scopes, in the order of `scope_find` -/
def visible (s : State) : List Nat := s.scopes.flatMap Scope.vars

/-- `v->name == name` -/
def named (s : State) (name : Bytes) (p : Nat) : Bool := s.syms[p]?.any fun v => v.name = name

/-- `scope_find` -/
def find (s : State) (name : Bytes) : Option Nat := s.visible.find? (s.named name)

/-- `program_global_find` -/
def globalFind (s : State) (name : Bytes) : Option Nat := s.globals.find? (s.named name)

/-- the symbol of an `EX_VAR` -/
def lookup (s : State) (name : Bytes) : Option Nat :=
  match s.find name with
  | some p => some p
  | none => s.globalFind name

def maxScope : Nat := 64

/-- `sc->vars[sc->nvars++] = v`, where there is room -/
def expose (s : State) (p : Nat) : State :=
  match s.scopes with
  | [] => s
  | sc :: rest =>
    if sc.vars.length < maxScope then { s with scopes := { sc with vars := p :: sc.vars } :: rest }
    else s

/-- `scope_declare` -/
def declare (s : State) (name : Bytes) (ty : Ty) (isMut : Bool) : Option Nat × State :=
  match s.scopes with
  | [] => (none, s.err)
  | sc :: rest =>
    if sc.vars.length < maxScope then
      (some s.syms.length,
        { s with
          syms := s.syms ++ [⟨name, ty, isMut, s.uids, sc.seq, false, false, false⟩]
          uids := s.uids + 1
          scopes := { sc with vars := s.syms.length :: sc.vars } :: rest })
    else (none, s.err)

/-! ### captures -/

def maxClosures : Nat := 32

/-- `note_capture` for one closure -/
def noteCapture (p : Nat) (c : Clo) : Clo :=
  if p ∈ c.caps then c else { c with caps := c.caps ++ [p] }

/-- the closures whose body is in a newer scope than the variable, from the innermost one -/
def captureBy (p seq : Nat) : List Clo → List Clo
  | [] => []
  | c :: cs => if seq < c.bodySeq then noteCapture p c :: captureBy p seq cs else c :: cs

/-- the capture analysis of `EX_VAR` -/
def capture (s : State) (p : Nat) : State :=
  if (s.sym p).isProgramGlobal then s
  else { s with clos := captureBy p (s.sym p).declSeq s.clos }

/-- the capture analysis of a borrow: the innermost closure only -/
def captureTop (s : State) (p : Nat) : State :=
  match s.clos with
  | [] => s
  | c :: cs =>
    if (s.sym p).declSeq < c.bodySeq then { s with clos := noteCapture p c :: cs } else s

/-! ### loans -/

def maxLoans : Nat := 64

/-- `loans_push` -/
def pushLoan (ls : List Loan) (l : Loan) : List Loan :=
  if ls.length < maxLoans then ls ++ [l] else ls

/-- bit 1 of `loans_of`, with the loans as a parameter -/
def sharedLoan (ls : List Loan) (p : Nat) : Bool := ls.contains ⟨p, false⟩

/-- bit 2 of `loans_of` -/
def mutLoan (ls : List Loan) (p : Nat) : Bool := ls.contains ⟨p, true⟩

/-- `loans_release_all` -/
def release (s : State) : State := { s with loans := [] }.note .release

end State

open State

/-! ## expressions -/

/-- `EX_VAR` -/
def checkVar (name : Bytes) (s : State) : Ty × State :=
  match s.lookup name with
  | none => (.mixed, s.err.note .nothing)
  | some p => ((s.sym p).ty,
      ((s.capture p).errIf (s.sym p).movedFrom).note (.read (s.refOf p)))

/-- the loan that a borrow gives -/
def borrowOk (ls : List Loan) (v : VarSym) (p : Nat) (isMut : Bool) : Bool :=
  if isMut then v.isMut && !sharedLoan ls p && !mutLoan ls p else !mutLoan ls p

/-- `EX_BORROW` and `EX_MUTBORROW` -/
def checkBorrow (isMut : Bool) (operand : Expr) (s : State) : Ty × State :=
  match operand with
  | .var name =>
    match s.find name with
    | none => (.mixed, s.err.note .nothing)
    | some p =>
      let v := s.sym p
      let s' := ((s.captureTop p).errIf (!borrowOk s.loans v p isMut)).note
        (.borrow (s.refOf p) isMut (s.visible.map fun q => (s.sym q).uid))
      (if isMut then .mutref v.ty else .ref v.ty,
        { s' with loans := pushLoan s.loans ⟨p, isMut⟩ })
  | _ => (.mixed, s.err.note .nothing)

/-- what the value of an expression is, after its check -/
def valOf (e : Option Expr) (s : State) : Val :=
  match e with
  | some (.var name) =>
    match s.lookup name with
    | some p => .var (s.refOf p) (s.sym p).ty.isOwn (s.find name).isSome
    | none => .other
  | some (.borrow _ _) => .ref
  | _ => .other

/-- `scope_find` of the value, if it is a variable -/
def sourceOf (e : Option Expr) (s : State) : Option Nat :=
  match e with
  | some (.var name) => s.find name
  | _ => none

/-- the operand types of a compound assignment; `tt` is `none` where the source has NULL -/
def compoundOk (op : AssignOp) (tt : Option Ty) (vt : Ty) : Bool :=
  let num := tt.any Ty.isNumeric && vt.isNumeric
  let dyn := tt.any Ty.isMixed || vt.isMixed
  match op with
  | .eq => true
  | .qq => true
  | .dot => vt.isString && tt.all fun t => t.isString || t.isMixed
  | .shift => num || dyn || ((vt.isString || vt.isNumeric) &&
      tt.all fun t => t.isMixed || t.isString || t.isNumeric)
  | .arith => num || dyn

/-- what `EX_ASSIGN` checks once the type of the target is known, and its type -/
def finishAssign (op : AssignOp) (tt : Option Ty) (vt : Ty) (s : State) : Ty × State :=
  let s := s.errIf (!compoundOk op tt vt)
  let s := s.errIf (tt.any fun t =>
    !typesCompatible t vt && !t.isMixed && !vt.isMixed)
  (tt.getD .mixed, s)

/-- by any operator but `=` the target is read before it is set -/
def notePeek (op : AssignOp) (dst : Option Nat) (s : State) : State :=
  if op = .eq then s else s.note (.peek (dst.toList.map s.refOf))

/-- the target is set -/
def noteSet (dst : Option Nat) (val : Val) (how : How) (s : State) : State :=
  match dst with
  | some p => s.note (.assign (s.refOf p) val how)
  | none => s.note .nothing

/-- the uses of an assignment to a variable -/
def noteAssign (op : AssignOp) (dst : Option Nat) (val : Val) (how : How) (s : State) : State :=
  noteSet dst (if op = .eq ∨ op = .qq then val else .other) how (notePeek op dst s)

/-- `EX_ASSIGN` to a variable, after the check of the value -/
def assignVar (name : Bytes) (op : AssignOp) (ann : Option Ty) (value : Option Expr) (vt : Ty)
    (s : State) : Ty × State :=
  let val := valOf value s
  match s.find name with
  | none =>
    let s := s.errIf (ann.any fun a => value.isSome && !typesCompatible a vt && !a.isMixed)
    let d := s.declare name (ann.getD vt) true
    finishAssign op none vt (noteAssign op d.1 val .fresh d.2)
  | some p =>
    let v := s.sym p
    let s := s.errIf (!v.isMut)
    let flag := if v.ty.isSmart then
        (sourceOf value s).filter fun q => (s.sym q).ty.isSmart
      else none
    let s := flag.elim s s.move
    finishAssign op (some v.ty) vt (noteAssign op (some p) val (.set v.ty.isSmart) s)

/-- the slots of a destructuring assignment -/
def checkSlots : List Slot → State → List Nat × State
  | [], s => ([], s)
  | .skip :: sl, s => checkSlots sl s
  | .other :: sl, s => checkSlots sl s.err
  | .var name :: sl, s =>
    let d := match s.find name with
      | some p => (some p, s)
      | none => s.declare name .mixed true
    let r := checkSlots sl d.2
    (d.1.toList ++ r.1, r.2)

def destructureTy : Ty → Ty
  | .array t => .array t
  | .vec t => .vec t
  | _ => .mixed

/-- the parameters of a function -/
def declareParams : List Param → State → State
  | [], s => s
  | p :: ps, s => declareParams ps (s.declare p.name p.ty (p.isMut || p.byRef)).2

/-- a captured variable in the scope of the closure; a program global is not copied -/
def exposeUse (p : Nat) (s : State) : State :=
  if (s.sym p).isGlobalAlias || (s.sym p).isProgramGlobal then s.expose p
  else { s.expose p with clos := (s.expose p).clos.modifyHead (noteCapture p) }

/-- a variable of `use (..)`, looked up outside the scope of the closure -/
def checkUse (u : UseVar) (s : State) : State :=
  match s.pop.find u.name with
  | none => s.err
  | some p => exposeUse p (if u.byRef then s.setSym p fun v => { v with ty := .mixed } else s)

def checkUses : List UseVar → State → State
  | [], s => s
  | u :: us, s => checkUses us (checkUse u s)

/-- the start of the body of a closure -/
def enterClosure (params : List Param) (uses : List UseVar) (ret : Option Ty) (s : State) :
    State :=
  checkUses uses (declareParams params
    { s.push with
      clos := ⟨s.scopeSeq, []⟩ :: s.clos
      loopDepth := 0
      ret := ret.getD .mixed })

/-- the end of the body of a closure that began in `s`: it copies what it captures -/
def leaveClosure (s s' : State) : State :=
  { s'.pop with
    clos := s'.clos.tail
    loopDepth := s.loopDepth
    ret := s.ret }.note (.peek ((s'.clos.headD ⟨0, []⟩).caps.map s'.refOf))

/-- the variable that `preg_match` declares where it is not found -/
def declareOut (out : Option Bytes) (s : State) : State :=
  match out with
  | none => s
  | some name =>
    match s.find name with
    | some _ => s
    | none => (s.declare name (.array .mixed) true).2

/-- `preg_match` writes its variable -/
def writeOut (out : Option Bytes) (s : State) : State :=
  match out with
  | none => s
  | some name => s.note (.write ((s.find name).toList.map s.refOf))

/-- the program-wide symbol of a name: the first variable of the outermost scope that is no alias,
else the one that is known already, else a new one -/
def globalSym (name : Bytes) (s : State) : Nat × State :=
  let root := (s.scopes.getLast?.map fun sc => sc.vars.reverse).getD []
  match root.find? fun p => s.named name p && !(s.sym p).isGlobalAlias with
  | some p =>
    (p, if (s.globalFind name).isSome then s else { s with globals := s.globals ++ [p] })
  | none =>
    match s.globalFind name with
    | some p => (p, s)
    | none => (s.syms.length,
        { s with
          syms := s.syms ++ [⟨name, .mixed, true, s.uids, 0, false, false, true⟩]
          uids := s.uids + 1
          globals := s.globals ++ [s.syms.length] })

/-- a copy of the symbol, in the scope at hand -/
def exposeAlias (p : Nat) (s : State) : State :=
  { s with syms := s.syms ++ [{ s.sym p with isGlobalAlias := true }] }.expose s.syms.length

/-- one name of `ST_GLOBAL` -/
def checkGlobal (name : Bytes) (s : State) : State :=
  let g := globalSym name s
  exposeAlias g.1 (g.2.setSym g.1 fun v => { v with isMut := true, isProgramGlobal := true })

def checkGlobals : List Bytes → State → State
  | [], s => s
  | name :: names, s => checkGlobals names (checkGlobal name s)

/-! ## rules of statements -/

/-- the condition of an `if` or a loop -/
def condOk (t : Ty) : Bool := t.isBool || t.isMixed

/-- the expression is the variable of this name -/
def isVar (name : Bytes) : Expr → Bool
  | .var x => x = name
  | _ => false

/-- `ST_LET`, after the check of the initial value -/
def checkLet (name : Bytes) (isMut : Bool) (ann : Option Ty) (init : Expr) (it : Ty)
    (s : State) : State :=
  let val := valOf (some init) s
  let s := s.errIf (ann.any fun a => !typesCompatible a it && !a.isMixed)
  let d := s.declare name (ann.getD it) isMut
  let s := d.2
  -- the source is looked up after the declaration
  let flag := if it.isSmart && !isMut then sourceOf (some init) s else none
  let s := flag.elim s s.move
  noteAssign .eq d.1 val (.let_ isMut (isVar name init)) s

/-- `ST_RETURN` with a value of the type -/
def returnOk (ret vt : Ty) : Bool :=
  !ret.isVoid && (ret.isMixed || vt.isBoxed || typesCompatible ret vt)

def switchNum (t : Ty) : Bool := t.isNumeric
def switchStr (t : Ty) : Bool := t.isString || t.isMixed

/-- the pattern of a case -/
def patternOk (ct pt : Ty) : Bool :=
  (switchNum ct && (pt.isNumeric || pt.isMixed)) ||
    (switchStr ct && (pt.isString || pt.isMixed))

/-- the types of the value and the key of a `foreach`; `none` is not iterable -/
def iterTys : Ty → Option (Ty × Ty)
  | .array t => some (t, .int)
  | .vec t => some (t, .int)
  | .set t => some (t, .int)
  | .map k v => some (v, k)
  | t => if t.isString then some (.string, .int) else if t.isBoxed then some (.mixed, .mixed)
    else none

/-- the variables of a `foreach` -/
def declareIter (t : Ty) (var : Bytes) (kvar : Option Bytes) (s : State) : State :=
  let tys := (iterTys t).getD (.mixed, .mixed)
  let s := s.errIf (iterTys t).isNone
  let d := s.push.declare var tys.1 false
  let k := kvar.elim (none, d.2) fun k => d.2.declare k tys.2 false
  k.2.note (.write ((d.1.toList ++ k.1.toList).map k.2.refOf))

/-- the variable of a `catch` -/
def declareCatch (ty : Ty) (var : Bytes) (s : State) : State :=
  let d := s.push.declare var ty false
  d.2.note (.write (d.1.toList.map d.2.refOf))

def throwOk : Ty → Bool
  | .cls _ => true
  | .own _ => true
  | t => t.isString || t.isMixed

/-- `loop_depth++` -/
def enterLoop (s : State) : State := { s with loopDepth := s.loopDepth + 1 }

/-- `loop_depth--` -/
def leaveLoop (s : State) : State := { s with loopDepth := s.loopDepth - 1 }

/-! ## the checker -/

mutual

def checkExpr : Expr → State → Ty × State
  | .var name, s => checkVar name s
  | .assign name op ann value, s =>
    let r := checkOpt value s
    assignVar name op ann value r.1 r.2
  | .store kind target op value, s =>
    let r := checkExpr value s
    let t := checkExpr target r.2
    match kind with
    | .index => finishAssign op none r.1 t.2
    | .field => finishAssign op (some t.1) r.1 t.2
    | .other => finishAssign op (some t.1) r.1 t.2.err
  | .destructure keys slots value, s =>
    let r := checkExpr value s
    let sl := checkSlots slots (checkExprs keys r.2)
    (destructureTy r.1, sl.2.note (.write (sl.1.map sl.2.refOf)))
  | .borrow isMut operand, s => checkBorrow isMut operand s
  | .closure params uses ret body, s =>
    if s.clos.length < maxClosures then
      (.fn (params.map Param.ty) (ret.getD .mixed) false,
        leaveClosure s (checkStmts body (enterClosure params uses ret s)))
    else (.mixed, s.err)
  | .compact dropped names, s =>
    let s := checkExprs dropped s
    (.array .mixed, s.note (.peek ((names.filterMap s.find).map s.refOf)))
  | .other out parts ty ok, s =>
    (ty, writeOut out ((checkParts parts (declareOut out s)).errIf (!ok)))

/-- `check_expr` of an expression that may be missing -/
def checkOpt : Option Expr → State → Ty × State
  | none, s => (.mixed, s)
  | some e, s => checkExpr e s

def checkExprs : List Expr → State → State
  | [], s => s
  | e :: es, s => checkExprs es (checkExpr e s).2

def checkParts : List Part → State → State
  | [], s => s
  | .mk _ e :: ps, s => checkParts ps (checkExpr e s).2

def checkStmt : Stmt → State → State
  | .expr e, s => (checkExpr e s).2
  | .global names, s => checkGlobals names s
  | .let_ name isMut ann init, s =>
    let r := checkExpr init s
    checkLet name isMut ann init r.1 r.2
  | .return_ value, s =>
    let r := checkOpt value s
    r.2.errIf (!(if value.isSome then returnOk s.ret r.1 else s.ret.isVoid || s.ret.isMixed))
  | .echo es, s => checkExprs es s
  | .print e, s => (checkExpr e s).2
  | .if_ c t e, s =>
    let r := checkExpr c s
    checkBlock e (checkBlock t (r.2.errIf (!condOk r.1)))
  | .while_ c b, s =>
    let r := checkExpr c s
    leaveLoop (checkBlock b (enterLoop (r.2.errIf (!condOk r.1))))
  | .do_ b c, s =>
    let r := checkExpr c (leaveLoop (checkBlock b (enterLoop s)))
    r.2.errIf (!condOk r.1)
  | .switch_ c cases, s =>
    let r := checkExpr c s
    let s := r.2.errIf (!(switchNum r.1 || switchStr r.1))
    leaveLoop (checkCases cases r.1 (enterLoop s))
  | .for_ init cond step body, s =>
    let s := checkStmts init s
    let r := checkOpt cond s
    let s := checkStmts step (r.2.errIf (cond.isSome && !condOk r.1))
    leaveLoop (checkBlock body (enterLoop s))
  | .foreach_ iter var kvar body, s =>
    let r := checkExpr iter s
    (leaveLoop (checkBlock body (enterLoop (declareIter r.1 var kvar r.2)))).pop
  | .break_, s => s.errIf (s.loopDepth = 0)
  | .continue_, s => s.errIf (s.loopDepth = 0)
  | .block b, s => (checkBlock b s.push).pop
  | .unsafeBlock b, s => (checkBlock b s.push).pop
  | .try_ body catches fin, s =>
    let s := checkCatches catches (checkBlock body s)
    if fin.isEmpty then s else checkBlock fin s
  | .throw_ e, s =>
    let r := checkExpr e s
    r.2.errIf (!throwOk r.1)

def checkStmts : List Stmt → State → State
  | [], s => s
  | st :: sts, s => checkStmts sts (checkStmt st s)

def checkBlock : List Stmt → State → State
  | [], s => s.release
  | st :: sts, s => checkBlock sts (checkStmt st s)

/-- the patterns of one case -/
def checkPatterns : List Expr → Ty → State → State
  | [], _, s => s
  | e :: es, ct, s =>
    let r := checkExpr e s
    checkPatterns es ct (r.2.errIf (!patternOk ct r.1))

def checkCases : List Case → Ty → State → State
  | [], _, s => s
  | .mk pats body :: cs, ct, s => checkCases cs ct (checkBlock body (checkPatterns pats ct s))

def checkCatches : List Catch → State → State
  | [], s => s
  | .mk ty var body :: cs, s => checkCatches cs (checkBlock body (declareCatch ty var s)).pop

end

/-- before anything is checked -/
def State.start : State :=
  { ok := true, syms := [], uids := 0, scopes := [], scopeSeq := 0, globals := [], clos := []
    loans := [], loopDepth := 0, ret := .void, log := [] }

/-- the scope of a function; `parent` are the scopes around it (those of a class, or none) -/
def enterFn (parent : List Scope) (fn : Fn) (s : State) : State :=
  { s with scopes := ⟨[], s.scopeSeq⟩ :: parent
           scopeSeq := s.scopeSeq + 1
           loopDepth := 0
           ret := fn.ret
           log := [] }

/-- `check_fn_body` -/
def checkFnBody (parent : List Scope) (fn : Fn) (s : State) : State :=
  checkStmts fn.body (declareParams fn.params (enterFn parent fn s))

end Sema
end HolyPhp
