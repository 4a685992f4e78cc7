import HolyPhp.Parser.Cursor
import HolyPhp.Parser.Tree

/-!
# The parser of expressions

The functions call each other; `Rec` has the ones that are called before anything is read.

* `parsePrimary`, `parsePostfix`, `parseUnary`, `parseBinopLevel`, `parseTernary`, `parseAssign`
* `paramName`, `closureAfterFn`  closures, with the parser of statements in their bodies.
-/

set_option autoImplicit false

namespace HolyPhp
namespace Grammar
open HolyPhp.Lexer HolyPhp.Parser Progress
open Sema (Ty)

/-- the functions that are called again; `embedded` is `parse_embedded_expr` -/
structure Rec where
  assign : P Expr
  ternary : P Expr
  pow : P Expr
  unary : P Expr
  stmt : P Stmt
  embedded : Bytes → Except Halt Expr

/-- all of its fields 0 -/
def zeroTok : Token := tsPeek []

/-- an operator that is not written, with the place of a token -/
def opAt (t : Token) (k : TokKind) : Token :=
  { zeroTok with kind := k, line := t.line, col := t.col }

variable (r : Rec)

/-! ## calls -/

def parseCallArgs : P (List Expr) := do
  let _ ← expect .lparen "'(' to start arguments"
  let args ← commaList .rparen r.assign
  let _ ← expect .rparen "')' to end arguments"
  return args

/-! ## `parse_closure_after_fn` -/

/-- `$name: Type`, `Type $name` or `Type &$name`; the last part says whether there is a `&` -/
def paramName : P (Token × Option Ty × Bool) := do
  if ← check .var then
    let vn ← expect .var "parameter name"
    let type ← optional .colon parseTy
    return (vn, type, false)
  else
    let type ← parseTy
    let amp ← tsMatch .amp
    let vn ← expect .var "parameter name"
    return (vn, some type, amp)

def closureParam : P (Param Expr) := do
  let isMut ← tsMatch .kwMut
  let byRef ← tsMatch .amp
  let (vn, type, amp) ← paramName
  return ⟨vn, type, byRef || amp, isMut || byRef || amp, false, false, none⟩

def useVar : P (Param Expr) := do
  let byRef ← tsMatch .amp
  let cv ← expect .var "use() variable"
  return ⟨cv, none, byRef, byRef, false, false, none⟩

def useVars : P (List (Param Expr)) := do
  if ← eatIdentOrKw "use" .kwUse then
    let _ ← expect .lparen "'(' after 'use'"
    let vars ← commaList .rparen useVar
    let _ ← expect .rparen "')' after use(...) list"
    return vars
  else return []

/-- the statements up to a `}` -/
def stmtsLoop : P (List Stmt) :=
  bracesLoop (fun xs => do return xs ++ [← r.stmt]) []

/-- behind the `{` of a closure -/
def closureBody : P (List Stmt) := do
  skipNl
  let body ← stmtsLoop r
  let _ ← expect .rbrace "'\x7d' to close closure body"
  skipNl
  return body

/-- `fn(x) => x * 2` -/
def closureExpr : P (List Stmt) := do
  let _ ← expect .doublearrow "'=>' or '\x7b' in closure"
  let e ← r.assign
  expectNlOrSemi
  return [.mk e.tok (.ret (some e))]

def closureBlock : P (List Stmt) := do
  if ← tsMatch .lbrace then closureBody r else closureExpr r

def parseClosureAfterFn : P Expr := do
  let _ ← expect .lparen "'(' after 'fn'"
  let params ← commaList .rparen closureParam
  let _ ← expect .rparen "')' after closure parameters"
  let vars ← useVars
  let ret ← optional .colon parseTy
  skipNl
  let body ← closureBlock r
  return .mk zeroTok (.closure
    ⟨ascii "<closure>", zeroTok, params, vars, ret, false, body, false, false, false, false,
      .visPublic⟩)

/-! ## `parse_primary` -/

/-- one token -/
def literal (node : Token → Node) : P Expr := do
  let t ← advance
  return .mk t (node t)

def parseTpl : P Expr := do
  let t ← advance
  let exprs ← fun s => ((t.tpl.filterMap Prod.snd).mapM r.embedded).map fun es => (es, s)
  return .mk t (.tpl (t.tpl.map Prod.fst) exprs)

/-- with a parenthesis it is a call; `bareName` of the name that is called -/
def nameOrCall (bareName : Bool) : P Expr := do
  let t ← advance
  if ← check .lparen then
    let args ← parseCallArgs r
    return .mk t (.call (.mk t (.var t.text bareName)) args)
  else return .mk t (.var t.text false)

def parseNew : P Expr := do
  let t ← advance
  let cn ← expect .ident "class name after 'new'"
  let args ← parseCallArgs r
  return .mk t (.newexpr cn.text args)

/-- an arm of `match` -/
def armBody (a : List (MatchCase Expr) × Option Expr) :
    P (List (MatchCase Expr) × Option Expr) := do
  if ← eatIdentOrKw "_" .kwElse then
    let _ ← expect .doublearrow "'=>' in match arm"
    let body ← r.ternary
    return (a.1, some body)
  else
    let patterns ← commaItems r.ternary
    let _ ← expect .doublearrow "'=>' in match arm"
    let body ← r.ternary
    return (a.1 ++ [⟨patterns, body⟩], a.2)

/-- with what separates it from the next one -/
def matchArm (a : List (MatchCase Expr) × Option Expr) :
    P (List (MatchCase Expr) × Option Expr) := do
  let b ← armBody r a
  skipNl
  let _ ← tsMatch .comma
  skipNl
  return b

def parseMatch : P Expr := do
  let t ← advance
  let _ ← expect .lparen "'(' after 'match'"
  let subj ← r.assign
  let _ ← expect .rparen "')' after match subject"
  skipNl
  let _ ← expect .lbrace "'\x7b' to start match arms"
  skipNl
  let arms ← bracesLoop (matchArm r) ([], none)
  let _ ← expect .rbrace "'\x7d' to close match arms"
  skipNl
  return .mk t (.matchexpr subj arms.1 arms.2)

/-- behind a comma the tuple may end -/
def tupleRound (elems : List Expr) : P (Bool × List Expr) := do
  if ← tsMatch .comma then
    if ← check .rparen then return (false, elems)
    else
      let e ← r.assign
      return (true, elems ++ [e])
  else return (false, elems)

/-- a group, or a tuple -/
def parseParens : P Expr := do
  let t ← advance
  if ← check .rparen then
    let _ ← expect .rparen "')'"
    return .mk t (.tupleLit [])
  else
    let first ← r.assign
    if ← check .comma then
      let elems ← whileLoop (tupleRound r) [first]
      let _ ← expect .rparen "')' to close tuple"
      return .mk t (.tupleLit elems)
    else
      let _ ← expect .rparen "')'"
      return first

/-- an element, with a value if it is a key -/
def arrayElem (a : List (Option Expr) × List Expr) : P (List (Option Expr) × List Expr) := do
  let k ← r.ternary
  if ← tsMatch .doublearrow then
    let v ← r.ternary
    return (a.1 ++ [some k], a.2 ++ [v])
  else return (a.1 ++ [some k], a.2)

def arrayRound (a : List (Option Expr) × List Expr) :
    P (Bool × List (Option Expr) × List Expr) := do
  if ← atEnd .rbracket then return (false, a)
  else
    skipNl
    if ← tsMatch .comma then
      -- an empty slot
      skipNl
      return (true, a.1 ++ [none], a.2)
    else
      let a ← arrayElem r a
      skipNl
      if ← tsMatch .comma then
        skipNl
        return (true, a)
      else return (false, a)

def parsePrimaryLbracket : P Expr := do
  let t ← advance
  skipNl
  let a ← whileLoop (arrayRound r) ([], [])
  let _ ← expect .rbracket "']' to close literal"
  skipNl
  return .mk t (.arrayLit a.1 a.2)

def parseFn : P Expr := do
  let _ ← advance
  parseClosureAfterFn r

def unexpected (t : Token) : Bytes :=
  ascii "unexpected token '" ++ t.text ++ ascii "' in expression"

def parsePrimary : P Expr := fun s =>
  match s.kind with
  | .int => literal (fun t => .int t.ival) s
  | .float => literal (fun t => .float t.fval) s
  | .str => literal (fun t => .str t.text) s
  | .tpl => parseTpl r s
  | .hphpTrue => literal (fun _ => .boolean true) s
  | .hphpFalse => literal (fun _ => .boolean false) s
  | .hphpNull => literal (fun _ => .null) s
  | .var => nameOrCall r false s
  | .kwFn => parseFn r s
  | .kwFunction => parseFn r s
  | .kwNew => parseNew r s
  | .kwMatch => parseMatch r s
  | .lparen => parseParens r s
  | .lbracket => parsePrimaryLbracket r s
  | .ident => nameOrCall r true s
  | _ => fatalAt (tsPeek s.toks) (unexpected (tsPeek s.toks)) s

/-! ## `parse_postfix` -/

/-- without `...` -/
def closeIndex (t : Token) (e : Expr) (idx : Option Expr) : P (Bool × Expr) := do
  let _ ← expect .rbracket "']' after index"
  return (true, .mk t (.index e idx))

def indexOrSlice (e : Expr) : P (Bool × Expr) := do
  let t ← advance
  match ← unlessAt .rbracket r.assign with
  | none => closeIndex t e none
  | some idx =>
    if ← tsMatch .ellipsis then
      let hi ← unlessAt .rbracket r.assign
      let _ ← expect .rbracket "']' after slice"
      return (true, .mk e.tok (.slice { zeroTok with kind := .colon } e idx hi))
    else closeIndex t e (some idx)

def memberAccess (e : Expr) : P (Bool × Expr) := do
  let t ← advance
  let nm ← expect .ident "member name after '->'"
  if ← check .lparen then
    let args ← parseCallArgs r
    return (true, .mk t (.method e nm args))
  else return (true, .mk t (.field e nm false))

def staticMember (e : Expr) : P (Bool × Expr) := do
  let t ← advance
  let nm ← expect .ident "member after '::'"
  if ← check .lparen then
    match e.varName with
    | some cls =>
      let args ← parseCallArgs r
      return (true, .mk t (.staticcall cls nm.text args))
    | none => fatalAt t (ascii "'::' expects a class name")
  else return (true, .mk t (.field e nm true))

def callExpr (t : Token) (e : Expr) : P (Bool × Expr) := do
  let args ← parseCallArgs r
  return (true, .mk t (.call e args))

def castExpr (e : Expr) : P (Bool × Expr) := do
  let t ← advance
  let ty ← parseTy
  return (true, .mk e.tok (.cast ty e t))

def isExpr (e : Expr) : P (Bool × Expr) := do
  let t ← advance
  let ty ← parseTy
  return (true, .mk e.tok (.ischeck ty e t))

/-- a round of the `for (;;)` -/
def postfixRound (e : Expr) : P (Bool × Expr) := fun s =>
  if s.kind = .lbracket then indexOrSlice r e s
  else if s.kind = .arrow then memberAccess r e s
  else if s.kind = .coloncolon then staticMember r e s
  else if s.kind = .lparen ∧ e.callable then callExpr r (tsPeek s.toks) e s
  else if (s.kind = .kwAs ∨ s.atIdent "as") ∧ (peekAt 1 s).kind ≠ .var then castExpr e s
  else if s.atIdent "is" then isExpr e s
  else .ok ((false, e), s)

def parsePostfix : P Expr := do
  let e ← parsePrimary r
  whileLoop (postfixRound r) e

/-! ## operators -/

def unaryOp : P Expr := do
  let op ← advance
  let operand ← r.unary
  return .mk op (.un op operand)

def borrowExpr : P Expr := do
  let amp ← advance
  let isMut ← eatIdent "mut"
  let operand ← r.unary
  return .mk amp (if isMut then .mutborrow operand else .borrow operand)

def derefExpr : P Expr := do
  let star ← advance
  let operand ← r.unary
  return .mk star (.deref operand)

/-- a `&` that is no operator between two operands -/
def State.borrows (s : State) : Bool :=
  (peekAt 1 s).kind = .var || s.atIdent "mut" || (peekAt 1 s).kind = .amp

def parseUnary : P Expr := fun s =>
  if s.kind = .not ∨ s.kind = .minus ∨ s.kind = .plus ∨ s.kind = .tilde then unaryOp r s
  else if s.kind = .amp ∧ s.borrows then borrowExpr r s
  else if s.kind = .star then derefExpr r s
  else parsePostfix r s

def parsePow : P Expr := do
  let base ← r.unary
  match ← matchAny [.pow] with
  | some op =>
    let exp ← r.pow
    return .mk op (.bin op base exp)
  | none => return base

/-- binary operator precedence table -/
def levels : List (List TokKind) :=
  [[.oror],
   [.andand],
   [.pipe],
   [.caret],
   [.amp],
   [.eq, .neq, .neq2, .eq2, .spaceship],
   [.lt, .gt, .le, .ge],
   [.dot],
   [.shl, .shr],
   [.plus, .minus],
   [.star, .slash, .percent]]

/-- with the levels from `lvl` on -/
def parseBinopLevel : List (List TokKind) → P Expr
  | [] => r.pow
  | ops :: rest => do
    let l ← parseBinopLevel rest
    whileLoop (fun l => do
      match ← matchAny ops with
      | some op =>
        let e ← parseBinopLevel rest
        return (true, .mk op (.bin op l e))
      | none => return (false, l)) l

def parseTernary : P Expr := do
  let cond ← parseBinopLevel r levels
  if ← tsMatch .questionquestion then
    let els ← r.ternary
    return .mk cond.tok (.nullcoal { zeroTok with kind := .questionquestion } cond els)
  else if ← tsMatch .question then
    let yes ← r.assign
    let _ ← expect .colon "':' in ternary"
    let els ← r.ternary
    return .mk cond.tok (.tern cond yes els)
  else return cond

/-! ## `parse_assign` -/

def tokStartsType (k : TokKind) : Bool :=
  [TokKind.ident, .amp, .star, .lbracket, .kwFn, .kwOwn].contains k

/-- `$x: int = 5` or `$x: int` -/
def typedDecl : P Expr := do
  let vn ← advance
  let _ ← advance
  let ann ← parseTy
  let value ← optional .assign r.assign
  return .mk vn (.assign (opAt vn .assign) (.mk vn (.var vn.text false)) value (some ann) false)

def assignOps : List TokKind :=
  [.assign, .plusassign, .minusassign, .starassign, .slashassign, .percentassign, .dotassign,
   .powassign, .shlassign, .shrassign, .qqassign]

/-- `??=` is not associative -/
def rightSide (op : TokKind) : P Expr := if op = .qqassign then r.ternary else r.assign

def assignTo (lhs : Expr) : P Expr := do
  let t ← advance
  let rhs ← rightSide r t.kind
  return .mk t (.assign t lhs (some rhs) none (t.kind = .qqassign))

/-- `$v++` is `$v = $v + 1` -/
def increment (lhs : Expr) : P Expr := do
  let t ← advance
  let op := { t with kind := if t.kind = .incr then .plus else .minus }
  return .mk t (.assign { zeroTok with kind := .assign } lhs
    (some (.mk t (.bin op lhs (.mk t (.int 1))))) none false)

/-- behind a target that is a list; an `=` is an operator already -/
def destructure (lhs : Expr) : P Expr := do
  let t ← advance
  let rhs ← r.assign
  return .mk t (.assign (opAt t .assign) lhs (some rhs) none false)

/-- behind the left side -/
def assignRest (lhs : Expr) : P Expr := fun s =>
  if assignOps.contains s.kind then assignTo r lhs s
  else if s.kind = .incr ∨ s.kind = .decr then increment lhs s
  else if lhs.isArrayLit ∧ s.kind = .assign then destructure r lhs s
  else .ok (lhs, s)

def parseAssign : P Expr := fun s =>
  if s.kind = .var ∧ (peekAt 1 s).kind = .colon ∧ tokStartsType (peekAt 2 s).kind then
    typedDecl r s
  else (r.ternary >>= assignRest r) s

end Grammar
end HolyPhp
