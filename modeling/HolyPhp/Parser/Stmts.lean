import HolyPhp.Parser.Exprs

/-!
# The parser of statements and declarations

* `parseStmt`       one function for each statement that begins with a keyword;
* `parseFnAfterName`, `parseClassBody`, `parseDecl`  declarations;
* `parseProgram`    the loop over both.
-/

set_option autoImplicit false

namespace HolyPhp
namespace Grammar
open HolyPhp.Lexer HolyPhp.Parser Progress
open Sema (Ty)

variable (r : Rec)

/-- up to the `}`, which it takes -/
def parseBlockBody : P (List Stmt) := do
  skipNl
  let v ← stmtsLoop r
  let _ ← expect .rbrace "'\x7d' to close block"
  skipNl
  return v

/-- a block with its `{` -/
def block (what : String) : P (List Stmt) := do
  skipNl
  let _ ← expect .lbrace what
  parseBlockBody r

/-- a block that `break` may leave -/
def loopBlock (what : String) : P (List Stmt) := do
  skipNl
  let _ ← expect .lbrace what
  setDepth (· + 1)
  let body ← parseBlockBody r
  setDepth (· - 1)
  return body

/-- `( expr )` -/
def condition (before behind : String) : P Expr := do
  let _ ← expect .lparen before
  let cond ← r.assign
  let _ ← expect .rparen behind
  return cond

/-! ## simple statements -/

def letStmt : P Stmt := do
  let t ← advance
  let isOwn ← tsMatch .kwOwn
  let isMut ← tsMatch .kwMut
  let vn ← expect .var "variable name"
  let ann ← optional .colon parseTy
  let init ← optional .assign r.assign
  return .mk t (.letVar vn isMut isOwn init ann)

def exprStmt : P Stmt := do
  let e ← r.assign
  return .mk e.tok (.expr e)

/-- in a `for` header -/
def parseSimpleStmt : P Stmt := fun s =>
  if s.kind = .kwLet then letStmt r s else exprStmt r s

def returnStmt : P Stmt := do
  let t ← advance
  let value ← fun s =>
    if [TokKind.newline, .semi, .rbrace, .eof].contains s.kind then .ok (none, s)
    else (r.assign >>= fun e => pure (some e)) s
  expectNlOrSemi
  return .mk t (.ret value)

def echoStmt : P Stmt := do
  let t ← advance
  let exprs ← commaItems r.assign
  expectNlOrSemi
  return .mk t (.echo exprs)

/-- `print` and `throw` -/
def exprKeyword (node : Expr → StmtNode) : P Stmt := do
  let t ← advance
  let e ← r.assign
  expectNlOrSemi
  return .mk t (node e)

def breakStmt : P Stmt := do
  let t ← advance
  let depth ← fun s => .ok (s.loopDepth, s)
  if depth = 0 then fatalAt t (ascii "'break'/'continue' outside of a loop")
  else
    expectNlOrSemi
    return .mk t (if t.kind = .kwBreak then .brk else .cont)

/-- a round of the loop over the names; at the end of the stream there is none -/
def globalRound (names : List Token) : P (Bool × List Token) := do
  if ← check .eof then return (false, names)
  else
    let vn ← expect .var "variable after 'global'"
    return (← tsMatch .comma, names ++ [vn])

def globalStmt : P Stmt := do
  let t ← advance
  let names ← whileLoop globalRound []
  expectNlOrSemi
  return .mk t (.globals names)

/-! ## statements with blocks -/

/-- `elseif` goes, and an `if` is put in its place -/
def matchElseif : P Bool := fun s =>
  if tsCheck s.toks .kwElseif then
    let ts := tsAdvance s.toks
    .ok (true, { s with toks := { tsPeek ts with kind := .kwIf } :: ts })
  else .ok (false, s)

/-- behind `else` -/
def elseBody : P (List Stmt) := do
  skipNl
  if ← check .kwIf then
    let s ← r.stmt
    return [s]
  else
    let _ ← expect .lbrace "'\x7b' to start else body"
    parseBlockBody r

def elsePart : P (List Stmt) := do
  if ← matchElseif then
    let elif ← r.stmt
    return [elif]
  else if ← tsMatch .kwElse then elseBody r
  else return []

def ifStmt : P Stmt := do
  let t ← advance
  let cond ← condition r "'(' after 'if'" "')' after if condition"
  let body ← block r "'\x7b' to start if body"
  skipNl
  let els ← elsePart r
  return .mk t (.ifElse cond body els)

def whileStmt : P Stmt := do
  let t ← advance
  let cond ← condition r "'(' after 'while'" "')' after while condition"
  let body ← loopBlock r "'\x7b' to start while body"
  return .mk t (.whileLoop cond body)

/-- a round of the loop over the first part of a `for` header -/
def initRound (init : List Stmt) : P (Bool × List Stmt) := do
  if ← check .semi then return (false, init)
  else if ← atEnd .rparen then return (false, init)
  else
    let s ← parseSimpleStmt r
    return (← tsMatch .comma, init ++ [s])

def forCond : P (Option Expr) := do
  if ← check .semi then return none else unlessAt .rparen r.assign

def forStmt : P Stmt := do
  let t ← advance
  let _ ← expect .lparen "'(' after 'for'"
  let init ← whileLoop (initRound r) []
  let _ ← tsMatch .semi
  let cond ← forCond r
  let _ ← tsMatch .semi
  let step ← commaList .rparen (parseSimpleStmt r)
  let _ ← expect .rparen "')' after for header"
  let body ← loopBlock r "'\x7b' to start for body"
  return .mk t (.forLoop init cond step body)

/-- `case v` or `default` -/
def caseLabel : P (Option Expr) := do
  if ← tsMatch .kwCase then
    let v ← r.assign
    return some v
  else if ← tsMatch .kwDefault then return none
  else fun s => fatalAt (tsPeek s.toks) (ascii "expected 'case' or 'default' in switch body") s

/-- a round of the loop over the statements of a case -/
def caseStmtRound (xs : List Stmt) : P (Bool × List Stmt) := fun s =>
  if [TokKind.kwCase, .kwDefault, .rbrace, .eof].contains s.kind then .ok ((false, xs), s)
  else
    (do
      let x ← r.stmt
      skipNl
      return (true, xs ++ [x])) s

/-- behind the label there may be a `:`, or a `;` -/
def caseColon : P Unit := do
  if ← tsMatch .colon then return ()
  else
    let _ ← tsMatch .semi
    return ()

def switchCase : P (SwitchCase Expr Stmt) := do
  let v ← caseLabel r
  caseColon
  skipNl
  let body ← whileLoop (caseStmtRound r) []
  return ⟨v.toList, body, v.isNone⟩

def switchRound (cases : List (SwitchCase Expr Stmt)) :
    P (Bool × List (SwitchCase Expr Stmt)) := do
  if ← atEnd .rbrace then return (false, cases)
  else
    let c ← switchCase r
    return (true, cases ++ [c])

def switchStmt : P Stmt := do
  let t ← advance
  let cond ← condition r "'(' after 'switch'" "')' after switch condition"
  skipNl
  let _ ← expect .lbrace "'\x7b' to start switch body"
  skipNl
  setDepth (· + 1)
  let cases ← whileLoop (switchRound r) []
  setDepth (· - 1)
  let _ ← expect .rbrace "'\x7d' to close switch"
  return .mk t (.switch cond cases)

def doStmt : P Stmt := do
  let t ← advance
  let body ← loopBlock r "'\x7b' to start do body"
  skipNl
  let _ ← expect .kwWhile "'while' after do body"
  let cond ← condition r "'(' after 'while'" "')' after do-while condition"
  expectNlOrSemi
  return .mk t (.doWhile body cond)

/-- `as $v` or `as $k => $v` -/
def foreachVars : P (Option Bytes × Token) := do
  if ← eatIdentOrKw "as" .kwAs then
    let kv ← expect .var "foreach variable after 'as'"
    if ← tsMatch .doublearrow then
      let vv ← expect .var "foreach value variable"
      return (some kv.text, vv)
    else return (none, kv)
  else fun s => fatalAt (tsPeek s.toks) (ascii "expected 'as' or 'in' in foreach") s

def foreachStmt : P Stmt := do
  let t ← advance
  let _ ← expect .lparen "'(' after 'foreach'"
  let iter ← r.assign
  let vars ← foreachVars
  let _ ← expect .rparen "')' after foreach header"
  let body ← loopBlock r "'\x7b' to start foreach body"
  return .mk t (.foreach iter vars.1 vars.2 body)

def unsafeStmt : P Stmt := do
  let t ← advance
  let stmts ← block r "'\x7b' after 'unsafe'"
  return .mk t (.unsafeBlock stmts)

def catchVar : P (Option Ty × Token) := do
  if ← check .var then
    let vn ← advance
    return (none, vn)
  else
    let type ← parseTy
    let vn ← expect .var "exception variable"
    return (some type, vn)

def catchRound (catches : List (CatchClause Stmt)) : P (Bool × List (CatchClause Stmt)) := do
  if ← tsMatch .hphpCatch then
    let _ ← expect .lparen "'(' after 'catch'"
    let v ← catchVar
    let _ ← expect .rparen "')' after catch header"
    let body ← block r "'\x7b' to start catch body"
    skipNl
    return (true, catches ++ [⟨v.1, v.2, body⟩])
  else return (false, catches)

def finallyPart : P (List Stmt) := do
  if ← tsMatch .hphpFinally then
    let fin ← block r "'\x7b' after 'finally'"
    skipNl
    return fin
  else return []

def tryStmt : P Stmt := do
  let t ← advance
  let body ← block r "'\x7b' after 'try'"
  skipNl
  let catches ← whileLoop (catchRound r) []
  let fin ← finallyPart r
  return .mk t (.tryCatch body catches fin)

/-- an expression, or `let` -/
def plainStmt (p : P Stmt) : P Stmt := do
  let s ← p
  expectNlOrSemi
  return s

def parseStmt : P Stmt := fun s =>
  match s.kind with
  | .kwLet => plainStmt (parseSimpleStmt r) s
  | .kwReturn => returnStmt r s
  | .kwEcho => echoStmt r s
  | .kwPrint => exprKeyword r .print s
  | .kwIf => ifStmt r s
  | .kwWhile => whileStmt r s
  | .kwFor => forStmt r s
  | .kwSwitch => switchStmt r s
  | .kwDo => doStmt r s
  | .kwForeach => foreachStmt r s
  | .kwBreak => breakStmt s
  | .kwContinue => breakStmt s
  | .kwUnsafe => unsafeStmt r s
  | .kwTry => tryStmt r s
  | .hphpThrow => exprKeyword r .throw s
  | .kwGlobal => globalStmt s
  | _ => plainStmt (exprStmt r) s

/-! ## functions -/

/-- `&`, with two words `mut` behind it at most; the second one makes the parameter mutable -/
def ampMut : P (Bool × Bool) := do
  if ← tsMatch .amp then
    let _ ← eatIdent "mut"
    let isMut ← eatIdent "mut"
    return (true, isMut)
  else return (false, false)

def fnParam : P (Param Expr) := do
  let isMut ← tsMatch .kwMut
  let isOwn ← tsMatch .kwOwn
  let ref ← ampMut
  let variadic ← tsMatch .ellipsis
  let (vn, type, amp) ← paramName
  let dflt ← optional .assign r.assign
  return ⟨vn, type, ref.1 || amp, isMut || ref.2 || amp, isOwn, variadic, dflt⟩

/-- behind the `{` -/
def fnBody : P (List Stmt) := do
  skipNl
  let body ← stmtsLoop r
  let _ ← expect .rbrace "'\x7d' to close function body"
  skipNl
  return body

/-- `none` for an abstract method -/
def fnBodyOrNone : P (Option (List Stmt)) := do
  if ← tsMatch .lbrace then
    let body ← fnBody r
    return some body
  else
    expectNlOrSemi
    return none

def parseFnAfterName (name : Token) (isMethod isStatic : Bool) : P (AstFn Expr Stmt) := do
  let _ ← expect .lparen "'(' after function name"
  let params ← commaList .rparen (fnParam r)
  let _ ← expect .rparen "')' after parameters"
  let ret ← optional .colon parseTy
  skipNl
  let body ← fnBodyOrNone r
  return ⟨name.text, name, params, [], ret, ret.isNone, body.getD [], isMethod, isStatic,
    body.isNone, false, .visPublic⟩

/-! ## classes -/

/-- `$name: Type` or `Type $name` -/
def fieldName : P (Token × Option Ty) := do
  if ← check .var then
    let vn ← expect .var "field name"
    let type ← optional .colon parseTy
    return (vn, type)
  else
    let type ← parseTy
    let vn ← expect .var "field name"
    return (vn, some type)

def parseField (vis : Vis) (isConst : Bool) : P StructField := do
  let ident ← eatIdent "static"
  let kw ← tsMatch .kwStatic
  let isMut ← tsMatch .kwMut
  let _ ← tsMatch .kwOwn
  let (vn, type) ← fieldName
  let dflt ← optional .assign r.assign
  expectNlOrSemi
  return ⟨vn, type, vis, isMut || isConst, isConst || ident || kw, dflt⟩

/-- an access modifier, if there is one -/
def visibility : P Vis := do
  if ← tsMatch .kwPrivate then return .visPrivate
  else if ← tsMatch .kwProtected then return .visProtected
  else
    let _ ← eatIdentOrKw "pub" .kwPublic
    return .visPublic

/-- `static`, where it did not stand in front of `fn` -/
def lateStatic (leadStatic : Bool) : P Bool := do
  if leadStatic then return true else eatIdent "static"

/-- behind the keyword of a method -/
def method (vis : Vis) (leadStatic : Bool) : P (AstFn Expr Stmt) := do
  let isStatic ← lateStatic leadStatic
  let nm ← expect .ident "method name"
  let m ← parseFnAfterName r nm true isStatic
  return { m with vis := vis, isCtor := nm.text = ascii "__construct" }

/-- the tokens that a field may begin with -/
def startsField : List TokKind := [.var, .kwMut, .kwOwn, .int, .ident, .lbracket]

def noMember (t : Token) : Bytes :=
  ascii "expected field or method in class body, found '" ++ t.text ++ ascii "'"

/-- what is no method -/
def fieldMember (c : AstClass) (vis : Vis) (isConst leadStatic : Bool) : P AstClass := fun s =>
  if startsField.contains s.kind then
    (do
      let f ← parseField r vis isConst
      return { c with fields := c.fields ++ [f] }) s
  else if leadStatic || tsCheck s.toks .kwStatic || isConst then
    (do
      let f ← parseField r vis (isConst || leadStatic || tsCheck s.toks .kwStatic)
      return { c with fields := c.fields ++ [f] }) s
  else fatalAt (tsPeek s.toks) (noMember (tsPeek s.toks)) s

def classMember (c : AstClass) : P AstClass := do
  let vis ← visibility
  let isConst ← tsMatch .kwConst
  let leadStatic ← tsMatch .kwStatic
  match ← matchAny [.kwFn, .kwFunction] with
  | some _ =>
    let m ← method r vis leadStatic
    return { c with methods := c.methods ++ [m] }
  | none => fieldMember r c vis isConst leadStatic

def parseClassBody (c : AstClass) : P AstClass := do
  let _ ← expect .lbrace "'\x7b' after class header"
  skipNl
  let c ← bracesLoop (classMember r) c
  let _ ← expect .rbrace "'\x7d' to close class body"
  skipNl
  return c

/-! ## declarations -/

def fnDecl : P Decl := do
  let t ← advance
  let nm ← expect .ident "function name"
  let fn ← parseFnAfterName r nm false false
  expectNlOrSemi
  return .fn t fn

/-- a name behind a word, if it is there -/
def baseClass : P (Option Bytes) := do
  if ← eatIdentOrKw "extends" .kwExtends then
    let b ← expect .ident "base class"
    return some b.text
  else return none

def interfaceNames (kw : String) (k : TokKind) : P (List Bytes) := do
  if ← eatIdentOrKw kw k then
    commaItems (do
      let nm ← expect .ident "interface name"
      return nm.text)
  else return []

def classDecl : P Decl := do
  let t ← advance
  let nm ← expect .ident "class name"
  let base ← baseClass
  let interfaces ← interfaceNames "implements" .kwImplements
  let c ← parseClassBody r ⟨nm, base, interfaces, [], [], false, false⟩
  return .cls t c

def interfaceDecl : P Decl := do
  let t ← advance
  let nm ← expect .ident "interface name"
  let interfaces ← interfaceNames "extends" .kwExtends
  let c ← parseClassBody r ⟨nm, none, interfaces, [], [], true, false⟩
  return .interface t c

def traitDecl : P Decl := do
  let t ← advance
  let nm ← expect .ident "trait name"
  let c ← parseClassBody r ⟨nm, none, [], [], [], false, true⟩
  return .trait t c

def enumCase (cases : List EnumCase) : P (List EnumCase) := do
  let cn ← expect .ident "enum case"
  let value ← optional .assign r.assign
  skipNl
  let _ ← tsMatch .comma
  skipNl
  return cases ++ [⟨cn, value, cases.length⟩]

def enumDecl : P Decl := do
  let t ← advance
  let nm ← expect .ident "enum name"
  let backing ← optional .colon parseTy
  let _ ← expect .lbrace "'\x7b' to start enum body"
  skipNl
  let cases ← bracesLoop (enumCase r) []
  let _ ← expect .rbrace "'\x7d' to close enum body"
  expectNlOrSemi
  return .enm t ⟨nm, backing, cases⟩

def parseDecl : P Decl := fun s =>
  match s.kind with
  | .kwFn => fnDecl r s
  | .kwFunction => fnDecl r s
  | .kwClass => classDecl r s
  | .kwInterface => interfaceDecl r s
  | .kwTrait => traitDecl r s
  | .kwEnum => enumDecl r s
  | _ => fatalAt (tsPeek s.toks) (ascii "expected declaration") s

/-! ## programs -/

def importDecl (prog : Program) : P Program := do
  let t ← advance
  let pth ← expect .str "import path"
  expectNlOrSemi
  return { prog with imports := prog.imports ++ [⟨pth.text, t⟩] }

def startsDecl : List TokKind :=
  [.kwFn, .kwFunction, .kwClass, .kwInterface, .kwTrait, .kwEnum]

/-- what a file has at its top -/
def topLevel (prog : Program) : P Program := fun s =>
  if s.kind = .kwImport then importDecl prog s
  else if startsDecl.contains s.kind then
    (do
      let dl ← parseDecl r
      return { prog with decls := prog.decls ++ [dl] }) s
  else
    (do
      let st ← r.stmt
      return { prog with stmts := prog.stmts ++ [st] }) s

/-- a round of the loop of `parse_program` -/
def programRound (prog : Program) : P (Bool × Program) := do
  if ← check .eof then return (false, prog)
  else
    match ← matchAny [.newline, .semi] with
    | some _ => return (true, prog)
    | none => return (true, ← topLevel r prog)

def program : P Program := do
  skipNl
  whileLoop (programRound r) ⟨[], [], []⟩

/-! ## the calls -/

/-- the functions, where the calls may be this deep -/
def functions (embedded : Bytes → Except Halt Expr) : Nat → Rec
  | 0 => ⟨fun _ => .error .deep, fun _ => .error .deep, fun _ => .error .deep,
      fun _ => .error .deep, fun _ => .error .deep, embedded⟩
  | n + 1 =>
    let r := functions embedded n
    ⟨parseAssign r, parseTernary r, parsePow r, parseUnary r, parseStmt r, embedded⟩

/-- for so many tokens -/
def callDepth (ts : List Token) : Nat := 5 * ts.length + 10

/-- `parse_embedded_expr`; the first argument bounds the length of the text -/
def parseEmbeddedExpr (strtod : Bytes → Double) : Nat → Bytes → Except Halt Expr
  | 0, _ => .error .deep
  | n + 1, src =>
    match lexAll strtod src with
    | none => .error .deep
    | some (.error (.fatal line col msg)) => .error (.fatal line col msg)
    | some (.error .over) => .error .over
    | some (.ok ts) =>
      let r := functions (parseEmbeddedExpr strtod n) (callDepth ts)
      (r.assign ⟨ts, 0⟩).map Prod.fst

/-- the texts of embedded expressions are shorter -/
def sourceBound (ts : List Token) : Nat :=
  (ts.flatMap fun t => t.tpl.filterMap Prod.snd).foldr (fun e n => max (e.length + 1) n) 0

/-- `parse_program`, behind `lex_all` -/
def parseProgram (strtod : Bytes → Double) (ts : List Token) : Except Halt Program :=
  let r := functions (parseEmbeddedExpr strtod (sourceBound ts)) (callDepth ts)
  (program r ⟨ts, 0⟩).map Prod.fst

/-- **A run that ends**: no loop goes on without reading a token, and the calls are not as deep as
they may be. -/
def Ends {α : Type} (x : Except Halt α) : Prop := ∀ h, x = .error h → h ≠ .idle ∧ h ≠ .deep

end Grammar
end HolyPhp
