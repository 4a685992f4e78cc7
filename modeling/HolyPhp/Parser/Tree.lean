import HolyPhp.Lexer.Token
import HolyPhp.Sema.Ast

/-!
# The tree that the parser builds

What `parse_program` writes into the structures of `ast.h`.  A name that is stored with its token
is that token here.

* `Expr`, `Stmt`            expressions and statements, each with the token it begins with;
* `AstFn`, `AstClass`, `AstEnum`, `Decl`  declarations;
* `Program`                 what `parse_program` returns.
-/

set_option autoImplicit false

namespace HolyPhp
namespace Grammar
open Lexer
open Sema (Ty)

/-- `VIS_PUBLIC`, `VIS_PRIVATE`, `VIS_PROTECTED` -/
inductive Vis where
  | visPublic | visPrivate | visProtected

section
variable (E S : Type)

structure Param where
  name : Token
  type : Option Ty
  byRef : Bool
  isMut : Bool
  isOwn : Bool
  variadic : Bool
  dflt : Option E

structure AstFn where
  name : Bytes
  nameTok : Token
  params : List (Param E)
  useVars : List (Param E)
  ret : Option Ty
  retInferred : Bool
  body : List S
  isMethod : Bool
  isStatic : Bool
  isAbstract : Bool
  isCtor : Bool
  vis : Vis

structure MatchCase where
  patterns : List E
  body : E

structure SwitchCase where
  patterns : List E
  body : List S
  isDefault : Bool

structure CatchClause where
  type : Option Ty
  var : Token
  body : List S

end

mutual

inductive Expr where
  | mk (tok : Token) (node : Node)

inductive Node where
  | int (ival : Int64)
  | float (fval : Double)
  | str (s : Bytes)
  | tpl (strs : List Bytes) (exprs : List Expr)
  | boolean (b : Bool)
  | null
  | var (name : Bytes) (bareName : Bool)
  | index (obj : Expr) (idx : Option Expr)
  | field (obj : Expr) (name : Token) (isStatic : Bool)
  | call (fn : Expr) (args : List Expr)
  | method (obj : Expr) (name : Token) (args : List Expr)
  | staticcall (cls name : Bytes) (args : List Expr)
  | newexpr (cls : Bytes) (args : List Expr)
  | bin (op : Token) (l r : Expr)
  /-- an `EX_BIN` with `is_nullcoal` -/
  | nullcoal (op : Token) (l r : Expr)
  /-- an `EX_BIN` with `is_slice` -/
  | slice (op : Token) (l r : Expr) (sliceHi : Option Expr)
  | un (op : Token) (operand : Expr)
  | assign (op : Token) (target : Expr) (value : Option Expr) (ann : Option Ty) (isNullcoal : Bool)
  | tern (cond yes els : Expr)
  | matchexpr (subject : Expr) (cases : List (MatchCase Expr)) (dflt : Option Expr)
  | closure (fn : AstFn Expr Stmt)
  /-- `elems` is the memory of `keys`, too; an empty slot is `none` -/
  | arrayLit (elems : List (Option Expr)) (vals : List Expr)
  | tupleLit (elems : List Expr)
  | borrow (operand : Expr)
  | mutborrow (operand : Expr)
  | deref (operand : Expr)
  | cast (ty : Ty) (operand : Expr) (tyTok : Token)
  | ischeck (ty : Ty) (operand : Expr) (tyTok : Token)

inductive Stmt where
  | mk (tok : Token) (node : StmtNode)

inductive StmtNode where
  | expr (e : Expr)
  | letVar (name : Token) (isMut isOwn : Bool) (init : Option Expr) (ann : Option Ty)
  | ret (value : Option Expr)
  | echo (exprs : List Expr)
  | print (e : Expr)
  | ifElse (cond : Expr) (body els : List Stmt)
  | whileLoop (cond : Expr) (body : List Stmt)
  | forLoop (init : List Stmt) (cond : Option Expr) (step body : List Stmt)
  | foreach (iter : Expr) (kvar : Option Bytes) (var : Token) (body : List Stmt)
  | brk
  | cont
  | unsafeBlock (stmts : List Stmt)
  | globals (names : List Token)
  | tryCatch (body : List Stmt) (catches : List (CatchClause Stmt)) (fin : List Stmt)
  | throw (e : Expr)
  | switch (cond : Expr) (cases : List (SwitchCase Expr Stmt))
  | doWhile (body : List Stmt) (cond : Expr)

end

def Expr.tok : Expr → Token
  | mk tok _ => tok

/-- `e->kind == EX_VAR`, and then its name -/
def Expr.varName : Expr → Option Bytes
  | mk _ (.var name _) => some name
  | _ => none

/-- `e->kind != EX_VAR || !e->u.var.bare_name` -/
def Expr.callable : Expr → Bool
  | mk _ (.var _ bareName) => !bareName
  | _ => true

/-- `e->kind == EX_ARRAY_LIT` -/
def Expr.isArrayLit : Expr → Bool
  | mk _ (.arrayLit _ _) => true
  | _ => false

structure StructField where
  name : Token
  type : Option Ty
  vis : Vis
  isMut : Bool
  isStatic : Bool
  dflt : Option Expr

structure AstClass where
  name : Token
  base : Option Bytes
  interfaces : List Bytes
  fields : List StructField
  methods : List (AstFn Expr Stmt)
  isInterface : Bool
  isTrait : Bool

structure EnumCase where
  name : Token
  value : Option Expr
  index : Nat

structure AstEnum where
  name : Token
  backing : Option Ty
  cases : List EnumCase

inductive Decl where
  | fn (tok : Token) (fn : AstFn Expr Stmt)
  | cls (tok : Token) (cls : AstClass)
  | interface (tok : Token) (cls : AstClass)
  | trait (tok : Token) (cls : AstClass)
  | enm (tok : Token) (enm : AstEnum)

structure Import where
  path : Bytes
  tok : Token

structure Program where
  imports : List Import
  decls : List Decl
  stmts : List Stmt

end Grammar
end HolyPhp
