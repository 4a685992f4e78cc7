/-!
# The syntax tree, as its walks see it

The nodes with their children, in the fields of `Expr` and `Stmt`; of the other fields just the
symbols that sema has set, and the `AstFn` of a closure.  A pointer that may be null is a node
`null`.  The fields of a node are a union: the keys of an array literal stand in `elems`.
-/

set_option autoImplicit false

namespace HolyPhp
namespace Tree

/-- `VarSym`, by its address -/
structure VarSym where
  addr : Nat
  isAuto : Bool
  isParam : Bool
  isGlobalAlias : Bool
  isProgramGlobal : Bool
  deriving DecidableEq

mutual

inductive Expr where
  | null
  /-- `EX_INT`, `EX_FLOAT`, `EX_STR`, `EX_BOOL`, `EX_NULL` -/
  | literal
  | tpl (exprs : List Expr)
  | var (sym : Option VarSym)
  | index (obj idx : Expr)
  | field (obj : Expr)
  | call (fn : Expr) (args : List Expr)
  | method (obj : Expr) (args : List Expr)
  | static (args : List Expr)
  | new (args : List Expr)
  | bin (l r sliceHi : Expr)
  | un (operand : Expr)
  | assign (target value : Expr)
  | ternary (cond then_ els : Expr)
  | «match» (subject : Expr) (cases : List MatchCase) (dflt : Expr)
  | closure (fn : AstFn)
  /-- with values, the elements are their keys -/
  | arrayLit (elems vals : List Expr)
  | mapLit (keys vals : List Expr)
  | tupleLit (elems : List Expr)
  | borrow (operand : Expr)
  | mutBorrow (operand : Expr)
  | deref (operand : Expr)
  | cast (operand : Expr)
  | is (operand : Expr)
  | ellipsis (inner : Expr)

inductive MatchCase where
  | mk (patterns : List Expr) (body : Expr)

/-- `addr` is its address, `dflts` are the defaults of the parameters -/
inductive AstFn where
  | mk (addr : Nat) (dflts : List Expr) (captures : List VarSym) (body : List Stmt)

inductive Stmt where
  | expr (e : Expr)
  | let_ (sym : Option VarSym) (init : Expr)
  | return_ (value : Expr)
  | echo (exprs : List Expr)
  | print (e : Expr)
  | if_ (cond : Expr) (then_ els : List Stmt)
  | while_ (cond : Expr) (body : List Stmt)
  | for_ (init : List Stmt) (cond : Expr) (step body : List Stmt)
  | foreach (vsym ksym : Option VarSym) (iter : Expr) (body : List Stmt)
  /-- `ST_BREAK`, `ST_CONTINUE` -/
  | jump
  | block (stmts : List Stmt)
  | unsafe_ (stmts : List Stmt)
  | global
  | try_ (body : List Stmt) (catches : List CatchClause) (fin : List Stmt)
  | throw (e : Expr)
  | switch (cond : Expr) (cases : List SwitchCase)
  | do_ (body : List Stmt) (cond : Expr)

inductive SwitchCase where
  | mk (patterns : List Expr) (body : List Stmt)

inductive CatchClause where
  | mk (sym : Option VarSym) (body : List Stmt)

end

end Tree
end HolyPhp
