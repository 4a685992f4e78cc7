import HolyPhp.Runtime.Value

/-!
# Types, expressions and statements as `check_expr` and `check_stmt` see them

A kind of expression that only checks parts of its own and then has a rule for its type is
`Expr.other`: the node lists the parts that `check_expr` checks, in its order, and carries the type
that the rule gives and whether it reports no error.  The kinds that use the scopes, the loans or
the moves have constructors of their own.  Types are resolved; a type that is not written is
`mixed` where the source takes it so.
-/

namespace HolyPhp
namespace Sema

/-! ## types -/

/-- the kinds of types without parts -/
inductive Prim where
  | error | int | i8 | i16 | i32 | i64 | float | f32 | f64
  | bool | string | void | mixed | tuple | self
  deriving DecidableEq, Repr

/-- `type_is_numeric` -/
def Prim.isNumeric : Prim → Bool
  | .int | .i8 | .i16 | .i32 | .i64 | .float | .f32 | .f64 => true
  | _ => false

/-- `type_is_integral` -/
def Prim.isIntegral : Prim → Bool
  | .int | .i8 | .i16 | .i32 | .i64 | .bool => true
  | _ => false

inductive Ty where
  | prim (k : Prim)
  | array (elem : Ty)
  | vec (elem : Ty)
  | map (key val : Ty)
  | set (elem : Ty)
  | ref (elem : Ty)
  | mutref (elem : Ty)
  | ptr (elem : Ty)
  | own (elem : Ty)
  | rc (elem : Ty)
  | struct (name : Bytes)
  | cls (name : Bytes)
  | iface (name : Bytes)
  | enum (name : Bytes)
  | fn (params : List Ty) (ret : Ty) (variadic : Bool)
  | option (elem : Ty)
  | result (ok err : Ty)
  deriving Repr

namespace Ty

def mixed : Ty := .prim .mixed
def int : Ty := .prim .int
def bool : Ty := .prim .bool
def string : Ty := .prim .string
def void : Ty := .prim .void

/-- the kind of a type without parts -/
def isPrim (k : Prim) : Ty → Bool
  | .prim j => j = k
  | _ => false

def isMixed : Ty → Bool := isPrim .mixed
def isString : Ty → Bool := isPrim .string
def isBool : Ty → Bool := isPrim .bool
def isVoid : Ty → Bool := isPrim .void

def isNumeric : Ty → Bool
  | .prim k => k.isNumeric
  | _ => false

/-- `TY_OWN` or `TY_RC` -/
def isSmart : Ty → Bool
  | .own _ => true
  | .rc _ => true
  | _ => false

def isOwn : Ty → Bool
  | .own _ => true
  | _ => false

/-- `TY_MIXED`, `TY_OPTION` or `TY_RESULT` -/
def isBoxed : Ty → Bool
  | .option _ => true
  | .result _ _ => true
  | t => t.isMixed

/-- the name of a nominal type -/
def name? : Ty → Option Bytes
  | .struct n => some n
  | .cls n => some n
  | .iface n => some n
  | .enum n => some n
  | _ => none

end Ty

mutual

/-- `types_equal` -/
def typesEqual : Ty → Ty → Bool
  | .prim j, .prim k =>
    j = k || (j.isIntegral && k.isIntegral) || (j.isNumeric && k.isNumeric)
  | .array a, .array b => a.isMixed || typesEqual a b
  | .vec a, .vec b => typesEqual a b
  | .set a, .set b => typesEqual a b
  | .option a, .option b => typesEqual a b
  | .ref a, .ref b => typesEqual a b
  | .mutref a, .mutref b => typesEqual a b
  | .ptr a, .ptr b => typesEqual a b
  | .own a, .own b => typesEqual a b
  | .rc a, .rc b => typesEqual a b
  | .map k v, .map k' v' => typesEqual k k' && typesEqual v v'
  | .result o e, .result o' e' => typesEqual o o' && typesEqual e e'
  | .fn ps r _, .fn qs r' _ => typesEqualAll ps qs && typesEqual r r'
  | .cls m, .cls n => m = n
  | .struct m, .struct n => m = n
  | .iface m, .iface n => m = n
  | .enum m, .enum n => m = n
  | _, _ => false

/-- as many parameters, and equal ones -/
def typesEqualAll : List Ty → List Ty → Bool
  | [], [] => true
  | p :: ps, q :: qs => typesEqual p q && typesEqualAll ps qs
  | _, _ => false

end

/-- `own<T>` goes where a `T` is wanted, and a class where `own` of it is -/
def ownCoerces : Ty → Ty → Bool
  | .cls n, .own (.cls m) => m = n
  | .cls n, .own (.struct m) => m = n
  | .struct n, .own (.cls m) => m = n
  | .struct n, .own (.struct m) => m = n
  | .own t, .cls n => t.name? = some n
  | _, _ => false

/-- the arms of `types_compatible` that do not look below `want` -/
def typesMatch (want got : Ty) : Bool :=
  want.isMixed || got.isBoxed || (match want, got with
    | .fn _ _ v, .fn _ _ w => v || w
    | _, .fn _ _ w => w
    | _, _ => false) ||
  typesEqual want got || (want.isNumeric && got.isNumeric) || ownCoerces want got

/-- `types_compatible`: `&T` accepts `T` -/
def typesCompatible : Ty → Ty → Bool
  | .ref e, got => typesMatch (.ref e) got || typesCompatible e got
  | want, got => typesMatch want got

/-! ## the tree -/

/-- a parameter; by `by_ref` it is `mut` too -/
structure Param where
  name : Bytes
  ty : Ty
  isMut : Bool
  byRef : Bool

/-- a variable of `use (..)` -/
structure UseVar where
  name : Bytes
  byRef : Bool

/-- `=`, `??=`, `.=`, `<<=` and `>>=`, the arithmetic ones -/
inductive AssignOp where
  | eq | qq | dot | shift | arith
  deriving DecidableEq, Repr

/-- what an assignment that is not to a variable assigns to; `other` is refused -/
inductive Target where
  | index | field | other
  deriving DecidableEq, Repr

/-- a slot of `[$a, , $b] = ..`; `other` is refused -/
inductive Slot where
  | skip
  | var (name : Bytes)
  | other

mutual

inductive Expr where
  | var (name : Bytes)
  /-- the target is a variable; there is no value in `$x: int;` -/
  | assign (name : Bytes) (op : AssignOp) (ann : Option Ty) (value : Option Expr)
  | store (kind : Target) (target : Expr) (op : AssignOp) (value : Expr)
  | destructure (keys : List Expr) (slots : List Slot) (value : Expr)
  | borrow (isMut : Bool) (operand : Expr)
  | closure (params : List Param) (uses : List UseVar) (ret : Option Ty) (body : List Stmt)
  /-- `compact` of the names; the other arguments are checked and dropped -/
  | compact (dropped : List Expr) (names : List Bytes)
  /-- `out` is the variable that `preg_match` declares before its arguments are checked -/
  | other (out : Option Bytes) (parts : List Part) (ty : Ty) (ok : Bool)

/-- a part of an expression; `maybe`: there are runs that leave it out -/
inductive Part where
  | mk (maybe : Bool) (e : Expr)

inductive Stmt where
  | expr (e : Expr)
  | global (names : List Bytes)
  | let_ (name : Bytes) (isMut : Bool) (ann : Option Ty) (init : Expr)
  | return_ (value : Option Expr)
  | echo (exprs : List Expr)
  | print (e : Expr)
  | if_ (cond : Expr) (then_ else_ : List Stmt)
  | while_ (cond : Expr) (body : List Stmt)
  | do_ (body : List Stmt) (cond : Expr)
  | switch_ (cond : Expr) (cases : List Case)
  | for_ (init : List Stmt) (cond : Option Expr) (step body : List Stmt)
  | foreach_ (iter : Expr) (var : Bytes) (kvar : Option Bytes) (body : List Stmt)
  | break_
  | continue_
  | block (stmts : List Stmt)
  | unsafeBlock (stmts : List Stmt)
  | try_ (body : List Stmt) (catches : List Catch) (fin : List Stmt)
  | throw_ (e : Expr)

inductive Case where
  | mk (patterns : List Expr) (body : List Stmt)

inductive Catch where
  | mk (ty : Ty) (var : Bytes) (body : List Stmt)

end

/-- a function with a body; the type of its results is `mixed` or `void` where none is written -/
structure Fn where
  params : List Param
  ret : Ty
  body : List Stmt

end Sema
end HolyPhp
