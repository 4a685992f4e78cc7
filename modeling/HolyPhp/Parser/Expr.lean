import HolyPhp.Runtime.Value

/-!
# Expressions: `parse_binop_level`, `parse_pow`, `parse_unary`, `parse_postfix`, `parse_primary`

The part of the parser of expressions that tokens of operands, operators and parentheses reach.
With these tokens `parse_expr` and `parse_ternary` add nothing to the first level: there is no
assignment, no `?` and no type behind a variable.  The end of the list is `T_EOF`.

A result `none` is a call of `fatal`, or that the fuel ran out; `parse` takes fuel for its input.
-/

set_option linter.unusedVariables false

namespace HolyPhp
namespace Parser

/-- the tokens of the operators -/
inductive OpTok where
  | oror | andand | pipe | caret | amp
  | eq | neq | neq2 | eq2 | spaceship
  | lt | gt | le | ge
  | dot | shl | shr | plus | minus | star | slash | percent | pow
  | not | tilde
  deriving DecidableEq, Repr

/-- an identifier that is not the `as` or `is` of a cast or a type test -/
abbrev Name := { s : Bytes // s ≠ [97, 115] ∧ s ≠ [105, 115] }

inductive Tok where
  | var (name : Bytes)
  | ident (name : Name)
  | int (i : Int64)
  | float (f : Double)
  | str (s : Bytes)
  | bool (b : Bool)
  | null
  | op (k : OpTok)
  | lparen
  | rparen

inductive Expr where
  | var (name : Bytes)
  /-- `bare` is `bare_name` -/
  | ident (name : Name) (bare : Bool)
  | int (i : Int64)
  | float (f : Double)
  | str (s : Bytes)
  | bool (b : Bool)
  | null
  | bin (op : OpTok) (l r : Expr)
  | un (op : OpTok) (operand : Expr)
  | borrow (operand : Expr)
  | deref (operand : Expr)
  | call (fn : Expr) (args : List Expr)
  /-- the tuple of `()` -/
  | empty

/-- the binary operator precedence table -/
def levels : List (List OpTok) :=
  [[.oror],
   [.andand],
   [.pipe],
   [.caret],
   [.amp],
   [.eq, .neq, .neq2, .eq2, .spaceship],
   [.lt, .gt, .le, .ge],
   [.dot],
   [.shl, .shr],
   [.plus, .minus],
   [.star, .slash, .percent]]

/-- a `T_AMP` before these tokens is a borrow; the test for `mut` looks at the `T_AMP` itself -/
def borrows : List Tok → Bool
  | .var _ :: _ => true
  | .op .amp :: _ => true
  | _ => false

/-- `e->kind != EX_VAR || !e->u.var.bare_name` -/
def callable : Expr → Bool
  | .ident _ bare => !bare
  | _ => true

mutual

def parseExpr : Nat → List Tok → Option (Expr × List Tok)
  | 0, _ => none
  | n + 1, ts => parseBinopLevel n 0 ts

def parseBinopLevel : Nat → Nat → List Tok → Option (Expr × List Tok)
  | 0, _, _ => none
  | n + 1, lvl, ts =>
    if levels.length ≤ lvl then parsePow n ts
    else (parseBinopLevel n (lvl + 1) ts).bind fun p => binopLoop n lvl p.1 p.2

/-- the `for (;;)` of `parse_binop_level` -/
def binopLoop : Nat → Nat → Expr → List Tok → Option (Expr × List Tok)
  | 0, _, _, _ => none
  | n + 1, lvl, l, ts =>
    match ts with
    | .op k :: rest =>
      if (levels.getD lvl []).contains k then
        (parseBinopLevel n (lvl + 1) rest).bind fun p => binopLoop n lvl (.bin k l p.1) p.2
      else some (l, ts)
    | _ => some (l, ts)

def parsePow : Nat → List Tok → Option (Expr × List Tok)
  | 0, _ => none
  | n + 1, ts =>
    (parseUnary n ts).bind fun p =>
      match p.2 with
      | .op .pow :: rest => (parsePow n rest).map fun q => (.bin .pow p.1 q.1, q.2)
      | _ => some p

def parseUnary : Nat → List Tok → Option (Expr × List Tok)
  | 0, _ => none
  | n + 1, ts =>
    match ts with
    | .op k :: rest =>
      if k = .not ∨ k = .minus ∨ k = .plus ∨ k = .tilde then
        (parseUnary n rest).map fun p => (.un k p.1, p.2)
      else if k = .amp ∧ borrows rest then (parseUnary n rest).map fun p => (.borrow p.1, p.2)
      else if k = .star then (parseUnary n rest).map fun p => (.deref p.1, p.2)
      else parsePostfix n ts
    | _ => parsePostfix n ts

def parsePostfix : Nat → List Tok → Option (Expr × List Tok)
  | 0, _ => none
  | n + 1, ts => (parsePrimary n ts).bind fun p => postfixLoop n p.1 p.2

/-- the `for (;;)` of `parse_postfix` -/
def postfixLoop : Nat → Expr → List Tok → Option (Expr × List Tok)
  | 0, _, _ => none
  | n + 1, e, ts =>
    match ts with
    | .lparen :: _ =>
      if callable e then (parseCallArgs n ts).bind fun p => postfixLoop n (.call e p.1) p.2
      else some (e, ts)
    | _ => some (e, ts)

/-- without commas there is one argument at most -/
def parseCallArgs : Nat → List Tok → Option (List Expr × List Tok)
  | 0, _ => none
  | n + 1, ts =>
    match ts with
    | .lparen :: .rparen :: rest => some ([], rest)
    | .lparen :: rest => (parseExpr n rest).bind fun p =>
      match p.2 with
      | .rparen :: rest => some ([p.1], rest)
      | _ => none
    | _ => none

def parsePrimary : Nat → List Tok → Option (Expr × List Tok)
  | 0, _ => none
  | n + 1, ts =>
    match ts with
    | .int i :: rest => some (.int i, rest)
    | .float f :: rest => some (.float f, rest)
    | .str s :: rest => some (.str s, rest)
    | .bool b :: rest => some (.bool b, rest)
    | .null :: rest => some (.null, rest)
    | .var x :: rest =>
      match rest with
      | .lparen :: _ => (parseCallArgs n rest).map fun p => (.call (.var x) p.1, p.2)
      | _ => some (.var x, rest)
    | .lparen :: rest =>
      match rest with
      | .rparen :: rest => some (.empty, rest)
      | _ => (parseExpr n rest).bind fun p =>
        match p.2 with
        | .rparen :: rest => some (p.1, rest)
        | _ => none
    | .ident x :: rest =>
      match rest with
      | .lparen :: _ => (parseCallArgs n rest).map fun p => (.call (.ident x true) p.1, p.2)
      | _ => some (.ident x false, rest)
    | _ => none

end

/-- `parse_expr` on the whole input -/
def parse (ts : List Tok) : Option (Expr × List Tok) := parseExpr (32 * ts.length + 32) ts

-- `1 + 2 * -$a ** 2`
example : parse [.int 1, .op .plus, .int 2, .op .star, .op .minus, .var [97], .op .pow, .int 2] =
    some (.bin .plus (.int 1) (.bin .star (.int 2)
      (.bin .pow (.un .minus (.var [97])) (.int 2))), []) := rfl

end Parser
end HolyPhp
