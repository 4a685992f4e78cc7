import HolyPhp.Lexer.Token
import HolyPhp.Runtime.Radix

/-!
# The lexer

The text is what lies between the cursor and the terminator.  Where the source has loops in loops
there is one function, and an argument says which loop it is in.  A result `none`, or `Stop.over`,
is a call of `adv` at the terminator.

* `skipTrivia`, `scanStr`, `scanRaw`  the loops over blanks, comments and string literals;
* `unescape`, `lexTemplateParts`      what becomes of the body of a literal;
* `lexNumber`, `punct`                the other tokens;
* `lexNext`, `lexRaw`                 one token, and all of them (the first loop of `lex_all`).
-/

set_option autoImplicit false

namespace HolyPhp
namespace Lexer
open Radix (baseNumber strtollBase)

/-- `peek` -/
def peek (s : Bytes) (off : Nat) : UInt8 := s.getD off 0

/-- `while (p(cur)) adv` -/
def advWhile (p : UInt8 → Bool) : Place → Bytes → Place × Bytes
  | a, [] => (a, [])
  | a, c :: s => if p c then advWhile p (a.adv c) s else (a, c :: s)

/-- what was read from `s` on: `set_text` -/
def taken (s rest : Bytes) : Bytes := s.take (s.length - rest.length)

/-! ## blanks and comments -/

inductive Trivia where
  | code
  | line
  | block

def skipTrivia : Trivia → Place → Bytes → Option (Place × Bytes)
  | .code, a, [] => some (a, [])
  | .code, a, c :: s =>
    if c = 32 ∨ c = 9 ∨ c = 13 then skipTrivia .code (a.adv c) s
    else if c = 47 ∧ peek s 0 = 47 then skipTrivia .line (a.adv c) s
    else if c = 35 ∧ peek s 0 ≠ 91 then skipTrivia .line (a.adv c) s
    else
      match s with
      | d :: t => if c = 47 ∧ d = 42 then skipTrivia .block ((a.adv c).adv d) t
          else some (a, c :: d :: t)
      | [] => some (a, [c])
  | .line, a, [] => some (a, [])
  -- the newline is no blank
  | .line, a, c :: s => if c = 10 then some (a, c :: s) else skipTrivia .line (a.adv c) s
  | .block, _, [] => none
  | .block, a, c :: s =>
    match s with
    | d :: t => if c = 42 ∧ d = 47 then skipTrivia .code ((a.adv c).adv d) t
        else skipTrivia .block (a.adv c) (d :: t)
    | [] => skipTrivia .block (a.adv c) []

/-! ## string literals -/

/-- the table of `unescape` -/
def escaped (e : UInt8) : Option UInt8 :=
  if e = 110 then some 10
  else if e = 116 then some 9
  else if e = 114 then some 13
  else if e = 48 then some 0
  else if e = 92 ∨ e = 34 ∨ e = 39 ∨ e = 36 then some e
  else none

def unescape : Bytes → Bytes
  | [] => []
  | [c] => [c]
  | c :: e :: s =>
    if c = 92 then
      (match escaped e with
        | some d => [d]
        | none => [92, e]) ++ unescape s
    else c :: unescape (e :: s)

/-- the text of a literal in single quotes -/
def unescapeRaw : Bytes → Bytes
  | [] => []
  | [c] => [c]
  | c :: e :: s =>
    if c = 92 ∧ (e = 39 ∨ e = 92) then e :: unescapeRaw s
    else c :: unescapeRaw (e :: s)

/-- the loop over the body, the one over `{$..}` with its depth, and the one over a literal in it -/
inductive StrLoop where
  | body
  | group (depth : Nat)
  | quote (q : UInt8) (depth : Nat)

/-- the loops of a literal in double quotes, up to the closing one or the end of the text; the
first part of the result is `has_interp` -/
def scanStr : StrLoop → Bool → Place → Bytes → Option (Bool × Place × Bytes)
  | .body, i, a, [] => some (i, a, [])
  | .body, i, a, c :: s =>
    if c = 34 then some (i, a, c :: s)
    else if c = 92 then
      match s with
      | [] => some (i, a.adv c, [])
      | d :: t => scanStr .body i ((a.adv c).adv d) t
    else if c = 123 ∧ peek s 0 = 36 then scanStr (.group 1) true (a.adv c) s
    else scanStr .body (i || (c == 36 && startsName (peek s 0))) (a.adv c) s
  | .group _, _, _, [] => none
  | .group n, i, a, c :: s =>
    if c = 34 ∨ c = 39 then scanStr (.quote c n) i (a.adv c) s
    else if c = 123 then scanStr (.group (n + 1)) i (a.adv c) s
    else if c = 125 then
      if n = 1 then scanStr .body i (a.adv c) s else scanStr (.group (n - 1)) i (a.adv c) s
    else scanStr (.group n) i (a.adv c) s
  | .quote _ _, _, _, [] => none
  | .quote q n, i, a, c :: s =>
    if c = q then scanStr (.group n) i (a.adv c) s
    else if c = 92 then
      match s with
      | [] => none
      | d :: t => scanStr (.quote q n) i ((a.adv c).adv d) t
    else scanStr (.quote q n) i (a.adv c) s

/-- the loop of a literal in single quotes -/
def scanRaw : Place → Bytes → Option (Place × Bytes)
  | a, [] => some (a, [])
  | a, c :: s =>
    if c = 39 then some (a, c :: s)
    else if c = 92 then
      match s with
      | [] => none
      | d :: t => scanRaw ((a.adv c).adv d) t
    else scanRaw (a.adv c) s

/-! ## templates -/

/-- the table of `lex_template_parts` -/
def tplEscaped (e : UInt8) : Option UInt8 :=
  if e = 110 then some 10
  else if e = 116 then some 9
  else if e = 114 then some 13
  else if e = 48 then some 0
  else if e = 34 ∨ e = 92 ∨ e = 36 then some e
  else none

/-- the loop over an expression in braces, and with `some q` the one over a literal in it: what is
in front of the brace that closes it, and what is behind that; there is one (`scanStr` found it) -/
def tplGroup : Option UInt8 → Nat → Bytes → Bytes × Bytes
  | _, _, [] => ([], [])
  | none, n, c :: s =>
    if c = 125 ∧ n = 1 then ([], s)
    else
      let r :=
        if c = 123 then tplGroup none (n + 1) s
        else if c = 125 then tplGroup none (n - 1) s
        else if c = 34 ∨ c = 39 then tplGroup (some c) n s
        else tplGroup none n s
      (c :: r.1, r.2)
  | some q, n, c :: s =>
    if c = q then
      let r := tplGroup none n s
      (c :: r.1, r.2)
    else
      match s with
      | [] => ([c], [])
      | d :: t =>
        if c = 92 then
          let r := tplGroup (some q) n t
          (c :: d :: r.1, r.2)
        else
          let r := tplGroup (some q) n (d :: t)
          (c :: r.1, r.2)

/-- the outer loop, with what `chunk` has; `fuel` bounds its rounds -/
def tplLoop : Nat → Bytes → Bytes → List (Bytes × Option Bytes)
  | 0, chunk, _ => [(cstr chunk, none)]
  | _ + 1, chunk, [] => [(cstr chunk, none)]
  | fuel + 1, chunk, c :: s =>
    if c = 92 ∧ s ≠ [] then
      let e := peek s 0
      tplLoop fuel (chunk ++ (match tplEscaped e with
        | some d => [d]
        | none => [92, e])) (s.drop 1)
    else if c = 36 ∧ startsName (peek s 0) then
      (cstr chunk, some (s.takeWhile inName)) :: tplLoop fuel [] (s.dropWhile inName)
    else if c = 123 ∧ peek s 0 = 36 then
      let r := tplGroup none 1 s
      (cstr chunk, some r.1) :: tplLoop fuel [] r.2
    else tplLoop fuel (chunk ++ [c]) s

/-- of the body `b` -/
def lexTemplateParts (b : Bytes) : List (Bytes × Option Bytes) := tplLoop b.length [] b

/-! ## numbers -/

/-- `strtoull(s, NULL, 16)` of hex digits; out of range it saturates -/
def strtoullHex (s : Bytes) : UInt64 :=
  let v := baseNumber 16 0 (Std.skip0x s)
  if v < 2 ^ 64 then UInt64.ofNat v else UInt64.ofNat (2 ^ 64 - 1)

def digitOrLine (c : UInt8) : Bool := isDigit c || c == 95

/-- the kind of a number with its text, its values and the cursor behind it -/
structure Number where
  kind : TokKind
  text : Bytes
  ival : Int64
  fval : Double
  place : Place
  rest : Bytes

section
variable (strtod : Bytes → Double)

/-- a point with digits behind it -/
def lexFraction (a : Place) (s : Bytes) : Bool × Place × Bytes :=
  if peek s 0 = 46 ∧ isDigit (peek s 1) then (true, advWhile digitOrLine (a.adv 46) (s.drop 1))
  else (false, a, s)

/-- an exponent; where no digit is in it, `pos` goes back and `col` does not -/
def lexExponent (a : Place) (s : Bytes) : Bool × Place × Bytes :=
  match s with
  | e :: t =>
    if e = 101 ∨ e = 69 then
      let (b, u) := match t with
        | g :: u => if g = 43 ∨ g = 45 then ((a.adv e).adv g, u) else (a.adv e, t)
        | [] => (a.adv e, t)
      if isDigit (peek u 0) then
        let (b, u) := advWhile isDigit b u
        (true, b, u)
      else (false, ⟨a.pos, b.line, b.col⟩, s)
    else (false, a, s)
  | [] => (false, a, s)

def lexNumber (a : Place) (s : Bytes) : Number :=
  if peek s 0 = 48 ∧ (peek s 1 = 120 ∨ peek s 1 = 88) then
    let (b, r) := advWhile isXdigit ((a.adv (peek s 0)).adv (peek s 1)) (s.drop 2)
    let t := taken s r
    ⟨.int, t, (strtoullHex (t.drop 2)).toInt64, ⟨0⟩, b, r⟩
  else if peek s 0 = 48 ∧ (peek s 1 = 98 ∨ peek s 1 = 66) then
    let (b, r) := advWhile (fun c => c == 48 || c == 49) ((a.adv (peek s 0)).adv (peek s 1))
      (s.drop 2)
    let t := taken s r
    ⟨.int, t, strtollBase 2 (t.drop 2), ⟨0⟩, b, r⟩
  else
    let d := advWhile digitOrLine a s
    let f := lexFraction d.1 d.2
    let e := lexExponent f.2.1 f.2.2
    let t := taken s e.2.2
    let clean := t.filter (· ≠ 95)
    if f.1 || e.1 then ⟨.float, t, 0, strtod clean, e.2.1, e.2.2⟩
    else ⟨.int, t, strtoll clean, ⟨0⟩, e.2.1, e.2.2⟩

/-! ## punctuation -/

/-- the tests of `matchc` behind the character `c`, and how many characters they take -/
def punct (c : UInt8) (s : Bytes) : Option (TokKind × Nat) :=
  if c = 40 then some (.lparen, 0)
  else if c = 41 then some (.rparen, 0)
  else if c = 123 then some (.lbrace, 0)
  else if c = 125 then some (.rbrace, 0)
  else if c = 91 then some (.lbracket, 0)
  else if c = 93 then some (.rbracket, 0)
  else if c = 44 then some (.comma, 0)
  else if c = 59 then some (.semi, 0)
  else if c = 35 then if peek s 0 = 91 then some ( TokKind.annotation, 1) else some (.hash, 0)
  else if c = 64 then some (.at_, 0)
  else if c = 92 then some (.backslash, 0)
  else if c = 58 then if peek s 0 = 58 then some (.coloncolon, 1) else some (.colon, 0)
  else if c = 43 then
    if peek s 0 = 43 then some (.incr, 1)
    else if peek s 0 = 61 then some (.plusassign, 1)
    else some (.plus, 0)
  else if c = 45 then
    if peek s 0 = 62 then some (.arrow, 1)
    else if peek s 0 = 45 then some (.decr, 1)
    else if peek s 0 = 61 then some (.minusassign, 1)
    else some (.minus, 0)
  else if c = 42 then
    if peek s 0 = 42 then some (.pow, 1)
    else if peek s 0 = 61 then some (.starassign, 1)
    else some (.star, 0)
  else if c = 47 then if peek s 0 = 61 then some (.slashassign, 1) else some (.slash, 0)
  else if c = 37 then if peek s 0 = 61 then some (.percentassign, 1) else some (.percent, 0)
  else if c = 61 then
    if peek s 0 = 61 then if peek s 1 = 61 then some (.eq2, 2) else some (.eq, 1)
    else if peek s 0 = 62 then some (.doublearrow, 1)
    else some (.assign, 0)
  else if c = 33 then
    if peek s 0 = 61 then if peek s 1 = 61 then some (.neq2, 2) else some (.neq, 1)
    else some (.not, 0)
  else if c = 60 then
    if peek s 0 = 61 then if peek s 1 = 62 then some (.spaceship, 2) else some (.le, 1)
    else if peek s 0 = 60 then if peek s 1 = 61 then some (.shlassign, 2) else some (.shl, 1)
    else if peek s 0 = 62 then some (.neq2, 1)
    else some (.lt, 0)
  else if c = 62 then
    if peek s 0 = 62 then if peek s 1 = 61 then some (.shrassign, 2) else some (.shr, 1)
    else if peek s 0 = 61 then some (.ge, 1)
    else some (.gt, 0)
  else if c = 38 then if peek s 0 = 38 then some (.andand, 1) else some (.amp, 0)
  else if c = 124 then if peek s 0 = 124 then some (.oror, 1) else some (.pipe, 0)
  else if c = 94 then some (.caret, 0)
  else if c = 126 then some (.tilde, 0)
  else if c = 46 then
    if peek s 0 = 61 then some (.dotassign, 1)
    -- the second of two dots is taken in any case
    else if peek s 0 = 46 then if peek s 1 = 46 then some (.ellipsis, 2) else some (.dot, 1)
    else some (.dot, 0)
  else if c = 63 then
    if peek s 0 = 63 then
      if peek s 1 = 61 then some (.qqassign, 2)
      else if peek s 1 = 58 then some (.questioncolon, 2)
      else some (.questionquestion, 1)
    else some (.question, 0)
  else if c = 10 then some (.newline, 0)
  else none

/-! ## one token -/

inductive Stop where
  /-- the text of the error, without the name of the file; not every one has a column -/
  | fatal (line : Nat) (col : Option Nat) (msg : Bytes)
  | over

/-- what `lex_next` returns, the token, and the cursor -/
structure Next where
  more : Bool
  tok : Token
  place : Place
  rest : Bytes

def unterminated : Bytes := ascii "unterminated string literal"

/-- `adv` at each of these characters -/
def Place.advs (a : Place) (s : Bytes) : Place := s.foldl Place.adv a

/-- the token that begins with `c`, behind blanks and comments; `a` is the place of `c` -/
def lexToken (a : Place) (c : UInt8) (s : Bytes) : Except Stop Next :=
  let t : Token := ⟨.error, a.line, a.col, a.pos, [], 0, ⟨0⟩, []⟩
  if startsName c then
    let (b, r) := advWhile inName a (c :: s)
    let w := taken (c :: s) r
    .ok ⟨true, { t with kind := kwLookup w, text := w }, b, r⟩
  else if isDigit c || (c == 46 && isDigit (peek s 0)) then
    let n := lexNumber strtod a (c :: s)
    .ok ⟨true, { t with kind := n.kind, text := n.text, ival := n.ival, fval := n.fval },
      n.place, n.rest⟩
  else if c = 34 then
    match scanStr .body false (a.adv c) s with
    | none => .error .over
    | some (_, _, []) => .error (.fatal a.line a.col unterminated)
    | some (interp, b, d :: r) =>
      let body := taken s (d :: r)
      if interp then
        .ok ⟨true, { t with kind := .tpl, text := body, tpl := lexTemplateParts body }, b.adv d, r⟩
      else .ok ⟨true, { t with kind := .str, text := cstr (unescape body) }, b.adv d, r⟩
  else if c = 39 then
    match scanRaw (a.adv c) s with
    | none => .error .over
    | some (_, []) => .error (.fatal a.line a.col unterminated)
    | some (b, d :: r) =>
      .ok ⟨true, { t with kind := .str, text := cstr (unescapeRaw (taken s (d :: r))) }, b.adv d, r⟩
  else if c = 36 then
    if startsName (peek s 0) then
      let (b, r) := advWhile inName (a.adv c) s
      .ok ⟨true, { t with kind := .var, text := taken s r }, b, r⟩
    else .error (.fatal a.line none (ascii "expected identifier after '$'"))
  else
    match punct c s with
    | none => .error (.fatal a.line a.col (ascii "unexpected character '" ++ c :: ascii "'"))
    | some (k, n) =>
      let w := s.take n
      .ok ⟨true, { t with kind := k, text := c :: w }, (a.adv c).advs w, s.drop n⟩

def lexNext (a : Place) (s : Bytes) : Except Stop Next :=
  match skipTrivia .code a s with
  | none => .error .over
  | some (b, []) => .ok ⟨false, ⟨.eof, b.line, b.col, b.pos, [], 0, ⟨0⟩, []⟩, b, []⟩
  | some (b, c :: r) => lexToken strtod b c r

/-! ## all tokens -/

/-- the first loop of `lex_all`; `fuel` bounds its rounds -/
def lexRaw : Nat → Place → Bytes → Option (Except Stop (List Token))
  | 0, _, _ => none
  | fuel + 1, a, s =>
    match lexNext strtod a s with
    | .error e => some (.error e)
    | .ok n =>
      if n.more then
        (lexRaw fuel n.place n.rest).map fun r => r.map (n.tok :: ·)
      else some (.ok [⟨.eof, n.tok.line, 0, 0, [], 0, ⟨0⟩, []⟩])

end

end Lexer
end HolyPhp
