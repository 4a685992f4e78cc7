import HolyPhp.Runtime.Value

/-!
# Tokens

* `TokKind`, `keywords`, `kwLookup`  the kinds of tokens and the words that are keywords;
* `Token`                            a token, with all that the parser reads of it;
* `Place`                            the counters of the lexer, and what `adv` does to them.
-/

set_option autoImplicit false

namespace HolyPhp
namespace Lexer

inductive TokKind where
  | eof | error | ident | var | int | float | str | tpl
  | kwFn | kwLet | kwMut | kwOwn | kwUnsafe | kwMatch
  | kwIf | kwElse | kwElseif | kwWhile | kwFor | kwForeach
  | kwAs | kwIn | kwReturn | kwEcho | kwPrint | kwBreak | kwContinue
  | kwClass | kwExtends | kwImplements | kwInterface | kwTrait
  | kwNew | kwThis | kwSelf | kwParent | kwPublic | kwProtected
  | kwPrivate | kwStatic | kwAbstract | kwFinal | kwConst
  | kwEnum | kwImport | kwExport | kwUse | kwFunction
  | kwGlobal
  | kwTry | hphpThrow | hphpCatch | hphpFinally | hphpYield
  | kwSwitch | kwCase | kwDefault | kwDo
  | kwArrow
  | hphpTrue | hphpFalse | hphpNull
  | lparen | rparen | lbrace | rbrace | lbracket | rbracket
  | comma | semi | colon | coloncolon | arrow
  | doublearrow
  | fatarrow
  | plus | minus | star | slash | percent | pow
  | assign | plusassign | minusassign | starassign | slashassign
  | percentassign | dotassign | powassign | shlassign | shrassign
  | shl | shr
  | eq | neq | eq2 | neq2 | spaceship | lt | gt | le | ge
  | andand | oror | not | amp | pipe | caret | tilde | question
  | questionquestion | questioncolon | qqassign
  | dot | incr | decr
  | at_ | ellipsis | hash | backslash
  | newline
  | annotation
  deriving DecidableEq, Repr

def keywords : List (Bytes × TokKind) :=
  [(ascii "fn", .kwFn), (ascii "let", .kwLet), (ascii "mut", .kwMut), (ascii "own", .kwOwn),
   (ascii "unsafe", .kwUnsafe), (ascii "match", .kwMatch),
   (ascii "if", .kwIf), (ascii "else", .kwElse), (ascii "elseif", .kwElseif),
   (ascii "while", .kwWhile), (ascii "for", .kwFor), (ascii "foreach", .kwForeach),
   (ascii "as", .kwAs), (ascii "in", .kwIn), (ascii "return", .kwReturn), (ascii "echo", .kwEcho),
   (ascii "print", .kwPrint), (ascii "break", .kwBreak), (ascii "continue", .kwContinue),
   (ascii "class", .kwClass), (ascii "extends", .kwExtends), (ascii "implements", .kwImplements),
   (ascii "interface", .kwInterface), (ascii "trait", .kwTrait),
   (ascii "new", .kwNew), (ascii "this", .kwThis), (ascii "self", .kwSelf),
   (ascii "parent", .kwParent),
   (ascii "public", .kwPublic), (ascii "protected", .kwProtected), (ascii "private", .kwPrivate),
   (ascii "static", .kwStatic), (ascii "abstract", .kwAbstract), (ascii "final", .kwFinal),
   (ascii "const", .kwConst), (ascii "enum", .kwEnum),
   (ascii "import", .kwImport), (ascii "export", .kwExport), (ascii "use", .kwUse),
   (ascii "function", .kwFunction),
   (ascii "global", .kwGlobal),
   (ascii "try", .kwTry), (ascii "throw", .hphpThrow), (ascii "catch", .hphpCatch),
   (ascii "finally", .hphpFinally), (ascii "yield", .hphpYield),
   (ascii "switch", .kwSwitch), (ascii "case", .kwCase), (ascii "default", .kwDefault),
   (ascii "do", .kwDo),
   (ascii "true", .hphpTrue), (ascii "TRUE", .hphpTrue), (ascii "false", .hphpFalse),
   (ascii "FALSE", .hphpFalse), (ascii "null", .hphpNull), (ascii "NULL", .hphpNull)]

def kwLookup (s : Bytes) : TokKind :=
  ((keywords.find? fun p => p.1 = s).map Prod.snd).getD .ident

/-- `text` is what the pointer and the length give.  The parts of a template are its chunks with
the sources of the expressions behind them; the last one has none. -/
structure Token where
  kind : TokKind
  line : Nat
  col : Nat
  pos : Nat
  text : Bytes
  ival : Int64
  fval : Double
  tpl : List (Bytes × Option Bytes)

/-! ## characters, in the "C" locale -/

def isAlpha (c : UInt8) : Bool := (65 ≤ c && c ≤ 90) || (97 ≤ c && c ≤ 122)

def isXdigit (c : UInt8) : Bool := isDigit c || (65 ≤ c && c ≤ 70) || (97 ≤ c && c ≤ 102)

/-- `isalpha(c) || c == '_'` -/
def startsName (c : UInt8) : Bool := isAlpha c || c == 95

/-- `isalnum(c) || c == '_'` -/
def inName (c : UInt8) : Bool := isAlpha c || isDigit c || c == 95

/-- a `char *`: it ends at its first NUL -/
def cstr (s : Bytes) : Bytes := s.takeWhile (· != 0)

/-! ## the counters -/

structure Place where
  pos : Nat
  line : Nat
  col : Nat

/-- `lex_init` -/
def Place.start : Place := ⟨0, 1, 0⟩

/-- `adv` at the character `c` -/
def Place.adv (a : Place) (c : UInt8) : Place :=
  if c = 10 then ⟨a.pos + 1, a.line + 1, 1⟩ else ⟨a.pos + 1, a.line, a.col + 1⟩

end Lexer
end HolyPhp
