import HolyPhp.Json.Decode
import HolyPhp.Lib.Substr
import HolyPhp.Runtime.Cmp
import HolyPhp.Runtime.Radix

/-!
# `sprintf`

A directive is read into a buffer that stops at 24 bytes, and given to `printf` of C for the
numbers; `%s` and `%c` are written without it.  The result ends at its first NUL.

* `cPrintf`          what `printf` of C writes for an integer;
* `scanSpec`, `dirOut`, `sprintfRounds`, `hpbiSprintf`  the function;
* `Piece`, `Directive`, `render`   formats by their pieces;
* `Directive.formatted`, `expected`  what the pieces stand for;
* `Fits`, `Right`    the directive is read as a whole, and its argument is written right;
* `dirOut_iff`, `rounds_pieces`  the rounds write the pieces just if all of them are so;
* `sprintf_pieces`   **and the result is all of it just if there is no NUL.**
-/

set_option autoImplicit false

namespace HolyPhp
namespace Sprintf
open Arr (Val)
open HolyPhp.Std (hpValToStr strLit strLit_self strLit_eq_self_iff)
open Radix (digitChar magnitudeText magnitudeText_eq)
open Substr (takeWhile_stop takeWhile_upTo)

/-! ## integers in `printf` -/

/-- the part of a directive in front of its letter -/
structure Spec where
  flags : Bytes
  width : Bytes
  prec : Option Bytes
  deriving DecidableEq

def digitsValue (s : Bytes) : Nat := leadingNat 0 s

namespace Spec

def has (x : Spec) (c : Char) : Bool := x.flags.contains (UInt8.ofNat c.toNat)

def widthOf (x : Spec) : Nat := digitsValue x.width

def precOf (x : Spec) : Option Nat := x.prec.map digitsValue

/-- with blanks to the width -/
def pad (x : Spec) (s : Bytes) : Bytes :=
  if x.has '-' then s ++ List.replicate (x.widthOf - s.length) 32
  else List.replicate (x.widthOf - s.length) 32 ++ s

/-- the digits of a number with zeros to the precision; a 0 has none to the precision 0 -/
def digits (x : Spec) (base n : Nat) : Bytes :=
  let num := if n = 0 ∧ x.precOf = some 0 then [] else magnitudeText base n
  List.replicate (x.precOf.getD 1 - num.length) 48 ++ num

/-- a sign or `0x`, and digits; zeros to the width go in between -/
def number (x : Spec) (front body : Bytes) : Bytes :=
  if x.has '0' && !x.has '-' && x.prec.isNone then
    front ++ (List.replicate (x.widthOf - (front.length + body.length)) 48 ++ body)
  else x.pad (front ++ body)

def signed (x : Spec) (v : Int64) : Bytes :=
  let front := if v < 0 then [45] else if x.has '+' then [43] else if x.has ' ' then [32] else []
  x.number front (x.digits 10 v.toInt.natAbs)

def unsigned (x : Spec) (v : Int64) : Bytes := x.number [] (x.digits 10 v.toUInt64.toNat)

def octal (x : Spec) (v : Int64) : Bytes :=
  let body := x.digits 8 v.toUInt64.toNat
  x.number [] (if x.has '#' ∧ body.head? ≠ some 48 then 48 :: body else body)

def hex (x : Spec) (v : Int64) : Bytes :=
  x.number (if x.has '#' ∧ v ≠ 0 then ascii "0x" else []) (x.digits 16 v.toUInt64.toNat)

end Spec

/-- the letters of a directive -/
def letter (c : Char) : UInt8 := UInt8.ofNat c.toNat

def upperByte (c : UInt8) : UInt8 := if 97 ≤ c ∧ c ≤ 122 then c - 32 else c

/-- what C writes for the letter -/
def integer (x : Spec) (conv : UInt8) (v : Int64) : Bytes :=
  if conv = letter 'u' then x.unsigned v
  else if conv = letter 'o' then x.octal v
  else if conv = letter 'x' then x.hex v
  else if conv = letter 'X' then (x.hex v).map upperByte
  else x.signed v

/-- `buf_printf`: nothing is written where the length does not fit an `int` -/
def cPrintf (x : Spec) (conv : UInt8) (v : Int64) : Bytes :=
  if (integer x conv v).length < 2 ^ 31 then integer x conv v else []

/-! ## the function -/

/-- `strchr("-+ 0#", c)`, also where `c` is the NUL of the text -/
def isFlag (c : UInt8) : Bool := c = 45 || c = 43 || c = 32 || c = 48 || c = 35 || c = 0

/-- the precision, where there is a point -/
def scanPoint (flags width : Bytes) : Bytes → Spec × Bytes
  | 46 :: s =>
    let prec := (s.takeWhile isDigit).take (22 - flags.length - width.length)
    (⟨flags, width, some prec⟩, s.drop prec.length)
  | s => (⟨flags, width, none⟩, s)

/-- what goes into `spec`, and what is behind it; the buffer takes 23 bytes behind its `%`, and a
point -/
def scanSpec (s : Bytes) : Spec × Bytes :=
  let flags := (s.takeWhile isFlag).take 23
  let s := s.drop flags.length
  let width := (s.takeWhile isDigit).take (23 - flags.length)
  scanPoint flags width (s.drop width.length)

/-- the precision with its point -/
def Spec.dot (x : Spec) : Bytes := (x.prec.map (46 :: ·)).getD []

/-- `spec` behind its `%` -/
def Spec.text (x : Spec) : Bytes := x.flags ++ (x.width ++ x.dot)

/-- `spec` as a C string -/
def Spec.seen (x : Spec) : Spec :=
  if x.flags.contains 0 then ⟨x.flags.takeWhile (· ≠ 0), [], none⟩ else x

/-- `sscanf(s, "%*[^.]%*c%ld", &prec)` -/
def scanPrec (s : Bytes) : Int :=
  match s.takeWhile (· ≠ 46), s.dropWhile (· ≠ 46) with
  | _ :: _, _ :: t => (strtoll t).toInt
  | _, _ => 0

section
variable (fromDouble : Double → Bytes) (doublePrintf : Bytes → UInt8 → Double → Bytes)
  (strtod : Bytes → Double)

/-- `%s` -/
def strOut (x : Spec) (t : Bytes) : Bytes :=
  if x.text.getLast? = some 46 then
    let prec := scanPrec (strLit x.text)
    t.take (if prec < 0 ∨ (t.length : Int) < prec then t.length else prec.toNat)
  else t

def bitsOut (v : Int64) : Bytes :=
  (List.range 64).map fun i => if (v.toUInt64.toNat / 2 ^ (63 - i)) % 2 = 1 then 49 else 48

/-- what is written for a directive -/
def dirOut (x : Spec) (conv : UInt8) (v : Val) : Bytes :=
  if (ascii "diuxXo").contains conv then cPrintf x.seen conv (hpValToInt v)
  else if (ascii "fFeEgG").contains conv then
    doublePrintf (strLit (37 :: x.text)) conv (Cmp.hpValToFloat strtod v)
  else if conv = letter 's' then strOut x (hpValToStr fromDouble v)
  else if conv = letter 'c' then [UInt8.ofNat (hpValToInt v).toUInt64.toNat]
  else if conv = letter 'b' then bitsOut (hpValToInt v)
  else strLit (37 :: x.text) ++ [conv]

/-- what each round of the loop writes -/
def sprintfRounds : Nat → Bytes → List Val → List Bytes
  | 0, _, _ => []
  | _, [], _ => []
  | n + 1, c :: s, args =>
    if c ≠ 37 then [c] :: sprintfRounds n s args
    else match s with
    | [] => [[37]]
    | 37 :: s => [37] :: sprintfRounds n s args
    | s =>
      match scanSpec s with
      | (x, conv :: rest) =>
        if conv = 0 then [37] :: sprintfRounds n s args
        else dirOut fromDouble doublePrintf strtod x conv (args.headD .null) ::
            sprintfRounds n rest args.tail
      | (_, []) => [37] :: sprintfRounds n s args

/-- `args` are the elements of the array; any other argument is the only one -/
def hpbiSprintf (f : Bytes) (args : List Val) : Bytes :=
  strLit (sprintfRounds fromDouble doublePrintf strtod f.length f args).flatten

end

/-! ## formats -/

inductive Conv where
  | d | x | o | s | c
  deriving DecidableEq

def Conv.byte : Conv → UInt8
  | d => letter 'd'
  | x => letter 'x'
  | o => letter 'o'
  | s => letter 's'
  | c => letter 'c'

structure Directive where
  spec : Spec
  conv : Conv

inductive Piece where
  | lit (c : UInt8)
  | percent
  | dir (d : Directive)

def Piece.text : Piece → Bytes
  | .lit c => [c]
  | .percent => [37, 37]
  | .dir d => 37 :: (d.spec.text ++ [d.conv.byte])

def render (ps : List Piece) : Bytes := ps.flatMap Piece.text

/-- a literal is no `%`; the flags are flags, and the width does not begin with one -/
def Piece.Ok : Piece → Prop
  | .lit c => c ≠ 37
  | .percent => True
  | .dir d => d.spec.flags.all (fun c => isFlag c ∧ c ≠ 0) = true ∧
      d.spec.width.all isDigit = true ∧ d.spec.width.head? ≠ some 48 ∧
      ∀ p ∈ d.spec.prec, p.all isDigit = true

instance : DecidablePred Piece.Ok
  | .lit _ => inferInstanceAs (Decidable (_ ≠ _))
  | .percent => inferInstanceAs (Decidable True)
  | .dir _ => inferInstanceAs (Decidable (_ ∧ _ ∧ _ ∧ _))

section
variable (fromDouble : Double → Bytes)

/-- what a directive stands for -/
def Directive.formatted (d : Directive) (v : Val) : Bytes :=
  match d.conv with
  | .s => d.spec.pad ((hpValToStr fromDouble v).take
      (d.spec.precOf.getD (hpValToStr fromDouble v).length))
  | .c => d.spec.pad [UInt8.ofNat (hpValToInt v).toUInt64.toNat]
  | _ => integer d.spec d.conv.byte (hpValToInt v)

/-- what the pieces stand for; a directive takes the next argument -/
def expected : List Piece → List Val → List Bytes
  | [], _ => []
  | .lit c :: ps, args => [c] :: expected ps args
  | .percent :: ps, args => [37] :: expected ps args
  | .dir d :: ps, args => d.formatted fromDouble (args.headD .null) :: expected ps args.tail

/-- flags, width and precision fit the buffer -/
def Fits (d : Directive) : Prop :=
  d.spec.flags.length + d.spec.width.length ≤ 23 ∧
    ∀ p ∈ d.spec.prec, p = [] ∨ d.spec.flags.length + d.spec.width.length + p.length ≤ 22

/-- a text that neither the width nor the precision changes; what the precision cuts off may be
blanks that the width puts back -/
def Unchanged (x : Spec) (t : Bytes) : Prop :=
  x.widthOf ≤ t.length ∧ t.length ≤ x.precOf.getD t.length ∨
    x.widthOf = t.length ∧
      (if x.has '-' then t.drop (x.precOf.getD t.length) else t).all (· = 32) = true

/-- a number that fits an `int` in length, a text that stays unchanged or a point alone without a
width, a character without a width -/
def Right (d : Directive) (v : Val) : Prop :=
  match d.conv with
  | .s => if d.spec.prec = some [] then d.spec.widthOf = 0
      else Unchanged d.spec (hpValToStr fromDouble v)
  | .c => d.spec.widthOf ≤ 1
  | _ => (d.formatted fromDouble v).length < 2 ^ 31

/-- the bytes of the argument that are written are no NUL -/
def NoNul (d : Directive) (v : Val) : Prop :=
  match d.conv with
  | .s => d.spec.prec = some [] ∨ 0 ∉ hpValToStr fromDouble v
  | .c => UInt8.ofNat (hpValToInt v).toUInt64.toNat ≠ 0
  | _ => True

def NoNulIn : List Piece → List Val → Prop
  | [], _ => True
  | .lit c :: ps, args => c ≠ 0 ∧ NoNulIn ps args
  | .percent :: ps, args => NoNulIn ps args
  | .dir d :: ps, args => NoNul fromDouble d (args.headD .null) ∧ NoNulIn ps args.tail

/-- every directive fits and is right for its argument -/
def AllRight : List Piece → List Val → Prop
  | [], _ => True
  | .dir d :: ps, args => Fits d ∧ Right fromDouble d (args.headD .null) ∧ AllRight ps args.tail
  | _ :: ps, args => AllRight ps args

instance (d : Directive) : Decidable (Fits d) := inferInstanceAs (Decidable (_ ∧ _))

instance (x : Spec) (t : Bytes) : Decidable (Unchanged x t) := inferInstanceAs (Decidable (_ ∨ _))

instance : ∀ (d : Directive) (v : Val), Decidable (Right fromDouble d v)
  | ⟨x, .s⟩, v => inferInstanceAs (Decidable
      (if x.prec = some [] then x.widthOf = 0 else Unchanged x (hpValToStr fromDouble v)))
  | ⟨_, .c⟩, _ => inferInstanceAs (Decidable (_ ≤ _))
  | ⟨_, .d⟩, _ | ⟨_, .x⟩, _ | ⟨_, .o⟩, _ => inferInstanceAs (Decidable (_ < _))

instance : ∀ (d : Directive) (v : Val), Decidable (NoNul fromDouble d v)
  | ⟨_, .s⟩, _ => inferInstanceAs (Decidable (_ ∨ _))
  | ⟨_, .c⟩, _ => inferInstanceAs (Decidable (_ ≠ _))
  | ⟨_, .d⟩, _ | ⟨_, .x⟩, _ | ⟨_, .o⟩, _ => inferInstanceAs (Decidable True)

instance decAllRight : ∀ ps args, Decidable (AllRight fromDouble ps args)
  | [], _ => inferInstanceAs (Decidable True)
  | .lit _ :: ps, args | .percent :: ps, args => decAllRight ps args
  | .dir _ :: ps, args =>
    have := decAllRight ps args.tail
    inferInstanceAs (Decidable (_ ∧ _ ∧ _))

instance decNoNulIn : ∀ ps args, Decidable (NoNulIn fromDouble ps args)
  | [], _ => inferInstanceAs (Decidable True)
  | .lit _ :: ps, args =>
    have := decNoNulIn ps args
    inferInstanceAs (Decidable (_ ∧ _))
  | .percent :: ps, args => decNoNulIn ps args
  | .dir _ :: ps, args =>
    have := decNoNulIn ps args.tail
    inferInstanceAs (Decidable (_ ∧ _))

end

/-! ## reading a directive -/

section
variable {fromDouble : Double → Bytes} {doublePrintf : Bytes → UInt8 → Double → Bytes}
  {strtod : Bytes → Double} {d : Directive} {v : Val} {c : UInt8} {s r : Bytes}

theorem conv_byte (k : Conv) : isFlag k.byte = false ∧ isDigit k.byte = false ∧ k.byte ≠ 46 ∧
    k.byte ≠ 37 ∧ k.byte ≠ 0 := by
  cases k <;> decide

theorem digit_byte (h : isDigit c = true) :
    (isFlag c = true → c = 48) ∧ c ≠ 46 ∧ c ≠ 37 ∧ c ≠ 0 := by
  have hall : ∀ n < 256, isDigit (UInt8.ofNat n) = true → (isFlag (UInt8.ofNat n) = true →
      UInt8.ofNat n = 48) ∧ UInt8.ofNat n ≠ 46 ∧ UInt8.ofNat n ≠ 37 ∧ UInt8.ofNat n ≠ 0 := by
    decide +kernel
  have hc := hall c.toNat (UInt8.toNat_lt c)
  rw [UInt8.ofNat_toNat] at hc
  exact hc h

theorem flag_of (hok : (Piece.dir d).Ok) (hc : c ∈ d.spec.flags) : isFlag c = true ∧ c ≠ 0 :=
  of_decide_eq_true (List.all_eq_true.mp hok.1 c hc)

theorem flag_byte (h : isFlag c = true) : c ≠ 37 := by
  rintro rfl
  cases h

/-- behind the flags there is none -/
theorem head_width (hw : d.spec.width.all isDigit = true) (h0 : d.spec.width.head? ≠ some 48)
    (k : Conv) (r : Bytes) :
    ∀ c ∈ (d.spec.width ++ (d.spec.dot ++ k.byte :: r)).head?, isFlag c = false := by
  intro c hc
  cases hwidth : d.spec.width with
  | cons a w =>
    rw [hwidth] at hc hw h0
    obtain rfl := Option.some.inj hc
    rw [List.all_cons, Bool.and_eq_true] at hw
    rw [Bool.eq_false_iff]
    intro hf
    exact h0 (congrArg some ((digit_byte hw.1).1 hf))
  | nil =>
    rw [hwidth, List.nil_append, Spec.dot] at hc
    cases hp : d.spec.prec with
    | none =>
      rw [hp] at hc
      obtain rfl := Option.some.inj hc
      exact (conv_byte k).1
    | some p =>
      rw [hp] at hc
      obtain rfl := Option.some.inj hc
      rfl

/-- behind the width there is no digit -/
theorem head_dot (x : Spec) (k : Conv) (r : Bytes) :
    ∀ c ∈ (x.dot ++ k.byte :: r).head?, isDigit c = false := by
  intro c hc
  unfold Spec.dot at hc
  cases hp : x.prec with
  | none =>
    rw [hp] at hc
    obtain rfl := Option.some.inj hc
    exact (conv_byte k).2.1
  | some p =>
    rw [hp] at hc
    obtain rfl := Option.some.inj hc
    rfl

theorem scanPoint_none (f w : Bytes) (h : ∀ c ∈ s.head?, c ≠ 46) :
    scanPoint f w s = (⟨f, w, none⟩, s) := by
  unfold scanPoint
  split
  · exact absurd rfl (h 46 rfl)
  · rfl

/-- the flags that are read, and what is behind them -/
theorem scan_flags (hok : (Piece.dir d).Ok) (r : Bytes) :
    ((d.spec.text ++ d.conv.byte :: r).takeWhile isFlag).take 23 = d.spec.flags.take 23 ∧
      (d.spec.text ++ d.conv.byte :: r).drop (d.spec.flags.take 23).length =
        d.spec.flags.drop 23 ++ (d.spec.width ++ (d.spec.dot ++ d.conv.byte :: r)) := by
  rw [Spec.text, List.append_assoc, List.append_assoc]
  exact takeWhile_upTo (fun c hc => (flag_of hok hc).1) (head_width hok.2.1 hok.2.2.1 d.conv r) 23

/-- the width that is read, and what is behind it -/
theorem scan_width (hok : (Piece.dir d).Ok) (n : Nat) (r : Bytes) :
    let t := d.spec.width ++ (d.spec.dot ++ d.conv.byte :: r)
    (t.takeWhile isDigit).take n = d.spec.width.take n ∧
      t.drop (d.spec.width.take n).length =
        d.spec.width.drop n ++ (d.spec.dot ++ d.conv.byte :: r) :=
  takeWhile_upTo (List.all_eq_true.mp hok.2.1) (head_dot d.spec d.conv r) n

/-- with the flags and the width in the buffer, the precision is read up to its end -/
theorem scanPoint_dot (hok : (Piece.dir d).Ok) (r : Bytes) : ∃ l, l <:+ d.spec.dot ∧
    (scanPoint d.spec.flags d.spec.width (d.spec.dot ++ d.conv.byte :: r)).2 =
      l ++ d.conv.byte :: r ∧
    (l = [] ↔ ∀ p ∈ d.spec.prec, p = [] ∨
      d.spec.flags.length + d.spec.width.length + p.length ≤ 22) ∧
    (l = [] → (scanPoint d.spec.flags d.spec.width (d.spec.dot ++ d.conv.byte :: r)).1 =
      d.spec) := by
  cases hp : d.spec.prec with
  | none =>
    have hdot : d.spec.dot = [] := by rw [Spec.dot, hp]; rfl
    have hhead : ∀ c ∈ (d.conv.byte :: r).head?, c ≠ 46 := by
      intro c hc
      obtain rfl := Option.some.inj hc
      exact (conv_byte d.conv).2.2.1
    rw [hdot, List.nil_append, scanPoint_none _ _ hhead]
    refine ⟨[], List.suffix_refl _, rfl, ⟨fun _ p hp => (nomatch hp), fun _ => rfl⟩, fun _ => ?_⟩
    rw [← hp]
  | some p =>
    have hdot : d.spec.dot = 46 :: p := by rw [Spec.dot, hp]; rfl
    have hnext : ∀ c ∈ (d.conv.byte :: r).head?, isDigit c = false := by
      intro c hc
      obtain rfl := Option.some.inj hc
      exact (conv_byte d.conv).2.1
    obtain ⟨htake, hdrop⟩ := takeWhile_upTo (List.all_eq_true.mp (hok.2.2.2 p hp)) hnext
      (22 - d.spec.flags.length - d.spec.width.length)
    have hscan : scanPoint d.spec.flags d.spec.width (d.spec.dot ++ d.conv.byte :: r) =
        (⟨d.spec.flags, d.spec.width,
          some (p.take (22 - d.spec.flags.length - d.spec.width.length))⟩,
          p.drop (22 - d.spec.flags.length - d.spec.width.length) ++ d.conv.byte :: r) := by
      rw [hdot, List.cons_append, scanPoint, htake, hdrop]
    have hnil : p.drop (22 - d.spec.flags.length - d.spec.width.length) = [] ↔
        p = [] ∨ d.spec.flags.length + d.spec.width.length + p.length ≤ 22 := by
      rw [List.drop_eq_nil_iff, ← List.length_eq_zero_iff]
      omega
    refine ⟨_, ?_, congrArg Prod.snd hscan, ?_, fun hl => ?_⟩
    · rw [hdot]
      exact (List.drop_suffix _ _).trans (List.suffix_cons 46 p)
    · rw [hnil]
      exact ⟨fun h q hq => Option.some.inj hq ▸ h, fun h => h p rfl⟩
    · rw [hscan, List.take_of_length_le (List.drop_eq_nil_iff.mp hl), ← hp]

/-- with a full buffer only a point is read -/
theorem scanPoint_full (f w : Bytes) (hs : s ≠ []) (h46 : ∀ c ∈ s, c ≠ 46) (r : Bytes) :
    (scanPoint f w (s ++ r)).2 = s ++ r := by
  rw [scanPoint_none]
  intro c hc
  rw [List.head?_append_of_ne_nil s hs] at hc
  exact h46 c (List.mem_of_mem_head? hc)

/-- the text is read up to its end just if it fits -/
theorem scanSpec_text (hok : (Piece.dir d).Ok) (r : Bytes) : ∃ l, l <:+ d.spec.text ∧
    (scanSpec (d.spec.text ++ d.conv.byte :: r)).2 = l ++ d.conv.byte :: r ∧
    (l = [] ↔ Fits d) ∧
    (l = [] → (scanSpec (d.spec.text ++ d.conv.byte :: r)).1 = d.spec) := by
  obtain ⟨hflags, hbehind⟩ := scan_flags hok r
  unfold scanSpec
  rw [hflags]
  dsimp only
  rw [hbehind]
  rcases Nat.lt_or_ge 23 d.spec.flags.length with hlt | hle
  · -- the buffer is full of flags
    have hne : d.spec.flags.drop 23 ≠ [] := by
      rw [ne_eq, List.drop_eq_nil_iff]
      omega
    have h46 : ∀ c ∈ d.spec.flags.drop 23, c ≠ 46 := by
      rintro c hc rfl
      exact absurd (flag_of hok (List.mem_of_mem_drop hc)).1 (by decide)
    refine ⟨d.spec.flags.drop 23 ++ (d.spec.width ++ d.spec.dot), ?_, ?_, ?_, ?_⟩
    · exact ⟨d.spec.flags.take 23, by rw [← List.append_assoc, List.take_append_drop]; rfl⟩
    · rw [List.length_take, Nat.min_eq_left (by omega), Nat.sub_self, List.take_zero,
        List.length_nil, List.drop_zero, scanPoint_full _ _ hne h46]
      simp only [List.append_assoc]
    · refine iff_of_false (fun h => hne (List.append_eq_nil_iff.mp h).1) fun h => ?_
      exact absurd h.1 (by omega)
    · exact fun h => absurd (List.append_eq_nil_iff.mp h).1 hne
  · rw [List.take_of_length_le hle, List.drop_eq_nil_of_le hle, List.nil_append]
    obtain ⟨hwidth, hbehind⟩ := scan_width hok (23 - d.spec.flags.length) r
    rw [hwidth, hbehind]
    rcases Nat.lt_or_ge (23 - d.spec.flags.length) d.spec.width.length with hlt | hle
    · -- the buffer is full of digits
      have hne : d.spec.width.drop (23 - d.spec.flags.length) ≠ [] := by
        rw [ne_eq, List.drop_eq_nil_iff]
        omega
      have h46 : ∀ c ∈ d.spec.width.drop (23 - d.spec.flags.length), c ≠ 46 := fun c hc =>
        (digit_byte (List.all_eq_true.mp hok.2.1 c (List.mem_of_mem_drop hc))).2.1
      refine ⟨d.spec.width.drop (23 - d.spec.flags.length) ++ d.spec.dot, ?_, ?_, ?_, ?_⟩
      · refine ⟨d.spec.flags ++ d.spec.width.take (23 - d.spec.flags.length), ?_⟩
        rw [List.append_assoc, ← List.append_assoc (d.spec.width.take _), List.take_append_drop]
        rfl
      · rw [scanPoint_full _ _ hne h46]
        simp only [List.append_assoc]
      · refine iff_of_false (fun h => hne (List.append_eq_nil_iff.mp h).1) fun h => ?_
        exact absurd h.1 (by omega)
      · exact fun h => absurd (List.append_eq_nil_iff.mp h).1 hne
    · rw [List.take_of_length_le hle, List.drop_eq_nil_of_le hle, List.nil_append]
      obtain ⟨l, hl, hrest, hfit, hspec⟩ := scanPoint_dot hok r
      refine ⟨l, hl.trans ⟨d.spec.flags ++ d.spec.width, ?_⟩, hrest, ?_, hspec⟩
      · rw [List.append_assoc]
        rfl
      · rw [hfit, Fits, and_iff_right (by omega)]

/-! ## what is written for a directive -/

theorem seen_eq (hok : (Piece.dir d).Ok) : d.spec.seen = d.spec := by
  rw [Spec.seen, if_neg]
  rw [List.contains_iff_mem]
  exact fun h => (flag_of hok h).2 rfl

/-- no byte of a directive is a `%` or a NUL -/
theorem text_plain (hok : (Piece.dir d).Ok) : ∀ c ∈ d.spec.text, c ≠ 37 ∧ c ≠ 0 := by
  intro c hc
  rcases List.mem_append.mp hc with hflag | hc
  · exact ⟨flag_byte (flag_of hok hflag).1, (flag_of hok hflag).2⟩
  · rcases List.mem_append.mp hc with hwidth | hdot
    · exact (digit_byte (List.all_eq_true.mp hok.2.1 c hwidth)).2.2
    · cases hp : d.spec.prec with
      | none =>
        rw [Spec.dot, hp] at hdot
        exact (nomatch hdot)
      | some p =>
        rw [Spec.dot, hp] at hdot
        rcases List.mem_cons.mp hdot with rfl | hmem
        · decide
        · exact (digit_byte (List.all_eq_true.mp (hok.2.2.2 p hp) c hmem)).2.2

/-- the text ends with a point just if the precision has no digits -/
theorem text_getLast (hok : (Piece.dir d).Ok) :
    d.spec.text.getLast? = some 46 ↔ d.spec.prec = some [] := by
  cases hp : d.spec.prec with
  | none =>
    refine iff_of_false (fun h => ?_) (by simp)
    rw [Spec.text, Spec.dot, hp, Option.map_none, Option.getD_none, List.append_nil] at h
    rcases List.mem_append.mp (List.mem_of_getLast? h) with hmem | hmem
    · exact absurd (flag_of hok hmem).1 (by decide)
    · exact absurd (List.all_eq_true.mp hok.2.1 46 hmem) (by decide)
  | some p =>
    rw [Spec.text, Spec.dot, hp, Option.map_some, Option.getD_some, ← List.append_assoc,
      List.getLast?_append_of_ne_nil _ (List.cons_ne_nil _ _), Option.some.injEq]
    cases p with
    | nil => exact iff_of_true rfl rfl
    | cons a p =>
      refine iff_of_false (fun h => ?_) (List.cons_ne_nil a p)
      rw [List.getLast?_cons_cons] at h
      exact absurd (List.all_eq_true.mp (hok.2.2.2 _ hp) 46 (List.mem_of_getLast? h)) (by decide)

/-- no precision is ever read: nothing is behind the point -/
theorem scanPrec_point (hs : ∀ c ∈ s, c ≠ 46) : scanPrec (s ++ [46]) = 0 := by
  obtain ⟨htake, hdrop⟩ := takeWhile_stop (p := fun c : UInt8 => c ≠ 46) (l := s) (r := [46])
    (fun c hc => decide_eq_true (hs c hc)) fun c hc => by
      obtain rfl := Option.some.inj hc
      rfl
  rw [scanPrec, htake, hdrop]
  cases s with
  | nil => rfl
  | cons => rfl

theorem strOut_eq (hok : (Piece.dir d).Ok) (t : Bytes) :
    strOut d.spec t = if d.spec.prec = some [] then [] else t := by
  rw [strOut]
  by_cases hp : d.spec.prec = some []
  · have hpre : ∀ c ∈ d.spec.flags ++ d.spec.width, c ≠ 46 := by
      rintro c hc rfl
      rcases List.mem_append.mp hc with hmem | hmem
      · exact absurd (flag_of hok hmem).1 (by decide)
      · exact absurd (List.all_eq_true.mp hok.2.1 46 hmem) (by decide)
    have htext : d.spec.text = d.spec.flags ++ d.spec.width ++ [46] := by
      rw [Spec.text, Spec.dot, hp, List.append_assoc]
      rfl
    have hprec : scanPrec (strLit d.spec.text) = 0 := by
      rw [strLit_self fun c hc => (text_plain hok c hc).2, htext, scanPrec_point hpre]
    rw [if_pos ((text_getLast hok).mpr hp), if_pos hp, hprec]
    dsimp only
    rw [if_neg (by omega)]
    rfl
  · rw [if_neg (mt (text_getLast hok).mp hp), if_neg hp]

/-! ## padding -/

theorem pad_length (x : Spec) (t : Bytes) : (x.pad t).length = max x.widthOf t.length := by
  rw [Spec.pad]
  split <;> rw [List.length_append, List.length_replicate] <;> omega

theorem pad_eq_self_iff (x : Spec) (t : Bytes) : x.pad t = t ↔ x.widthOf ≤ t.length := by
  constructor
  · intro h
    have := congrArg List.length h
    rw [pad_length] at this
    omega
  · intro h
    rw [Spec.pad, Nat.sub_eq_zero_of_le h, List.replicate_zero, List.append_nil, List.nil_append,
      ite_self]

/-- a text that begins with blanks and goes on like itself is blank -/
theorem blank_of_shift {k : Nat} (hk : 0 < k) {t : Bytes}
    (h : List.replicate k 32 ++ t.take (t.length - k) = t) : ∀ c ∈ t, c = 32 := by
  have hget : ∀ i (hi : i < t.length), t[i] = 32 := by
    intro i
    induction i using Nat.strong_induction_on with
    | h i ih =>
      intro hi
      have hi' : i < (List.replicate k 32 ++ t.take (t.length - k)).length := by rwa [h]
      rw [← List.getElem_of_eq h hi']
      rcases Nat.lt_or_ge i k with hlt | hge
      · rw [List.getElem_append_left (by rwa [List.length_replicate]), List.getElem_replicate]
      · rw [List.getElem_append_right (by rwa [List.length_replicate]), List.getElem_take]
        exact ih _ (by rw [List.length_replicate]; omega) _
  intro c hc
  obtain ⟨i, hi, rfl⟩ := List.getElem_of_mem hc
  exact hget i hi

theorem all_blank (t : Bytes) : t.all (· = 32) = true ↔ ∀ c ∈ t, c = 32 := by
  rw [List.all_eq_true]
  exact forall₂_congr fun _ _ => decide_eq_true_iff

/-- a text that is cut comes back just if the rest of it is blank -/
theorem pad_take_iff (x : Spec) {n : Nat} {t : Bytes} (hn : n < t.length) :
    x.pad (t.take n) = t ↔
      x.widthOf = t.length ∧ (if x.has '-' then t.drop n else t).all (· = 32) = true := by
  rw [all_blank]
  have hlen : (t.take n).length = n := by rw [List.length_take]; omega
  constructor
  · intro h
    have hwidth : x.widthOf = t.length := by
      have := congrArg List.length h
      rw [pad_length, hlen] at this
      omega
    refine ⟨hwidth, ?_⟩
    rw [Spec.pad, hlen, hwidth] at h
    split at h
    · rename_i hleft
      rw [if_pos hleft]
      have hdrop : t.drop n = List.replicate (t.length - n) 32 :=
        List.append_cancel_left ((List.take_append_drop n t).trans h.symm)
      rw [hdrop]
      exact fun c hc => List.eq_of_mem_replicate hc
    · rename_i hleft
      rw [if_neg hleft]
      refine blank_of_shift (k := t.length - n) (by omega) ?_
      rwa [show t.length - (t.length - n) = n by omega]
  · rintro ⟨hwidth, hblank⟩
    rw [Spec.pad, hlen, hwidth]
    split
    · rename_i hleft
      rw [if_pos hleft] at hblank
      have hdrop : t.drop n = List.replicate (t.length - n) 32 :=
        List.eq_replicate_iff.mpr ⟨List.length_drop, hblank⟩
      rw [← hdrop, List.take_append_drop]
    · rename_i hleft
      rw [if_neg hleft] at hblank
      obtain ⟨m, rfl⟩ : ∃ m, t = List.replicate m 32 :=
        ⟨t.length, List.eq_replicate_iff.mpr ⟨rfl, hblank⟩⟩
      rw [List.length_replicate] at hn ⊢
      rw [List.take_replicate, List.replicate_append_replicate]
      congr 1
      omega

theorem unchanged_iff (x : Spec) (t : Bytes) :
    x.pad (t.take (x.precOf.getD t.length)) = t ↔ Unchanged x t := by
  rw [Unchanged]
  rcases Nat.lt_or_ge (x.precOf.getD t.length) t.length with hlt | hge
  · rw [pad_take_iff x hlt, or_iff_right (by omega)]
  · rw [List.take_of_length_le hge, pad_eq_self_iff]
    refine ⟨fun h => Or.inl ⟨h, hge⟩, ?_⟩
    rintro (h | h)
    · exact h.1
    · exact h.1.le

/-- **A directive is written as it should be** just if it is right. -/
theorem dirOut_iff (hok : (Piece.dir d).Ok) :
    dirOut fromDouble doublePrintf strtod d.spec d.conv.byte v = d.formatted fromDouble v ↔
      Right fromDouble d v := by
  have hint : cPrintf d.spec d.conv.byte (hpValToInt v) =
      integer d.spec d.conv.byte (hpValToInt v) ↔
      (integer d.spec d.conv.byte (hpValToInt v)).length < 2 ^ 31 := by
    rw [cPrintf]
    split
    · rename_i hlt
      exact iff_of_true rfl hlt
    · rename_i hge
      refine iff_of_false (fun h => hge ?_) hge
      rw [← h]
      decide
  unfold dirOut Right Directive.formatted
  rw [seen_eq hok]
  cases hconv : d.conv with
  | d => rw [hconv] at hint; exact hint
  | x => rw [hconv] at hint; exact hint
  | o => rw [hconv] at hint; exact hint
  | s =>
    change strOut d.spec (hpValToStr fromDouble v) = d.spec.pad _ ↔ _
    rw [strOut_eq hok]
    by_cases hp : d.spec.prec = some []
    · have hprec : d.spec.precOf = some 0 := by rw [Spec.precOf, hp]; rfl
      rw [if_pos hp, if_pos hp, hprec, Option.getD_some, List.take_zero, eq_comm, pad_eq_self_iff]
      exact Nat.le_zero
    · rw [if_neg hp, if_neg hp, eq_comm]
      exact unchanged_iff d.spec _
  | c =>
    change [UInt8.ofNat (hpValToInt v).toUInt64.toNat] = d.spec.pad _ ↔ _
    rw [eq_comm]
    exact pad_eq_self_iff d.spec _

/-! ## bytes that are no NUL -/

theorem pad_nul (x : Spec) {t : Bytes} (ht : 0 ∉ t) : 0 ∉ x.pad t := by
  rw [Spec.pad]
  split <;> simp [List.mem_append, List.mem_replicate, ht]

theorem digits_nul (x : Spec) {base : Nat} (hb : 1 < base) (hb16 : base ≤ 16) (n : Nat) :
    0 ∉ x.digits base n := by
  have hmag : 0 ∉ magnitudeText base n := by
    intro h
    obtain ⟨ds, htext, -, hds, -⟩ := magnitudeText_eq hb n
    rw [htext, List.mem_reverse, List.mem_map] at h
    obtain ⟨k, hk, hzero⟩ := h
    have hnul : ∀ k < 16, digitChar k ≠ 0 := by decide
    exact hnul k ((hds k hk).trans_le hb16) hzero
  rw [Spec.digits]
  split <;> simp [List.mem_append, List.mem_replicate, hmag]

theorem number_nul (x : Spec) {front body : Bytes} (hf : 0 ∉ front) (hb : 0 ∉ body) :
    0 ∉ x.number front body := by
  rw [Spec.number]
  split
  · simp [List.mem_append, List.mem_replicate, hf, hb]
  · exact pad_nul x (by simp [List.mem_append, hf, hb])

/-- a number has no NUL -/
theorem formatted_nul (hs : d.conv ≠ .s) (hc : d.conv ≠ .c) : 0 ∉ d.formatted fromDouble v := by
  rw [Directive.formatted]
  cases hconv : d.conv with
  | d =>
    refine number_nul d.spec ?_ (digits_nul d.spec (by decide) (by decide) _)
    split
    · decide
    · split
      · decide
      · split <;> decide
  | x =>
    refine number_nul d.spec ?_ (digits_nul d.spec (by decide) (by decide) _)
    split <;> decide
  | o =>
    have hdigits : 0 ∉ d.spec.digits 8 (hpValToInt v).toUInt64.toNat :=
      digits_nul d.spec (by decide) (by decide) _
    refine number_nul d.spec (by decide) ?_
    split
    · exact List.not_mem_cons_of_ne_of_not_mem (by decide) hdigits
    · exact hdigits
  | s => exact absurd hconv hs
  | c => exact absurd hconv hc

/-- what is written right has a NUL just where the argument has one -/
theorem noNul_iff (h : Right fromDouble d v) :
    0 ∉ d.formatted fromDouble v ↔ NoNul fromDouble d v := by
  by_cases hs : d.conv = .s
  · unfold Right at h
    unfold Directive.formatted NoNul
    rw [hs] at h ⊢
    dsimp only at h ⊢
    by_cases hp : d.spec.prec = some []
    · have hprec : d.spec.precOf = some 0 := by rw [Spec.precOf, hp]; rfl
      rw [hprec, Option.getD_some, List.take_zero]
      exact iff_of_true (pad_nul d.spec List.not_mem_nil) (.inl hp)
    · rw [if_neg hp] at h
      rw [(unchanged_iff d.spec _).mpr h, or_iff_right hp]
  · by_cases hc : d.conv = .c
    · unfold Right at h
      unfold Directive.formatted NoNul
      rw [hc] at h ⊢
      dsimp only at h ⊢
      rw [(pad_eq_self_iff d.spec [_]).mpr h, List.mem_singleton, eq_comm]
    · refine iff_of_true (formatted_nul hs hc) ?_
      rw [NoNul]
      split
      · exact absurd ‹_› hs
      · exact absurd ‹_› hc
      · trivial

/-! ## formats -/

theorem rounds_lit (hc : c ≠ 37) (n : Nat) (s : Bytes) (args : List Val) :
    sprintfRounds fromDouble doublePrintf strtod (n + 1) (c :: s) args =
      [c] :: sprintfRounds fromDouble doublePrintf strtod n s args := by
  rw [sprintfRounds.eq_def]
  exact if_pos hc

/-- behind a `%` that is no `%%` a directive is read -/
theorem rounds_percent {x : Spec} (hs : s ≠ []) (h37 : ∀ c ∈ s.head?, c ≠ 37)
    (hscan : scanSpec s = (x, c :: r)) (hc : c ≠ 0) (n : Nat) (args : List Val) :
    sprintfRounds fromDouble doublePrintf strtod (n + 1) (37 :: s) args =
      dirOut fromDouble doublePrintf strtod x c (args.headD .null) ::
        sprintfRounds fromDouble doublePrintf strtod n r args.tail := by
  rw [sprintfRounds]
  · rw [if_neg (by decide), hscan]
    exact if_neg hc
  · exact hs
  · rintro t rfl
    exact h37 37 rfl rfl

/-- bytes that are no `%` have a round each -/
theorem rounds_plain {l : Bytes} (hl : ∀ c ∈ l, c ≠ 37) {n : Nat} (hn : l.length ≤ n) (s : Bytes)
    (args : List Val) : sprintfRounds fromDouble doublePrintf strtod n (l ++ s) args =
      l.map (fun c => [c]) ++
        sprintfRounds fromDouble doublePrintf strtod (n - l.length) s args := by
  induction l generalizing n with
  | nil => rfl
  | cons c l ih =>
    obtain ⟨hc, hl⟩ := List.forall_mem_cons.mp hl
    cases n with
    | zero => cases hn
    | succ n =>
      rw [List.cons_append, rounds_lit hc, ih hl (Nat.le_of_succ_le_succ hn),
        List.length_cons, Nat.add_sub_add_right]
      rfl

end

section
variable (fromDouble : Double → Bytes) (doublePrintf : Bytes → UInt8 → Double → Bytes)
  (strtod : Bytes → Double) {d : Directive} {c : UInt8} {s r : Bytes} {ps : List Piece}

/-- the round of a directive ends where its text is read up to; the rest is left for other rounds -/
theorem rounds_dir (hok : (Piece.dir d).Ok) (n : Nat) (r : Bytes) (args : List Val) :
    ∃ l, (∀ c ∈ l, c ≠ 37) ∧ l.length < (Piece.dir d).text.length ∧ (l = [] ↔ Fits d) ∧ ∃ out,
      sprintfRounds fromDouble doublePrintf strtod (n + 1) ((Piece.dir d).text ++ r) args =
        out :: sprintfRounds fromDouble doublePrintf strtod n (l ++ r) args.tail ∧
      (Fits d → out = dirOut fromDouble doublePrintf strtod d.spec d.conv.byte
        (args.headD .null)) := by
  obtain ⟨l, hl, hrest, hfit, hspec⟩ := scanSpec_text hok r
  have htext : (Piece.dir d).text ++ r = 37 :: (d.spec.text ++ d.conv.byte :: r) := by
    rw [Piece.text, List.cons_append, List.append_assoc]
    rfl
  have hround : ∀ c rest, (scanSpec (d.spec.text ++ d.conv.byte :: r)).2 = c :: rest → c ≠ 0 →
      sprintfRounds fromDouble doublePrintf strtod (n + 1) ((Piece.dir d).text ++ r) args =
        dirOut fromDouble doublePrintf strtod (scanSpec (d.spec.text ++ d.conv.byte :: r)).1 c
          (args.headD .null) :: sprintfRounds fromDouble doublePrintf strtod n rest args.tail := by
    intro c rest hscan hc
    rw [htext]
    refine rounds_percent (by simp) ?_ (Prod.ext rfl hscan) hc n args
    intro a ha
    cases htxt : d.spec.text with
    | nil =>
      rw [htxt] at ha
      obtain rfl := Option.some.inj ha
      exact (conv_byte d.conv).2.2.2.1
    | cons b t =>
      rw [htxt] at ha
      obtain rfl := Option.some.inj ha
      exact (text_plain hok b (htxt ▸ List.mem_cons_self)).1
  cases l with
  | nil =>
    refine ⟨[], fun _ h => (nomatch h), Nat.succ_pos _, hfit, _,
      hround _ _ hrest (conv_byte d.conv).2.2.2.2, fun _ => ?_⟩
    rw [hspec rfl]
  | cons c l =>
    have hc : c ≠ 0 := (text_plain hok c (hl.subset List.mem_cons_self)).2
    have hfull : ¬ Fits d := fun h => List.cons_ne_nil c l (hfit.mpr h)
    have hassoc : l ++ d.conv.byte :: r = l ++ [d.conv.byte] ++ r := by simp
    rw [List.cons_append, hassoc] at hrest
    refine ⟨l ++ [d.conv.byte], fun b hb => ?_, ?_, iff_of_false (by simp) hfull, _,
      hround _ _ hrest hc, fun h => absurd h hfull⟩
    · rcases List.mem_append.mp hb with hmem | hmem
      · exact (text_plain hok b (hl.subset (List.mem_cons_of_mem c hmem))).1
      · rw [List.mem_singleton.mp hmem]
        exact (conv_byte d.conv).2.2.2.1
    · have hlen := hl.length_le
      rw [Piece.text, List.length_cons, List.length_append, List.length_append]
      rw [List.length_cons] at hlen
      omega

/-- a piece has a round, that leaves no `%` of it for later rounds -/
theorem rounds_piece {p : Piece} (hp : p.Ok) (n : Nat) (r : Bytes) (args : List Val) :
    ∃ l, (∀ c ∈ l, c ≠ 37) ∧ l.length < p.text.length ∧ ∃ out args',
      sprintfRounds fromDouble doublePrintf strtod (n + 1) (p.text ++ r) args =
        out :: sprintfRounds fromDouble doublePrintf strtod n (l ++ r) args' := by
  cases p with
  | lit c => exact ⟨[], fun _ h => (nomatch h), Nat.zero_lt_one, _, _, rounds_lit hp n r args⟩
  | percent => exact ⟨[], fun _ h => (nomatch h), Nat.zero_lt_two, _, _, rfl⟩
  | dir d =>
    obtain ⟨l, hl, hlen, -, out, hround, -⟩ := rounds_dir fromDouble doublePrintf strtod hp n r args
    exact ⟨l, hl, hlen, out, _, hround⟩

/-- every piece has a round at least -/
theorem rounds_length (hok : ∀ p ∈ ps, p.Ok) {l : Bytes} (hl : ∀ c ∈ l, c ≠ 37) {n : Nat}
    (hn : l.length + (render ps).length ≤ n) (args : List Val) :
    l.length + ps.length ≤
      (sprintfRounds fromDouble doublePrintf strtod n (l ++ render ps) args).length := by
  rw [rounds_plain hl (by omega), List.length_append, List.length_map]
  refine Nat.add_le_add_left ?_ _
  induction ps generalizing l n args with
  | nil => exact Nat.zero_le _
  | cons p ps ih =>
    obtain ⟨hp, hok⟩ := List.forall_mem_cons.mp hok
    have hrender : render (p :: ps) = p.text ++ render ps := List.flatMap_cons
    rw [hrender, List.length_append] at hn
    obtain ⟨m, hm⟩ : ∃ m, n - l.length = m + 1 :=
      Nat.exists_eq_add_one.mpr (by cases p <;> simp [Piece.text] at hn <;> omega)
    obtain ⟨k, hk, hlen, out, args', hround⟩ := rounds_piece fromDouble
      doublePrintf strtod hp m (render ps) args
    rw [hrender, hm, hround, List.length_cons, List.length_cons, rounds_plain hk (by omega),
      List.length_append]
    have := ih hok hk (n := m) (by omega) args'
    omega

theorem expected_length (ps : List Piece) (args : List Val) :
    (expected fromDouble ps args).length = ps.length := by
  induction ps generalizing args with
  | nil => rfl
  | cons p ps ih =>
    cases p with
    | lit c => exact congrArg (· + 1) (ih args)
    | percent => exact congrArg (· + 1) (ih args)
    | dir d => exact congrArg (· + 1) (ih args.tail)

/-- **The rounds write the pieces**, one for one, just if every directive fits and is right. -/
theorem rounds_pieces (hok : ∀ p ∈ ps, p.Ok) {n : Nat} (hn : (render ps).length ≤ n)
    (args : List Val) :
    sprintfRounds fromDouble doublePrintf strtod n (render ps) args = expected fromDouble ps args ↔
      AllRight fromDouble ps args := by
  induction ps generalizing n args with
  | nil =>
    refine iff_of_true ?_ trivial
    cases n <;> rfl
  | cons p ps ih =>
    obtain ⟨hp, hps⟩ := List.forall_mem_cons.mp hok
    have hrender : render (p :: ps) = p.text ++ render ps := List.flatMap_cons
    rw [hrender, List.length_append] at hn
    obtain ⟨m, rfl⟩ : ∃ m, n = m + 1 :=
      Nat.exists_eq_add_one.mpr (by cases p <;> simp [Piece.text] at hn <;> omega)
    rw [hrender]
    cases p with
    | lit c =>
      rw [Piece.text, List.length_singleton] at hn
      rw [Piece.text, List.singleton_append, rounds_lit hp, expected,
        List.cons_inj_right]
      exact ih hps (by omega) args
    | percent =>
      rw [Piece.text, List.length_cons] at hn
      rw [expected]
      exact (List.cons_inj_right [37]).trans (ih hps (by omega) args)
    | dir d =>
      obtain ⟨l, hl, hlen, hfit, out, hround, hout⟩ :=
        rounds_dir fromDouble doublePrintf strtod hp m (render ps) args
      rw [hround, expected, AllRight]
      by_cases hd : Fits d
      · have hpos : 0 < (Piece.dir d).text.length := Nat.succ_pos _
        rw [hfit.mpr hd, hout hd, List.nil_append, List.cons.injEq, dirOut_iff hp,
          ih hps (by omega), and_iff_right hd]
      · -- what is left of the directive has rounds of its own
        refine iff_of_false (fun h => ?_) fun h => hd h.1
        have hmore := rounds_length fromDouble doublePrintf strtod hps hl (n := m) (by omega)
          args.tail
        have hpos : 0 < l.length := List.length_pos_iff.mpr (mt hfit.mp hd)
        rw [(List.cons.inj h).2, expected_length] at hmore
        omega

theorem expected_nul {args : List Val} (h : AllRight fromDouble ps args) :
    0 ∉ (expected fromDouble ps args).flatten ↔ NoNulIn fromDouble ps args := by
  induction ps generalizing args with
  | nil => exact iff_of_true List.not_mem_nil trivial
  | cons p ps ih =>
    cases p with
    | lit c =>
      rw [expected, NoNulIn, List.flatten_cons, List.mem_append, not_or, List.mem_singleton,
        ih h, eq_comm]
    | percent =>
      rw [expected, NoNulIn, List.flatten_cons, List.mem_append, not_or, ih h]
      exact and_iff_right (by decide)
    | dir d =>
      rw [expected, NoNulIn, List.flatten_cons, List.mem_append, not_or, noNul_iff h.2.1,
        ih h.2.2]

/-- **`sprintf` writes the pieces of a format** just if every directive fits and is right for its
argument, and there is no NUL. -/
theorem sprintf_pieces (hok : ∀ p ∈ ps, p.Ok) (args : List Val) :
    sprintfRounds fromDouble doublePrintf strtod (render ps).length (render ps) args =
        expected fromDouble ps args ∧
      hpbiSprintf fromDouble doublePrintf strtod (render ps) args =
        (expected fromDouble ps args).flatten ↔
    AllRight fromDouble ps args ∧ NoNulIn fromDouble ps args := by
  have hrounds := rounds_pieces fromDouble doublePrintf strtod hok (le_refl _) args
  constructor
  · rintro ⟨h, htext⟩
    have hright := hrounds.mp h
    refine ⟨hright, (expected_nul fromDouble hright).mp ?_⟩
    rw [hpbiSprintf, h] at htext
    exact strLit_eq_self_iff.mp htext
  · rintro ⟨hright, hnul⟩
    have h := hrounds.mpr hright
    refine ⟨h, ?_⟩
    rw [hpbiSprintf, h]
    exact strLit_eq_self_iff.mpr ((expected_nul fromDouble hright).mpr hnul)

/-- `[%-3s|%.1s|%04d]` -/
def samplePieces : List Piece :=
  [.lit 91, .dir ⟨⟨[45], ascii "3", none⟩, .s⟩, .lit 124, .dir ⟨⟨[], [], some (ascii "1")⟩, .s⟩,
    .lit 124, .dir ⟨⟨[48], ascii "4", none⟩, .d⟩, .lit 93]

def sampleArgs : List Val := [.str (some (ascii "abc")), .str (some (ascii "x")), .int (-42)]

theorem sprintf_pieces_sample :
    hpbiSprintf (fun _ => []) (fun _ _ _ => []) (fun _ => ⟨0⟩) (render samplePieces) sampleArgs =
      ascii "[abc|x|-042]" :=
  ((sprintf_pieces (fun _ => []) (fun _ _ _ => []) (fun _ => ⟨0⟩)
    (show ∀ p ∈ samplePieces, p.Ok by decide) sampleArgs).mpr (by decide +kernel)).2.trans
    (by decide +kernel)

/-- `%5s` is not padded -/
theorem sprintf_unpadded :
    let ps := [.dir ⟨⟨[], ascii "5", none⟩, .s⟩]
    let args := [.str (some (ascii "ab"))]
    (∀ p ∈ ps, p.Ok) ∧ hpbiSprintf (fun _ => []) (fun _ _ _ => []) (fun _ => ⟨0⟩) (render ps) args ≠
      (expected (fun _ => []) ps args).flatten := by
  decide

end

end Sprintf
end HolyPhp
