import Mathlib.Algebra.Group.Int.Defs
import Mathlib.Algebra.Group.Nat.Defs
import Mathlib.Logic.Function.Basic
import Mathlib.Tactic.Common

/-!
# Values of the runtime (`hval`)

`HVal S` is the tagged union `hval`.  `S` is how a string is referred to: the address of its
`hstr` where identity matters (`Runtime.Str`), the bytes it holds where it does not
(`Runtime.Arr`).  A pointer field is `none` when it is NULL.

`hpValToInt` is `hp_val_to_int`; its two library calls are `strtoll` (base 10) and the
conversion of a `double` to `int64_t`.
-/

namespace HolyPhp

abbrev Bytes := List UInt8
abbrev Addr := Nat

instance : LawfulBEq Bytes := inferInstance

/-- the text of ASCII characters -/
def ascii (s : String) : Bytes := s.toList.map fun c => UInt8.ofNat c.toNat

/-- an IEEE 754 binary64, by its bits -/
structure Double where
  bits : UInt64
  deriving DecidableEq, Repr

inductive HKind where
  | null | int | float | bool | str | arr | obj | clo
  deriving DecidableEq, Repr

inductive HVal (S : Type) where
  | null
  | int (i : Int64)
  | float (f : Double)
  | bool (b : Bool)
  | str (s : Option S)
  | arr (a : Option Addr)
  | obj (p : Option Addr)
  | clo (c : Option Addr)
  deriving DecidableEq, Repr

section
variable {S : Type}

/-- the tag of a value -/
def HVal.tag : HVal S → HKind
  | .null => .null
  | .int _ => .int
  | .float _ => .float
  | .bool _ => .bool
  | .str _ => .str
  | .arr _ => .arr
  | .obj _ => .obj
  | .clo _ => .clo

theorem HVal.tag_eq_null {v : HVal S} : v.tag = .null ↔ v = .null := by
  cases v <;> simp [HVal.tag]

end

/-! ## counters -/

/-- a counter that has not reached its end grows by 1 -/
theorem lt_succ_of_ne_max {a b : Int64} (hb : b ≠ Int64.maxValue) (h : a ≤ b) : a < b + 1 := by
  have hlt : b.toInt < 2 ^ 63 - 1 := by
    have := Int64.toInt_le b
    rcases Int.lt_or_eq_of_le this with h | h
    · exact h
    · exact absurd (Int64.toInt_inj.mp h) hb
  have hge := Int64.le_toInt b
  have hle := Int64.le_iff_toInt_le.mp h
  rw [Int64.lt_iff_toInt_lt, Int64.toInt_add, show (1 : Int64).toInt = 1 from rfl,
    Int.bmod_eq_of_le (by omega) (by omega)]
  omega

/-! ## `hp_val_to_int` -/

/-- truncation toward zero; out of range (and for NaN) the conversion is undefined in C and gives
the least integer on x86-64 -/
def Double.toInt64 (d : Double) : Int64 :=
  let e := (d.bits.toNat / 2^52) % 2^11
  let m := d.bits.toNat % 2^52
  -- a subnormal and every value below 1 truncates to 0
  let mag : Nat := if e < 1023 then 0 else (2^52 + m) * 2^(e - 1023) / 2^52
  let v : Int := if d.bits.toNat < 2^63 then (mag : Int) else -(mag : Int)
  if -2^63 ≤ v ∧ v < 2^63 then Int64.ofInt v else Int64.minValue

/-- `isspace` in the "C" locale -/
def isSpace (c : UInt8) : Bool := c == 32 || (9 ≤ c && c ≤ 13)

/-- `isdigit` -/
def isDigit (c : UInt8) : Bool := 48 ≤ c && c ≤ 57

/-- value of the digits at the front of the text -/
def leadingNat : Nat → Bytes → Nat
  | n, [] => n
  | n, c :: cs => if isDigit c then leadingNat (n * 10 + (c.toNat - 48)) cs else n

/-- `strtoll(s, NULL, 10)`: blanks, a sign, digits; out of range it saturates -/
def strtoll (s : Bytes) : Int64 :=
  let s' := s.dropWhile isSpace
  let v : Int := match s' with
    | 45 :: cs => -leadingNat 0 cs
    | 43 :: cs => leadingNat 0 cs
    | cs => leadingNat 0 cs
  if 2^63 ≤ v then Int64.maxValue else if v < -2^63 then Int64.minValue else Int64.ofInt v

def hpStrToInt : Option Bytes → Int64
  | none => 0
  | some s => strtoll s

def hpValToInt : HVal Bytes → Int64
  | .int i => i
  | .float f => f.toInt64
  | .bool b => if b then 1 else 0
  | .str s => hpStrToInt s
  | .null => 0
  | _ => 1

example : hpValToInt (.float ⟨0xC00C000000000000⟩) = -3 := by decide
example : hpValToInt (.str (some [32, 45, 52, 50, 120])) = -42 := by decide

end HolyPhp
