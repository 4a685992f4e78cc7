import HolyPhp.Lib.Substr
import HolyPhp.Runtime.Value

/-!
# Percent and hex codes

* `strtol16`                    `strtol(s, NULL, 16)`;
* `hpbiUrlencode`, `hpbiUrldecode`, `hpbiBin2hex`, `hpbiHex2bin`  the codecs.

The decoders give their buffer to `hp_str_lit`, which stops at a NUL: `codecs_inverse`.
-/

set_option autoImplicit false

namespace HolyPhp
namespace Std
open Substr (takeWhile_ne_iff)

/-! ## the functions -/

/-- `isalnum` of ASCII -/
def isAlnum (c : UInt8) : Bool :=
  isDigit c || (65 ≤ c && c ≤ 90) || (97 ≤ c && c ≤ 122)

/-- a digit of `%X` and of `%x` -/
def hexNibble (upper : Bool) (n : Nat) : UInt8 :=
  UInt8.ofNat (if n < 10 then 48 + n else (if upper then 55 else 87) + n)

/-- `%02X` and `%02x` -/
def hexByte (upper : Bool) (c : UInt8) : Bytes :=
  [hexNibble upper (c.toNat / 16), hexNibble upper (c.toNat % 16)]

def hexValue (c : UInt8) : Option Nat :=
  if isDigit c then some (c.toNat - 48)
  else if 65 ≤ c ∧ c ≤ 70 then some (c.toNat - 55)
  else if 97 ≤ c ∧ c ≤ 102 then some (c.toNat - 87)
  else none

/-- the digits in front -/
def hexNumber (n : Nat) : Bytes → Nat
  | [] => n
  | c :: s =>
    match hexValue c with
    | some d => hexNumber (16 * n + d) s
    | none => n

/-- `0x` counts where a digit is behind it -/
def skip0x : Bytes → Bytes
  | 48 :: x :: d :: s =>
    if (x = 120 ∨ x = 88) ∧ (hexValue d).isSome then d :: s else 48 :: x :: d :: s
  | s => s

def strtol16 (s : Bytes) : Int :=
  match s.dropWhile isSpace with
  | 45 :: t => -(hexNumber 0 (skip0x t) : Int)
  | 43 :: t => hexNumber 0 (skip0x t)
  | t => hexNumber 0 (skip0x t)

/-- `(char)strtol(hex, NULL, 16)` -/
def hexChar (a b : UInt8) : UInt8 := UInt8.ofNat (strtol16 [a, b] % 256).toNat

/-- `hp_str_lit(buf_take(&b))` -/
def strLit (b : Bytes) : Bytes := b.takeWhile fun c => c ≠ 0

def urlByte (c : UInt8) : Bytes :=
  if isAlnum c || c == 45 || c == 95 || c == 46 || c == 126 then [c]
  else if c = 32 then [43]
  else 37 :: hexByte true c

def hpbiUrlencode (s : Bytes) : Bytes := strLit (s.flatMap urlByte)

def urlChars : Bytes → Bytes
  | [] => []
  | 43 :: s => 32 :: urlChars s
  | 37 :: a :: b :: s => hexChar a b :: urlChars s
  | c :: s => c :: urlChars s

def hpbiUrldecode (s : Bytes) : Bytes := strLit (urlChars s)

def hpbiBin2hex (s : Bytes) : Bytes := strLit (s.flatMap (hexByte false))

def hexChars : Bytes → Bytes
  | a :: b :: s => hexChar a b :: hexChars s
  | _ => []

def hpbiHex2bin (s : Bytes) : Bytes := strLit (hexChars s)

/-! ## bytes -/

section
variable {s b : Bytes} {upper : Bool}

theorem hexValue_nibble : ∀ n < 16, hexValue (hexNibble upper n) = some n := by
  cases upper <;> decide

theorem hexNibble_plain (upper : Bool) : ∀ n < 16, hexNibble upper n ≠ 0 ∧ isSpace (hexNibble upper n) = false ∧
    hexNibble upper n ≠ 45 ∧ hexNibble upper n ≠ 43 := by
  cases upper <;> decide

/-- two digits are read as they are -/
theorem strtol16_nibbles {m n : Nat} (hm : m < 16) (hn : n < 16) :
    strtol16 [hexNibble upper m, hexNibble upper n] = 16 * m + n := by
  obtain ⟨-, hs, h45, h43⟩ := hexNibble_plain upper m hm
  have hdrop : [hexNibble upper m, hexNibble upper n].dropWhile isSpace =
      [hexNibble upper m, hexNibble upper n] := List.dropWhile_cons_of_neg (by rw [hs]; decide)
  have hskip : ∀ x y : UInt8, skip0x [x, y] = [x, y] := by
    intro x y
    unfold skip0x
    split
    · next he => cases congrArg List.length he
    · rfl
  unfold strtol16
  rw [hdrop]
  split
  · next he => exact absurd (List.cons.inj he).1 h45
  · next he => exact absurd (List.cons.inj he).1 h43
  · rw [hskip, hexNumber, hexValue_nibble m hm]
    show ((hexNumber (16 * 0 + m) [hexNibble upper n] : Nat) : Int) = _
    rw [hexNumber, hexValue_nibble n hn]
    show ((16 * (16 * 0 + m) + n : Nat) : Int) = _
    omega

theorem hexChar_hexByte (c : UInt8) :
    hexChar (hexNibble upper (c.toNat / 16)) (hexNibble upper (c.toNat % 16)) = c := by
  have hlt := c.toNat_lt
  have hc : (strtol16 [hexNibble upper (c.toNat / 16), hexNibble upper (c.toNat % 16)] % 256).toNat =
      c.toNat := by
    rw [strtol16_nibbles (by omega) (by omega)]
    omega
  rw [hexChar, hc, UInt8.ofNat_toNat]

theorem hexByte_ne_zero (c d : UInt8) (hd : d ∈ hexByte upper c) : d ≠ 0 := by
  have hlt := c.toNat_lt
  have h1 := (hexNibble_plain upper (c.toNat / 16) (by omega)).1
  have h2 := (hexNibble_plain upper (c.toNat % 16) (by omega)).1
  simp only [hexByte, List.mem_cons, List.not_mem_nil, or_false] at hd
  rcases hd with rfl | rfl
  · exact h1
  · exact h2

/-- a text without a NUL -/
theorem strLit_eq_self_iff : strLit b = b ↔ 0 ∉ b := takeWhile_ne_iff

theorem strLit_self (h : ∀ c ∈ b, c ≠ 0) : strLit b = b :=
  strLit_eq_self_iff.mpr fun h0 => h 0 h0 rfl

/-! ## the percent code -/

theorem urlByte_ne_zero (c d : UInt8) (hd : d ∈ urlByte c) : d ≠ 0 := by
  unfold urlByte at hd
  split at hd
  · next hc =>
    rw [List.mem_singleton] at hd
    rintro rfl
    rw [← hd] at hc
    exact absurd hc (by decide)
  · split at hd
    · rw [List.mem_singleton.mp hd]
      decide
    · rcases List.mem_cons.mp hd with rfl | hd
      · decide
      · exact hexByte_ne_zero c d hd

theorem urlChars_urlByte (c : UInt8) (s : Bytes) : urlChars (urlByte c ++ s) = c :: urlChars s := by
  unfold urlByte
  split
  · next hc =>
    have h43 : c ≠ 43 := by
      rintro rfl
      exact absurd hc (by decide)
    have h37 : c ≠ 37 := by
      rintro rfl
      exact absurd hc (by decide)
    rw [List.singleton_append, urlChars]
    · exact h43
    · intro a b t he
      exact absurd he h37
  · split
    · next hc =>
      rw [hc]
      rfl
    · show hexChar (hexNibble true (c.toNat / 16)) (hexNibble true (c.toNat % 16)) ::
        urlChars s = _
      rw [hexChar_hexByte]

theorem urlChars_urlBytes (s : Bytes) : urlChars (s.flatMap urlByte) = s := by
  induction s with
  | nil => rfl
  | cons c s ih => rw [List.flatMap_cons, urlChars_urlByte, ih]

theorem hexChars_hexBytes (s : Bytes) : hexChars (s.flatMap (hexByte upper)) = s := by
  induction s with
  | nil => rfl
  | cons c s ih =>
    show hexChar _ _ :: hexChars (s.flatMap (hexByte upper)) = _
    rw [hexChar_hexByte, ih]

/-- **The codecs** give back what stands in front of the first NUL. -/
theorem codecs_strLit (s : Bytes) :
    hpbiUrldecode (hpbiUrlencode s) = strLit s ∧ hpbiHex2bin (hpbiBin2hex s) = strLit s := by
  have hurl : ∀ d ∈ s.flatMap urlByte, d ≠ 0 := by
    intro d hd
    obtain ⟨c, -, hd⟩ := List.mem_flatMap.mp hd
    exact urlByte_ne_zero c d hd
  have hhex : ∀ d ∈ s.flatMap (hexByte false), d ≠ 0 := by
    intro d hd
    obtain ⟨c, -, hd⟩ := List.mem_flatMap.mp hd
    exact hexByte_ne_zero c d hd
  constructor
  · rw [hpbiUrldecode, hpbiUrlencode, strLit_self hurl, urlChars_urlBytes]
  · rw [hpbiHex2bin, hpbiBin2hex, strLit_self hhex, hexChars_hexBytes]

/-- **Round trips**: just for the strings without a NUL. -/
theorem codecs_inverse (s : Bytes) :
    (hpbiUrldecode (hpbiUrlencode s) = s ↔ 0 ∉ s) ∧ (hpbiHex2bin (hpbiBin2hex s) = s ↔ 0 ∉ s) := by
  obtain ⟨h1, h2⟩ := codecs_strLit s
  rw [h1, h2]
  exact ⟨strLit_eq_self_iff, strLit_eq_self_iff⟩

/-- `"a\0b"` -/
theorem codecs_cut : ¬ ∀ s : Bytes,
    hpbiUrldecode (hpbiUrlencode s) = s ∧ hpbiHex2bin (hpbiBin2hex s) = s := by
  intro h
  have hcut := (h [97, 0, 98]).1
  have hdec : hpbiUrldecode (hpbiUrlencode [97, 0, 98]) = [97] := by decide
  rw [hdec] at hcut
  cases hcut

end

end Std
end HolyPhp
