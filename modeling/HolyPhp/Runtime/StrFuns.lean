import HolyPhp.Lib.Substr
import HolyPhp.Runtime.Value
import Mathlib.Data.Int.Order.Basic

/-!
# String functions of the standard library

`substr`, `chr`, `trim`, `strtolower` and `explode("\r\n", ..)`, on the bytes of the strings
(`strpos` is `Substr.strpos`).  Integers are 64 bits wide (`wrap64`).
-/

namespace HolyPhp
namespace Std
open Substr

/-- what an `int64_t` holds after an operation -/
def wrap64 (x : Int) : Int := x.bmod (2 ^ 64)

theorem wrap64_of_lt {x : Int} (h0 : 0 ≤ x) (h : x < 2 ^ 63) : wrap64 x = x :=
  Int.bmod_eq_of_le (by omega) (by omega)

/-- `norm_index` -/
def normIndex (i : Int) (len : Nat) : Int :=
  let i := if i < 0 then i + len else i
  if i < 0 then 0 else if (len : Int) < i then len else i

/-- `hp_str_slice` -/
def hpStrSlice (s : Bytes) (start stop : Int) : Bytes :=
  let start := normIndex start s.length
  let stop := if stop < 0 then stop + s.length else stop
  let stop := if stop < 0 ∨ (s.length : Int) < stop then (s.length : Int) else stop
  if stop ≤ start then [] else (s.drop start.toNat).take (stop - start).toNat

/-- `hpbi_substr`; where no length is given, the part goes to the end -/
def hpbiSubstr (s : Bytes) (start : Int) (len : Option Int) : Bytes :=
  let st := if start < 0 then start + s.length else start
  let st := if st < 0 then 0 else st
  if (s.length : Int) < st then [] else
    match len with
    | none => hpStrSlice s st s.length
    | some l =>
      let l := if l < 0 then s.length - st + l else l
      let l := if l < 0 then 0 else l
      hpStrSlice s st (wrap64 (st + l))

/-- the low byte: `hpbi_chr` -/
def chr (n : Int) : UInt8 := UInt8.ofNat (n % 256).toNat

/-- `is_ws` -/
def isWs (c : UInt8) : Bool :=
  c = 32 || (c = 9 || (c = 10 || (c = 13 || (c = 0 || (c = 11 || c = 12)))))

/-- `hp_str_trim` -/
def hpStrTrim (s : Bytes) : Bytes := ((s.dropWhile isWs).reverse.dropWhile isWs).reverse

def tolower (c : UInt8) : UInt8 := if 65 ≤ c ∧ c ≤ 90 then c + 32 else c

/-- `hp_str_tolower` -/
def hpStrTolower (s : Bytes) : Bytes := s.map tolower

/-- a character in front of the first line -/
def consHead (c : UInt8) : List Bytes → List Bytes
  | [] => [[c]]
  | l :: ls => (c :: l) :: ls

/-- `hpbi_explode` at the separator `"\r\n"` -/
def explodeCrlf : Bytes → List Bytes
  | [] => [[]]
  | 13 :: 10 :: s => [] :: explodeCrlf s
  | c :: s => consHead c (explodeCrlf s)

/-! ## parts of a string -/

section
variable {s : Bytes} {a k : Nat}

theorem hpStrSlice_of_le (ha : a ≤ k) (hk : k ≤ s.length) :
    hpStrSlice s a k = (s.drop a).take (k - a) := by
  have hn : normIndex a s.length = a := by
    simp only [normIndex, if_neg (Int.not_lt.2 (Int.natCast_nonneg a))]
    apply if_neg
    omega
  have hk0 : ¬ (k : Int) < 0 := by omega
  have hkn : ¬ ((k : Int) < 0 ∨ (s.length : Int) < k) := by omega
  simp only [hpStrSlice, hn, if_neg hk0, if_neg hkn]
  split
  · next h =>
    have he : k - a = 0 := by omega
    rw [he, List.take_zero]
  · have he : ((k : Int) - a).toNat = k - a := by omega
    rw [he, Int.toNat_natCast]

theorem hpbiSubstr_take (h : a + k ≤ s.length) (hs : a + k < 2 ^ 63) :
    hpbiSubstr s a (some k) = (s.drop a).take k := by
  have ha : ¬ (a : Int) < 0 := by omega
  have hk : ¬ (k : Int) < 0 := by omega
  have hn : ¬ (s.length : Int) < a := by omega
  have hw : wrap64 (a + k) = (a + k : Nat) := wrap64_of_lt (by omega) (by omega)
  simp only [hpbiSubstr, if_neg ha, if_neg hk, if_neg hn, hw]
  rw [hpStrSlice_of_le (Nat.le_add_right a k) h, Nat.add_sub_cancel_left]

theorem hpbiSubstr_drop (h : a ≤ s.length) : hpbiSubstr s a none = s.drop a := by
  have ha : ¬ (a : Int) < 0 := by omega
  have hn : ¬ (s.length : Int) < a := by omega
  simp only [hpbiSubstr, if_neg ha, if_neg hn]
  rw [hpStrSlice_of_le h (Nat.le_refl _), List.take_of_length_le]
  rw [List.length_drop]

end

/-! ## lines -/

theorem explodeCrlf_cons {c : UInt8} (h : c ≠ 13) (s : Bytes) :
    explodeCrlf (c :: s) = consHead c (explodeCrlf s) := by
  rw [explodeCrlf]
  intro t hc
  exact absurd hc h

theorem explodeCrlf_line {l : Bytes} (h : 13 ∉ l) (s : Bytes) :
    explodeCrlf (l ++ 13 :: 10 :: s) = l :: explodeCrlf s := by
  induction l with
  | nil => rfl
  | cons c l ih =>
    rw [List.mem_cons, not_or] at h
    rw [List.cons_append, explodeCrlf_cons fun he => h.1 he.symm, ih h.2]
    rfl

end Std
end HolyPhp
