import HolyPhp.Runtime.Value
import Mathlib.Data.Nat.Log

/-!
# Comparisons of `double`s

A `Double` is its bits: a sign, 11 bits of exponent, 52 of mantissa.  Without the sign the bits of
two numbers stand in the order of the numbers, so a number is compared by its `rank`; the two
zeros have the same.  A NaN is in no relation to anything.

* `Double.lt`, `Double.eq`  `<` and `==` of C;
* `Double.ofInt64`          the conversion of an `int64_t`, to the nearest `double` and to an even
                            mantissa in the middle.
-/

namespace HolyPhp
namespace Double

/-- exponent and mantissa -/
def magnitude (d : Double) : Nat := d.bits.toNat % 2 ^ 63

def isNan (d : Double) : Bool := 2047 * 2 ^ 52 < d.magnitude

def rank (d : Double) : Int := if d.bits.toNat < 2 ^ 63 then d.magnitude else -(d.magnitude : Int)

/-- `a < b` -/
def lt (a b : Double) : Bool := !a.isNan && !b.isNan && decide (a.rank < b.rank)

/-- `a == b` -/
def eq (a b : Double) : Bool := !a.isNan && !b.isNan && decide (a.rank = b.rank)

/-- `m / 2 ^ s`, rounded to the nearest number, and to an even one in the middle -/
def roundShift (m s : Nat) : Nat :=
  let q := m / 2 ^ s
  if 2 * (m % 2 ^ s) < 2 ^ s ∨ (2 * (m % 2 ^ s) = 2 ^ s ∧ q % 2 = 0) then q else q + 1

/-- the magnitude of the `double` nearest to `m`; a mantissa that rounds up to `2 ^ 53` goes into
the exponent -/
def ofNat (m : Nat) : Nat :=
  if m = 0 then 0
  else if Nat.log2 m ≤ 52 then (Nat.log2 m + 1022) * 2 ^ 52 + m * 2 ^ (52 - Nat.log2 m)
  else (Nat.log2 m + 1022) * 2 ^ 52 + roundShift m (Nat.log2 m - 52)

/-- `(double)i` -/
def ofInt64 (i : Int64) : Double :=
  ⟨UInt64.ofNat (ofNat i.toInt.natAbs + if i < 0 then 2 ^ 63 else 0)⟩

example : ofInt64 1 = ⟨0x3FF0000000000000⟩ := by decide
example : ofInt64 (-3) = ⟨0xC008000000000000⟩ := by decide
example : ofInt64 9007199254740993 = ⟨0x4340000000000000⟩ := by decide
example : ofInt64 Int64.maxValue = ⟨0x43E0000000000000⟩ := by decide

section
variable {a b c : Double}

theorem roundShift_le {m s n : Nat} (h : m < 2 ^ s * n) : roundShift m s ≤ n := by
  have hq : m / 2 ^ s < n := Nat.div_lt_of_lt_mul h
  unfold roundShift
  dsimp only
  split <;> omega

/-- a converted integer is a number: its exponent is at most 64 -/
theorem ofNat_le {m : Nat} (h : m < 2 ^ 64) : ofNat m ≤ 1088 * 2 ^ 52 := by
  unfold ofNat
  split
  · exact Nat.zero_le _
  · rename_i h0
    have hlog : Nat.log2 m < 64 := (Nat.log2_lt h0).2 h
    have hm : m < 2 ^ (Nat.log2 m + 1) := Nat.lt_log2_self
    split
    · rename_i hle
      have hmul : m * 2 ^ (52 - Nat.log2 m) ≤ 2 ^ (Nat.log2 m + 1) * 2 ^ (52 - Nat.log2 m) :=
        Nat.mul_le_mul_right _ hm.le
      rw [← Nat.pow_add, show Nat.log2 m + 1 + (52 - Nat.log2 m) = 53 by omega] at hmul
      omega
    · rename_i hgt
      have hround : roundShift m (Nat.log2 m - 52) ≤ 2 ^ 53 := by
        apply roundShift_le
        rw [← Nat.pow_add, show Nat.log2 m - 52 + 53 = Nat.log2 m + 1 by omega]
        exact hm
      omega

theorem ofInt64_not_nan (i : Int64) : (ofInt64 i).isNan = false := by
  have habs : i.toInt.natAbs < 2 ^ 64 := by
    have h1 := Int64.le_toInt i
    have h2 := Int64.toInt_lt i
    omega
  have hle := ofNat_le habs
  have hmag : (ofInt64 i).magnitude ≤ 1088 * 2 ^ 52 := by
    unfold magnitude ofInt64
    dsimp only
    rw [UInt64.toNat_ofNat']
    split <;> omega
  exact decide_eq_false (by omega)

theorem lt_iff : a.lt b = true ↔ a.isNan = false ∧ b.isNan = false ∧ a.rank < b.rank := by
  simp [lt, and_assoc]

theorem eq_iff : a.eq b = true ↔ a.isNan = false ∧ b.isNan = false ∧ a.rank = b.rank := by
  simp [eq, and_assoc]

/-- integers below `2 ^ 53` are converted exactly, so they keep their order -/
theorem ofNat_lt {m n : Nat} (h : m < n) (hn : n < 2 ^ 53) : ofNat m < ofNat n := by
  have hn0 : n ≠ 0 := by omega
  have hlog : Nat.log2 n ≤ 52 := Nat.le_of_lt_succ ((Nat.log2_lt hn0).2 hn)
  have hlow : 2 ^ 52 ≤ n * 2 ^ (52 - Nat.log2 n) := by
    have hmul := Nat.mul_le_mul_right (2 ^ (52 - Nat.log2 n)) (Nat.log2_self_le hn0)
    rwa [← Nat.pow_add, show Nat.log2 n + (52 - Nat.log2 n) = 52 by omega] at hmul
  have hnat : ofNat n = (Nat.log2 n + 1022) * 2 ^ 52 + n * 2 ^ (52 - Nat.log2 n) := by
    rw [ofNat, if_neg hn0, if_pos hlog]
  by_cases hm0 : m = 0
  · rw [hnat, hm0]
    show 0 < _
    omega
  · have hle : Nat.log2 m ≤ Nat.log2 n := (Nat.le_log2 hn0).2 ((Nat.log2_self_le hm0).trans h.le)
    have hmat : ofNat m = (Nat.log2 m + 1022) * 2 ^ 52 + m * 2 ^ (52 - Nat.log2 m) := by
      rw [ofNat, if_neg hm0, if_pos (hle.trans hlog)]
    rw [hnat, hmat]
    rcases Nat.eq_or_lt_of_le hle with he | hlt
    · rw [he]
      exact Nat.add_lt_add_left (Nat.mul_lt_mul_of_pos_right h (Nat.two_pow_pos _)) _
    · have hmul : m * 2 ^ (52 - Nat.log2 m) < 2 ^ (Nat.log2 m + 1) * 2 ^ (52 - Nat.log2 m) :=
        Nat.mul_lt_mul_of_pos_right Nat.lt_log2_self (Nat.two_pow_pos _)
      rw [← Nat.pow_add, show Nat.log2 m + 1 + (52 - Nat.log2 m) = 53 by omega] at hmul
      omega

theorem rank_ofInt64 {n : Nat} (hn : n < 2 ^ 53) : (ofInt64 (Int64.ofNat n)).rank = ofNat n := by
  have hint : (Int64.ofNat n).toInt = n := Int64.toInt_ofNat_of_lt (by omega)
  have hnn : ¬ Int64.ofNat n < 0 := by
    rw [Int64.lt_iff_toInt_lt, hint]
    exact Int.not_lt.mpr (Int.natCast_nonneg n)
  have hle := ofNat_le (show n < 2 ^ 64 by omega)
  have hbits : (ofInt64 (Int64.ofNat n)).bits.toNat = ofNat n := by
    unfold ofInt64
    dsimp only
    rw [if_neg hnn, hint, Int.natAbs_natCast, UInt64.toNat_ofNat', Nat.add_zero]
    exact Nat.mod_eq_of_lt (by omega)
  rw [rank, magnitude, hbits, if_pos (by omega), Nat.mod_eq_of_lt (by omega)]

theorem ofInt64_lt {m n : Nat} (h : m < n) (hn : n < 2 ^ 53) :
    (ofInt64 (Int64.ofNat m)).lt (ofInt64 (Int64.ofNat n)) = true := by
  refine lt_iff.mpr ⟨ofInt64_not_nan _, ofInt64_not_nan _, ?_⟩
  rw [rank_ofInt64 (h.trans hn), rank_ofInt64 hn]
  exact Int.ofNat_lt.mpr (ofNat_lt h hn)

/-- of two numbers that are not greater, the second is a number -/
theorem not_lt_trans (hb : b.isNan = false) (h1 : b.lt a = false) (h2 : c.lt b = false) :
    c.lt a = false := by
  rw [Bool.eq_false_iff, Ne, lt_iff] at h1 h2 ⊢
  rintro ⟨hc, ha, hlt⟩
  have hba : ¬ b.rank < a.rank := fun h => h1 ⟨hb, ha, h⟩
  have hcb : ¬ c.rank < b.rank := fun h => h2 ⟨hc, hb, h⟩
  omega

theorem lt_asymm (h : a.lt b = true) : b.lt a = false := by
  rw [Bool.eq_false_iff, Ne, lt_iff]
  rw [lt_iff] at h
  omega

theorem lt_irrefl (a : Double) : a.lt a = false := by
  rw [Bool.eq_false_iff, Ne, lt_iff]
  omega

/-- a NaN is not below anything, and nothing is below it -/
theorem nan_lt (h : a.isNan = true) (b : Double) : a.lt b = false ∧ b.lt a = false := by
  simp [lt, h]

end

end Double
end HolyPhp
