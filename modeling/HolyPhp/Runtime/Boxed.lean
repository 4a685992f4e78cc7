import HolyPhp.Runtime.Clone
import Mathlib.Tactic.Ring

/-!
# Boxed integers

A value behind a `mixed` slot is compared by `hp_val_eq` and `hp_val_cmp`, which make `double`s of
two integers; the operators of two `int` expressions are those of C.

* `Double.nearest`      the number of 53 bits nearest to an integer;
* `Double.ofNat_mono`, `Double.ofNat_inj`  the conversion keeps the order, and two integers have
                        the same `double` just if they have the same nearest number;
* `hpLt`, `hpGt`, `hpLe`, `hpGe`, `hpCmp`, `hpAdd`, `hpSub`, `hpMul`  the boxed operators;
* `Alike`               the boxed operators do what those of C do;
* `alike_iff`           **they do if and only if the integers are the same or have different nearest
                        numbers of 53 bits.**
-/

set_option autoImplicit false

namespace HolyPhp
namespace Double

/-! ## the conversion of integers -/

/-- `m` rounded to 53 bits -/
def nearestNat (m : Nat) : Nat := roundShift m (Nat.log2 m - 52) * 2 ^ (Nat.log2 m - 52)

/-- the integer nearest to `i` whose absolute value has at most 53 bits before its zeros; in the
middle the one with the even bits -/
def nearest (i : Int) : Int :=
  if i < 0 then -(nearestNat i.natAbs : Int) else nearestNat i.natAbs

example : nearest 9007199254740992 = nearest 9007199254740993 := by decide
example : nearest 9007199254740993 ≠ nearest 9007199254740995 := by decide

section
variable {m n s : Nat} {a b : Int64}

/-- the 53 bits of the mantissa; `2 ^ 53` after a carry -/
def mantissa (m : Nat) : Nat :=
  if Nat.log2 m ≤ 52 then m * 2 ^ (52 - Nat.log2 m) else roundShift m (Nat.log2 m - 52)

theorem ofNat_mantissa (h : m ≠ 0) : ofNat m = (Nat.log2 m + 1022) * 2 ^ 52 + mantissa m := by
  rw [ofNat, if_neg h, mantissa]
  split <;> rfl

theorem le_roundShift (m s : Nat) : m / 2 ^ s ≤ roundShift m s := by
  unfold roundShift
  dsimp only
  split <;> omega

theorem mantissa_bounds (h : m ≠ 0) : 2 ^ 52 ≤ mantissa m ∧ mantissa m ≤ 2 ^ 53 := by
  have hlo := Nat.log2_self_le h
  have hhi : m < 2 ^ (Nat.log2 m + 1) := Nat.lt_log2_self
  unfold mantissa
  split
  · rename_i hle
    have h1 := Nat.mul_le_mul_right (2 ^ (52 - Nat.log2 m)) hlo
    have h2 := Nat.mul_le_mul_right (2 ^ (52 - Nat.log2 m)) hhi.le
    rw [← Nat.pow_add, show Nat.log2 m + (52 - Nat.log2 m) = 52 by omega] at h1
    rw [← Nat.pow_add, show Nat.log2 m + 1 + (52 - Nat.log2 m) = 53 by omega] at h2
    exact ⟨h1, h2⟩
  · rename_i hgt
    constructor
    · have hdiv : 2 ^ 52 ≤ m / 2 ^ (Nat.log2 m - 52) := by
        rw [Nat.le_div_iff_mul_le (Nat.two_pow_pos _), ← Nat.pow_add,
          show 52 + (Nat.log2 m - 52) = Nat.log2 m by omega]
        exact hlo
      exact hdiv.trans (le_roundShift _ _)
    · apply roundShift_le
      rw [← Nat.pow_add, show Nat.log2 m - 52 + 53 = Nat.log2 m + 1 by omega]
      exact hhi

/-- the rounded number by its mantissa and exponent -/
theorem nearestNat_mantissa (m : Nat) : nearestNat m * 2 ^ 52 = mantissa m * 2 ^ Nat.log2 m := by
  unfold nearestNat mantissa
  split
  · rename_i hle
    have hpow : 2 ^ (52 - Nat.log2 m) * 2 ^ Nat.log2 m = 2 ^ 52 := by
      rw [← Nat.pow_add, Nat.sub_add_cancel hle]
    rw [Nat.sub_eq_zero_of_le hle, Nat.mul_assoc m, hpow]
    simp [roundShift, Nat.mod_one]
  · rename_i hgt
    rw [Nat.mul_assoc, ← Nat.pow_add, show Nat.log2 m - 52 + 52 = Nat.log2 m by omega]

theorem roundShift_mono (h : m ≤ n) : roundShift m s ≤ roundShift n s := by
  have hq := Nat.div_le_div_right (c := 2 ^ s) h
  rcases Nat.eq_or_lt_of_le hq with he | hlt
  · -- the same quotient: the remainders are in order
    have hm := Nat.div_add_mod m (2 ^ s)
    have hn := Nat.div_add_mod n (2 ^ s)
    rw [he] at hm
    unfold roundShift
    dsimp only
    rw [he]
    split <;> split <;> omega
  · calc roundShift m s ≤ m / 2 ^ s + 1 := by
          unfold roundShift
          dsimp only
          split <;> omega
      _ ≤ n / 2 ^ s := hlt
      _ ≤ roundShift n s := le_roundShift n s

theorem log2_mono (hm : m ≠ 0) (h : m ≤ n) : Nat.log2 m ≤ Nat.log2 n :=
  (Nat.le_log2 (by omega)).mpr ((Nat.log2_self_le hm).trans h)

/-- **The conversion keeps the order.** -/
theorem ofNat_mono (h : m ≤ n) : ofNat m ≤ ofNat n := by
  by_cases hm : m = 0
  · rw [hm]
    exact Nat.zero_le _
  · have hn : n ≠ 0 := by omega
    have hbm := mantissa_bounds hm
    have hbn := mantissa_bounds hn
    rw [ofNat_mantissa hm, ofNat_mantissa hn]
    rcases Nat.eq_or_lt_of_le (log2_mono hm h) with he | hlt
    · have hman : mantissa m ≤ mantissa n := by
        unfold mantissa
        rw [he]
        split
        · exact Nat.mul_le_mul_right _ h
        · exact roundShift_mono h
      rw [he]
      omega
    · omega

theorem ofNat_pos (h : m ≠ 0) : 0 < ofNat m := by
  have hb := mantissa_bounds h
  rw [ofNat_mantissa h]
  omega

theorem nearestNat_pos (h : m ≠ 0) : 0 < nearestNat m := by
  have hb := mantissa_bounds h
  have he := nearestNat_mantissa m
  have hmul : 0 < mantissa m * 2 ^ Nat.log2 m :=
    Nat.mul_pos (by omega) (Nat.two_pow_pos _)
  omega

/-- numbers with different exponents have one `double` just after a carry to the next exponent -/
theorem ofNat_inj_lt (hm : m ≠ 0) (hn : n ≠ 0) (h : Nat.log2 m < Nat.log2 n) :
    ofNat m = ofNat n ↔ nearestNat m = nearestNat n := by
  have hbm := mantissa_bounds hm
  have hbn := mantissa_bounds hn
  have hnm := nearestNat_mantissa m
  have hnn := nearestNat_mantissa n
  obtain ⟨d, hd⟩ := Nat.exists_eq_add_of_lt h
  have hpow : 2 ^ Nat.log2 n = 2 ^ Nat.log2 m * 2 ^ d * 2 := by
    rw [hd, Nat.pow_succ, Nat.pow_add]
  rw [ofNat_mantissa hm, ofNat_mantissa hn]
  rw [hpow] at hnn
  have hpos : 0 < 2 ^ Nat.log2 m := Nat.two_pow_pos _
  -- both sides say that the mantissas are `2 ^ 53` and `2 ^ 52` and the exponents are neighbours
  have hcarry : mantissa m = mantissa n * 2 ^ d * 2 ↔
      d = 0 ∧ mantissa m = 2 ^ 53 ∧ mantissa n = 2 ^ 52 := by
    constructor
    · intro he
      by_cases hd0 : d = 0
      · subst hd0
        omega
      · obtain ⟨k, rfl⟩ := Nat.exists_eq_succ_of_ne_zero hd0
        have hk : 0 < 2 ^ k := Nat.two_pow_pos k
        have htwo : 2 ≤ 2 ^ k.succ := by
          rw [Nat.pow_succ]
          omega
        have hle := Nat.mul_le_mul hbn.1 htwo
        omega
    · rintro ⟨rfl, h1, h2⟩
      rw [h1, h2]
      rfl
  have hprod : nearestNat m = nearestNat n ↔ mantissa m = mantissa n * 2 ^ d * 2 := by
    have hassoc : mantissa n * (2 ^ Nat.log2 m * 2 ^ d * 2) =
        mantissa n * 2 ^ d * 2 * 2 ^ Nat.log2 m := by ring
    rw [hassoc] at hnn
    constructor
    · intro he
      rw [he] at hnm
      exact Nat.eq_of_mul_eq_mul_right hpos (hnm.symm.trans hnn)
    · intro he
      rw [he] at hnm
      exact Nat.eq_of_mul_eq_mul_right (Nat.two_pow_pos 52) (hnm.trans hnn.symm)
  rw [hprod, hcarry]
  omega

theorem ofNat_inj : ofNat m = ofNat n ↔ nearestNat m = nearestNat n := by
  by_cases hm : m = 0
  · by_cases hn : n = 0
    · rw [hm, hn]
      exact iff_of_true rfl rfl
    · have h1 := ofNat_pos hn
      have h2 := nearestNat_pos hn
      have h3 : ofNat 0 = 0 := rfl
      have h4 : nearestNat 0 = 0 := rfl
      rw [hm]
      omega
  · by_cases hn : n = 0
    · have h1 := ofNat_pos hm
      have h2 := nearestNat_pos hm
      have h3 : ofNat 0 = 0 := rfl
      have h4 : nearestNat 0 = 0 := rfl
      rw [hn]
      omega
    · rcases Nat.lt_trichotomy (Nat.log2 m) (Nat.log2 n) with h | h | h
      · exact ofNat_inj_lt hm hn h
      · have hnm := nearestNat_mantissa m
        have hnn := nearestNat_mantissa n
        rw [ofNat_mantissa hm, ofNat_mantissa hn, h]
        rw [h] at hnm
        have hpos : 0 < 2 ^ Nat.log2 n := Nat.two_pow_pos _
        constructor
        · intro he
          have hman : mantissa m = mantissa n := by omega
          rw [hman] at hnm
          exact Nat.eq_of_mul_eq_mul_right (Nat.two_pow_pos 52) (hnm.trans hnn.symm)
        · intro he
          rw [he] at hnm
          rw [Nat.eq_of_mul_eq_mul_right hpos (hnm.symm.trans hnn)]
      · exact eq_comm.trans ((ofNat_inj_lt hn hm h).trans eq_comm)

/-! ## signs -/

theorem rank_of_int (i : Int64) : (ofInt64 i).rank =
    if i.toInt < 0 then -(ofNat i.toInt.natAbs : Int) else ofNat i.toInt.natAbs := by
  have hlo := i.le_toInt
  have hhi := i.toInt_lt
  have hneg : i < 0 ↔ i.toInt < 0 := Int64.lt_iff_toInt_lt
  have hle := ofNat_le (show i.toInt.natAbs < 2 ^ 64 by omega)
  by_cases h : i.toInt < 0
  · have hbits : (ofInt64 i).bits.toNat = ofNat i.toInt.natAbs + 2 ^ 63 := by
      unfold ofInt64
      dsimp only
      rw [if_pos (hneg.mpr h), UInt64.toNat_ofNat']
      exact Nat.mod_eq_of_lt (by omega)
    rw [rank, magnitude, hbits, if_neg (by omega), if_pos h]
    omega
  · have hbits : (ofInt64 i).bits.toNat = ofNat i.toInt.natAbs := by
      unfold ofInt64
      dsimp only
      rw [if_neg (mt hneg.mp h), UInt64.toNat_ofNat', Nat.add_zero]
      exact Nat.mod_eq_of_lt (by omega)
    rw [rank, magnitude, hbits, if_pos (by omega), if_neg h]
    omega

theorem rank_mono (h : a ≤ b) : (ofInt64 a).rank ≤ (ofInt64 b).rank := by
  have hle := Int64.le_iff_toInt_le.mp h
  rw [rank_of_int, rank_of_int]
  by_cases ha : a.toInt < 0
  · by_cases hb : b.toInt < 0
    · have := ofNat_mono (m := b.toInt.natAbs) (n := a.toInt.natAbs) (by omega)
      rw [if_pos ha, if_pos hb]
      omega
    · rw [if_pos ha, if_neg hb]
      omega
  · have := ofNat_mono (m := a.toInt.natAbs) (n := b.toInt.natAbs) (by omega)
    rw [if_neg ha, if_neg (by omega)]
    omega

/-- **Two integers have one `double`** just if they have one nearest number. -/
theorem rank_inj : (ofInt64 a).rank = (ofInt64 b).rank ↔ nearest a.toInt = nearest b.toInt := by
  have hinj := ofNat_inj (m := a.toInt.natAbs) (n := b.toInt.natAbs)
  have hpos : ∀ i : Int, i < 0 → 0 < ofNat i.natAbs ∧ 0 < nearestNat i.natAbs := fun i hi =>
    ⟨ofNat_pos (by omega), nearestNat_pos (by omega)⟩
  have ha := hpos a.toInt
  have hb := hpos b.toInt
  rw [rank_of_int, rank_of_int, nearest, nearest]
  split <;> split <;> omega

end

end Double

namespace Cmp
open Clone (hpValEq)
open HolyPhp.Std (Heap)

/-! ## the operators -/

/-- what the operators call outside of integers: the arithmetic of `double`s, the conversion of a
text, the merge of two arrays, the concatenation of two values and the test for a number -/
structure Calls where
  strtod : Bytes → Double
  add : Double → Double → Double
  sub : Double → Double → Double
  mul : Double → Double → Double
  hpArrMerge : Option Addr → Option Addr → Val
  hpStrConcat2 : Val → Val → Val
  hpStrIsNumeric : Option Bytes → Bool

section
variable (c : Calls) (h : Heap)

def hpLt (a b : Val) : Bool := hpValCmp c.strtod a b < 0
def hpGt (a b : Val) : Bool := 0 < hpValCmp c.strtod a b
def hpLe (a b : Val) : Bool := hpValCmp c.strtod a b ≤ 0
def hpGe (a b : Val) : Bool := 0 ≤ hpValCmp c.strtod a b
def hpCmp (a b : Val) : Int := hpValCmp c.strtod a b

def hpNumLike : Val → Bool
  | .int _ | .float _ | .bool _ => true
  | .str s => c.hpStrIsNumeric s
  | _ => false

/-- `+` of two values of which one is a string -/
def addStr (a b : Val) : Val :=
  if hpNumLike c a && hpNumLike c b then
    let da := hpValToFloat c.strtod a
    let db := hpValToFloat c.strtod b
    if a.tag ≠ .float ∧ b.tag ≠ .float ∧ da.eq (Double.ofInt64 da.toInt64) = true ∧
        db.eq (Double.ofInt64 db.toInt64) = true then .int (da.toInt64 + db.toInt64)
    else .float (c.add da db)
  else c.hpStrConcat2 a b

/-- an operator of numbers -/
def arith (f : Double → Double → Double) (i : Int64 → Int64 → Int64) (a b : Val) : Val :=
  if a.tag = .float ∨ b.tag = .float then
    .float (f (hpValToFloat c.strtod a) (hpValToFloat c.strtod b))
  else .int (i (hpValToInt a) (hpValToInt b))

def hpAdd : Val → Val → Val
  | .arr p, .arr q => c.hpArrMerge p q
  | a, b => if a.tag = .str ∨ b.tag = .str then addStr c a b else arith c c.add (· + ·) a b

def hpSub (a b : Val) : Val := arith c c.sub (· - ·) a b
def hpMul (a b : Val) : Val := arith c c.mul (· * ·) a b

/-- the boxed operators on `a` and `b` do what the operators of C do that are emitted for `int` -/
structure Alike (a b : Int64) : Prop where
  eq : hpValEq c.strtod h (.int a) (.int b) = decide (a = b)
  lt : hpLt c (.int a) (.int b) = decide (a < b)
  gt : hpGt c (.int a) (.int b) = decide (b < a)
  le : hpLe c (.int a) (.int b) = decide (a ≤ b)
  ge : hpGe c (.int a) (.int b) = decide (b ≤ a)
  cmp : hpCmp c (.int a) (.int b) = if a < b then -1 else if b < a then 1 else 0
  add : hpAdd c (.int a) (.int b) = .int (a + b)
  sub : hpSub c (.int a) (.int b) = .int (a - b)
  mul : hpMul c (.int a) (.int b) = .int (a * b)

end

/-! ## two integers -/

section
variable {c : Calls} {h : Heap} {a b : Int64}

/-- the comparison is that of the ranks of the `double`s -/
theorem valCmp_rank (strtod : Bytes → Double) (a b : Int64) :
    hpValCmp strtod (.int a) (.int b) =
      if (Double.ofInt64 a).rank < (Double.ofInt64 b).rank then -1
      else if (Double.ofInt64 b).rank < (Double.ofInt64 a).rank then 1 else 0 := by
  show (if (Double.ofInt64 a).lt (Double.ofInt64 b) = true then (-1 : Int)
    else if (Double.ofInt64 b).lt (Double.ofInt64 a) = true then 1 else 0) = _
  simp only [Double.lt_iff, Double.ofInt64_not_nan, true_and]

theorem valEq_rank (strtod : Bytes → Double) (h : Heap) (a b : Int64) :
    hpValEq strtod h (.int a) (.int b) =
      decide ((Double.ofInt64 a).rank = (Double.ofInt64 b).rank) := by
  show (Double.ofInt64 a).eq (Double.ofInt64 b) = _
  rw [Bool.eq_iff_iff, Double.eq_iff, decide_eq_true_iff]
  simp only [Double.ofInt64_not_nan, true_and]

/-- the sign of a comparison -/
theorem sign_iff (x y : Int) :
    let s : Int := if x < y then -1 else if y < x then 1 else 0
    (s < 0 ↔ x < y) ∧ (0 < s ↔ y < x) ∧ (s ≤ 0 ↔ x ≤ y) ∧ (0 ≤ s ↔ y ≤ x) := by
  dsimp only
  split_ifs <;> omega

/-- different `double`s are in the order of the integers -/
theorem rank_lt_iff (hne : a = b ∨ Double.nearest a.toInt ≠ Double.nearest b.toInt) :
    (Double.ofInt64 a).rank < (Double.ofInt64 b).rank ↔ a < b := by
  rw [Int64.lt_iff_toInt_lt]
  rcases hne with rfl | hne
  · omega
  · have hrank := mt Double.rank_inj.mp hne
    constructor
    · intro hlt
      by_contra hge
      have := Double.rank_mono (a := b) (b := a) (Int64.le_iff_toInt_le.mpr (by omega))
      omega
    · intro hlt
      have := Double.rank_mono (a := a) (b := b) (Int64.le_iff_toInt_le.mpr (by omega))
      omega

end

/-- **Boxed integers are alike to those of C** if and only if they are the same, or have different
nearest numbers of 53 bits. -/
theorem alike_iff (c : Calls) (h : Heap) (a b : Int64) :
    Alike c h a b ↔ a = b ∨ Double.nearest a.toInt ≠ Double.nearest b.toInt := by
  constructor
  · intro hal
    have heq := hal.eq
    rw [valEq_rank, decide_eq_decide, Double.rank_inj] at heq
    by_cases hab : a = b
    · exact .inl hab
    · exact .inr (mt heq.mp hab)
  · intro hne
    have hab := rank_lt_iff hne
    have hba := rank_lt_iff (a := b) (b := a) (hne.imp Eq.symm Ne.symm)
    have hcmp : hpValCmp c.strtod (.int a) (.int b) =
        if a.toInt < b.toInt then -1 else if b.toInt < a.toInt then 1 else 0 := by
      rw [valCmp_rank]
      simp only [hab, hba, Int64.lt_iff_toInt_lt]
    obtain ⟨hlt, hgt, hle, hge⟩ := sign_iff a.toInt b.toInt
    refine ⟨?_, ?_, ?_, ?_, ?_, ?_, rfl, rfl, rfl⟩
    · rw [valEq_rank, decide_eq_decide, Double.rank_inj]
      exact ⟨fun he => hne.resolve_right fun hn => hn he, fun he => congrArg _ (congrArg _ he)⟩
    · rw [hpLt, hcmp, decide_eq_decide, hlt, Int64.lt_iff_toInt_lt]
    · rw [hpGt, hcmp, decide_eq_decide, hgt, Int64.lt_iff_toInt_lt]
    · rw [hpLe, hcmp, decide_eq_decide, hle, Int64.le_iff_toInt_le]
    · rw [hpGe, hcmp, decide_eq_decide, hge, Int64.le_iff_toInt_le]
    · rw [hpCmp, hcmp]
      simp only [Int64.lt_iff_toInt_lt]

/-- `2 ** 53` and `2 ** 53 + 1` are equal -/
theorem boxed_unlike :
    ¬ ∃ (c : Calls) (h : Heap), Alike c h 9007199254740992 9007199254740993 := by
  rintro ⟨c, h, hal⟩
  have he : Double.ofInt64 9007199254740992 = Double.ofInt64 9007199254740993 := by decide
  have heq := hal.eq
  rw [valEq_rank, he] at heq
  exact absurd (decide_eq_decide.mp heq |>.mp rfl) (by decide)

end Cmp
end HolyPhp
