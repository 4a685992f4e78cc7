import HolyPhp.Runtime.Cmp
import HolyPhp.Runtime.Slices
import Mathlib.Algebra.Group.Basic
import Mathlib.Tactic.Ring

/-!
# Powers of integers

`hp_pow_i` and `hp_powv` square and multiply, in a loop of their own each; the products wrap.

* `square_odd`, `square_even`  one round keeps `r * base ^ e`, in any monoid;
* `powLoop`          the loop, `none` where it is not over after so many rounds;
* `hpPowI`, `hpPowv` the functions; `pow` and `strtod` are the library's;
* `powLoop_eq`       the loop is over once the exponent has no bits left;
* `pow_eq`           **both give `a ^ b` modulo `2 ^ 64`, after 64 rounds at most.**
-/

set_option autoImplicit false

namespace HolyPhp
namespace Pow
open HolyPhp.Std
open Cmp (Val hpValToFloat)

/-! ## one round -/

section
variable {M : Type*} [Monoid M]

theorem square_even (r b : M) {e : Nat} (h : e % 2 = 0) : r * (b * b) ^ (e / 2) = r * b ^ e := by
  have he : 2 * (e / 2) = e := by omega
  rw [← pow_two, ← pow_mul, he]

theorem square_odd (r b : M) {e : Nat} (h : e % 2 = 1) :
    r * b * (b * b) ^ (e / 2) = r * b ^ e := by
  have he : 2 * (e / 2) + 1 = e := by omega
  rw [← pow_two, ← pow_mul, mul_assoc, ← pow_succ', he]

end

/-! ## the functions -/

/-- `while (e) { if (e & 1) r *= base; base *= base; e >>= 1; }` -/
def powLoop : Nat → Int64 → Int64 → Int64 → Option Int64
  | 0, r, _, e => if e = 0 then some r else none
  | n + 1, r, base, e =>
    if e = 0 then some r
    else powLoop n (if e &&& 1 ≠ 0 then r * base else r) (base * base) (e >>> 1)

/-- at most `n` rounds, as below -/
def hpPowI (n : Nat) (a b : Int64) : Option Int64 :=
  if b < 0 then some 0 else powLoop n 1 a b

def hpPowv (strtod : Bytes → Double) (pow : Double → Double → Double) (n : Nat) (a b : Val) :
    Option Val :=
  let floats : Val := .float (pow (hpValToFloat strtod a) (hpValToFloat strtod b))
  match a, b with
  | .int x, .int y => if 0 ≤ y then (powLoop n 1 x y).map .int else some floats
  | _, _ => some floats

/-! ## the exponent -/

section
variable {e : Int64} {k n : Nat}

theorem eq_zero_iff (he : e.toInt = k) : e = 0 ↔ k = 0 := by
  rw [← Int64.toInt_inj, he, show (0 : Int64).toInt = 0 from rfl]
  exact Int.natCast_eq_zero

theorem toInt_shiftRight_one (e : Int64) : (e >>> 1).toInt = e.toInt / 2 := by
  have h : (e >>> 1).toBitVec = e.toBitVec.sshiftRight 1 := by
    rw [Int64.toBitVec_shiftRight]
    rfl
  rw [← Int64.toInt_toBitVec, h, BitVec.toInt_sshiftRight, Int.shiftRight_eq_div_pow]
  rfl

theorem shiftRight_one (he : e.toInt = k) : (e >>> 1).toInt = (k / 2 : Nat) := by
  rw [toInt_shiftRight_one, he]
  rfl

theorem toNat_toBitVec (he : e.toInt = k) : e.toBitVec.toNat = k := by
  have h := BitVec.toInt_eq_toNat_cond e.toBitVec
  have hlt := e.toBitVec.isLt
  have hk : e.toBitVec.toInt = k := he
  rw [hk] at h
  split at h <;> omega

theorem and_one (he : e.toInt = k) : e &&& 1 ≠ 0 ↔ k % 2 = 1 := by
  have hbits : (e &&& 1).toBitVec.toNat = k % 2 := by
    rw [Int64.toBitVec_and, Int64.toBitVec_one, BitVec.toNat_and, toNat_toBitVec he]
    exact Nat.and_one_is_mod k
  rw [ne_eq, ← Int64.toBitVec_inj, ← BitVec.toNat_inj, hbits]
  show ¬ k % 2 = 0 ↔ _
  omega

/-! ## the loop -/

/-- the invariant is `r * base ^ e`, as an integer modulo `2 ^ 64` -/
theorem powLoop_eq (r x : Int) (he : e.toInt = k) (hk : k < 2 ^ n) :
    powLoop n (Int64.ofInt r) (Int64.ofInt x) e = some (Int64.ofInt (r * x ^ k)) := by
  induction n generalizing r x e k with
  | zero =>
    have h0 : k = 0 := by omega
    rw [powLoop, if_pos ((eq_zero_iff he).mpr h0), h0, pow_zero, mul_one]
  | succ n ih =>
    rw [powLoop]
    by_cases h0 : k = 0
    · rw [if_pos ((eq_zero_iff he).mpr h0), h0, pow_zero, mul_one]
    · have hhalf : k / 2 < 2 ^ n := by
        rw [Nat.pow_succ] at hk
        omega
      rw [if_neg (mt (eq_zero_iff he).mp h0), ← Int64.ofInt_mul, ← Int64.ofInt_mul]
      by_cases hodd : k % 2 = 1
      · rw [if_pos ((and_one he).mpr hodd), ih _ _ (shiftRight_one he) hhalf, square_odd _ _ hodd]
      · have heven : k % 2 = 0 := by omega
        rw [if_neg (mt (and_one he).mp hodd), ih _ _ (shiftRight_one he) hhalf,
          square_even _ _ heven]

end

/-- **Integer powers**: the loops of both functions are over after at most 64 rounds, with `a ^ b`
modulo `2 ^ 64`. -/
theorem pow_eq (strtod : Bytes → Double) (pow : Double → Double → Double) (a b : Int64)
    (hb : 0 ≤ b) :
    hpPowI 64 a b = some (Int64.ofInt (a.toInt ^ b.toInt.toNat)) ∧
      hpPowv strtod pow 64 (.int a) (.int b) =
        some (.int (Int64.ofInt (a.toInt ^ b.toInt.toNat))) := by
  have h0 : 0 ≤ b.toInt := Int64.le_iff_toInt_le.mp hb
  have hrange := toInt_range b
  have hk : b.toInt = b.toInt.toNat := by omega
  have hlt : b.toInt.toNat < 2 ^ 64 := by omega
  have hloop := powLoop_eq 1 a.toInt hk hlt
  rw [Int64.ofInt_toInt, one_mul] at hloop
  have hneg : ¬ b < 0 := by
    rw [Int64.lt_iff_toInt_lt]
    exact Int.not_lt.mpr h0
  constructor
  · rw [hpPowI, if_neg hneg]
    exact hloop
  · show (if 0 ≤ b then (powLoop 64 1 a b).map HVal.int else _) = _
    rw [if_pos hb]
    exact congrArg (Option.map HVal.int) hloop

theorem pow_eq_wraps : (0 : Int64) ≤ 41 ∧
    hpPowI 64 3 41 = some (Int64.ofInt ((3 : Int64).toInt ^ (41 : Int64).toInt.toNat)) :=
  ⟨by decide, (pow_eq (fun _ => ⟨0⟩) (fun x _ => x) 3 41 (by decide)).1⟩

example : hpPowI 64 3 41 = some (-420491770248316829) := by decide

end Pow
end HolyPhp
