import HolyPhp.Runtime.Arr
import Mathlib.Algebra.Order.Group.Unbundled.Int

/-!
# `range`

The loops of `hp_range` compare with the last number and then step, on 64 bits.  `rangeLoop` is
either of them; `none` is a loop that has not come to its end in so many rounds.

* `rangeLoop_run`    a loop that comes to its end;
* `hpRange_iff`      **the list is exact if and only if no step goes past the end of the integers.**
-/

set_option autoImplicit false

namespace HolyPhp
namespace Arr

/-- `for (i = lo; goes(i); i = next(i)) hp_arr_push(a, i)` -/
def rangeLoop (goes : Int64 → Bool) (next : Int64 → Int64) : Nat → Int64 → Harr → Option Harr
  | 0, _, _ => none
  | fuel + 1, i, a =>
    if goes i then rangeLoop goes next fuel (next i) (hpArrPush a (.int i)) else some a

def hpRange (junk : Nat → Val) (fuel : Nat) (lo hi : Int64) : Option Harr :=
  if lo ≤ hi then rangeLoop (· ≤ hi) (· + 1) fuel lo (hpArrNew junk)
  else rangeLoop (hi ≤ ·) (· - 1) fuel lo (hpArrNew junk)

/-- the list of the integers from `lo` to `hi` -/
structure IsRange (lo hi : Int64) (a : Harr) : Prop where
  isMap : a.isMap = false
  len : a.len = (hi.toInt - lo.toInt).natAbs + 1
  vals : ∀ k < a.len, a.vals k =
    .int (Int64.ofInt (if lo ≤ hi then lo.toInt + k else lo.toInt - k))

section
variable {goes : Int64 → Bool} {next : Int64 → Int64} {f : Nat → Int64} {n fuel : Nat} {a : Harr}
  {lo hi : Int64}

/-- **A loop that ends** after `n` rounds. -/
theorem rangeLoop_run (hgo : ∀ k < n, goes (f k) = true) (hstop : goes (f n) = false)
    (hnext : ∀ k < n, next (f k) = f (k + 1)) (hfuel : n < fuel) :
    rangeLoop goes next fuel (f 0) a =
      some ((List.range n).foldl (fun a k => hpArrPush a (.int (f k))) a) := by
  induction n generalizing f fuel a with
  | zero =>
    obtain ⟨fuel, rfl⟩ := Nat.exists_eq_add_one.mpr hfuel
    rw [rangeLoop, hstop, if_neg Bool.false_ne_true]
    rfl
  | succ n ih =>
    obtain ⟨fuel, rfl⟩ := Nat.exists_eq_add_one.mpr (Nat.zero_lt_of_lt hfuel)
    rw [rangeLoop, hgo 0 (Nat.succ_pos n), if_pos rfl, hnext 0 (Nat.succ_pos n)]
    rw [ih (f := fun k => f (k + 1)) (fun k hk => hgo (k + 1) (by omega)) hstop
      (fun k hk => hnext (k + 1) (by omega)) (by omega)]
    rw [List.range_succ_eq_map, List.foldl_cons, List.foldl_map]

/-- a loop that goes on at every integer does not end -/
theorem rangeLoop_endless (hgo : ∀ i, goes i = true) (fuel : Nat) (i : Int64) (a : Harr) :
    rangeLoop goes next fuel i a = none := by
  induction fuel generalizing i a with
  | zero => rfl
  | succ fuel ih =>
    rw [rangeLoop, hgo i, if_pos rfl]
    exact ih _ _

variable (goes next f n) in
/-- the loop that starts with a new array -/
theorem rangeLoop_list (junk : Nat → Val) (hgo : ∀ k < n, goes (f k) = true)
    (hstop : goes (f n) = false) (hnext : ∀ k < n, next (f k) = f (k + 1)) :
    ∃ a, rangeLoop goes next (n + 1) (f 0) (hpArrNew junk) = some a ∧ a.isMap = false ∧
      a.len = n ∧ ∀ k < n, a.vals k = .int (f k) := by
  refine ⟨_, rangeLoop_run hgo hstop hnext (Nat.lt_succ_self n), ?_⟩
  exact pushes_spec junk (fun k => .int (f k)) n

theorem ofInt_le {i : Int} (h0 : -2 ^ 63 ≤ i) (h1 : i < 2 ^ 63) :
    Int64.ofInt i ≤ hi ↔ i ≤ hi.toInt := by
  rw [Int64.le_iff_toInt_le, Int64.toInt_ofInt_of_le h0 h1]

theorem le_ofInt {i : Int} (h0 : -2 ^ 63 ≤ i) (h1 : i < 2 ^ 63) :
    hi ≤ Int64.ofInt i ↔ hi.toInt ≤ i := by
  rw [Int64.le_iff_toInt_le, Int64.toInt_ofInt_of_le h0 h1]

theorem toInt_lt_max (h : hi ≠ Int64.maxValue) : hi.toInt < 2 ^ 63 - 1 := by
  have hle := Int64.toInt_le hi
  have hne : hi.toInt ≠ Int64.maxValue.toInt := fun e => h (Int64.toInt_inj.mp e)
  rw [Int64.toInt_maxValue] at hle hne
  omega

theorem lt_toInt_min (h : hi ≠ Int64.minValue) : -2 ^ 63 < hi.toInt := by
  have hle := Int64.le_toInt hi
  have hne : hi.toInt ≠ Int64.minValue.toInt := fun e => h (Int64.toInt_inj.mp e)
  rw [Int64.toInt_minValue] at hne
  omega

/-- the loop upwards -/
theorem range_up (junk : Nat → Val) (h : lo ≤ hi) (hmax : hi ≠ Int64.maxValue) :
    ∃ fuel a, hpRange junk fuel lo hi = some a ∧ IsRange lo hi a := by
  have hlo := Int64.le_toInt lo
  have hdiff := Int64.le_iff_toInt_le.mp h
  have hhi := toInt_lt_max hmax
  obtain ⟨a, ha, hm, hlen, hvals⟩ := rangeLoop_list (· ≤ hi) (· + 1)
    (fun k => Int64.ofInt (lo.toInt + k)) ((hi.toInt - lo.toInt).natAbs + 1) junk
    (fun k hk => decide_eq_true ((ofInt_le (by omega) (by omega)).mpr (by omega)))
    (decide_eq_false fun hc => by
      have := (ofInt_le (by omega) (by omega)).mp hc
      omega)
    (fun k hk => by
      rw [show lo.toInt + ((k + 1 : Nat) : Int) = lo.toInt + k + 1 by omega,
        Int64.ofInt_add (_ + _) 1]
      rfl)
  refine ⟨(hi.toInt - lo.toInt).natAbs + 1 + 1, a, ?_, hm, hlen, fun k hk => ?_⟩
  · rw [hpRange, if_pos h]
    simpa using ha
  · rw [if_pos h]
    exact hvals k (hlen ▸ hk)

/-- the loop downwards -/
theorem range_down (junk : Nat → Val) (h : ¬ lo ≤ hi) (hmin : hi ≠ Int64.minValue) :
    ∃ fuel a, hpRange junk fuel lo hi = some a ∧ IsRange lo hi a := by
  have hlo := Int64.toInt_lt lo
  have hdiff := mt Int64.le_iff_toInt_le.mpr h
  have hhi := lt_toInt_min hmin
  obtain ⟨a, ha, hm, hlen, hvals⟩ := rangeLoop_list (hi ≤ ·) (· - 1)
    (fun k => Int64.ofInt (lo.toInt - k)) ((hi.toInt - lo.toInt).natAbs + 1) junk
    (fun k hk => decide_eq_true ((le_ofInt (by omega) (by omega)).mpr (by omega)))
    (decide_eq_false fun hc => by
      have := (le_ofInt (by omega) (by omega)).mp hc
      omega)
    (fun k hk => by
      rw [show lo.toInt - ((k + 1 : Nat) : Int) = lo.toInt - k - 1 by omega,
        Int64.ofInt_sub (_ - _) 1]
      rfl)
  refine ⟨(hi.toInt - lo.toInt).natAbs + 1 + 1, a, ?_, hm, hlen, fun k hk => ?_⟩
  · rw [hpRange, if_neg h]
    simpa using ha
  · rw [if_neg h]
    exact hvals k (hlen ▸ hk)

/-- **`hp_range`** ends with the list if and only if the number behind its last one exists. -/
theorem hpRange_iff (junk : Nat → Val) (lo hi : Int64) :
    (∃ fuel a, hpRange junk fuel lo hi = some a ∧ IsRange lo hi a) ↔
      if lo ≤ hi then hi ≠ Int64.maxValue else hi ≠ Int64.minValue := by
  split
  · next h =>
    refine ⟨?_, range_up junk h⟩
    rintro ⟨fuel, a, hr, -⟩ rfl
    rw [hpRange, if_pos h, rangeLoop_endless fun i => decide_eq_true (Int64.le_maxValue i)] at hr
    cases hr
  · next h =>
    refine ⟨?_, range_down junk h⟩
    rintro ⟨fuel, a, hr, -⟩ rfl
    rw [hpRange, if_neg h, rangeLoop_endless fun i => decide_eq_true (Int64.minValue_le i)] at hr
    cases hr

/-- `range(2^63 - 1, 2^63 - 1)` -/
theorem hpRange_endless : ¬ ∀ lo hi, ∃ fuel a, hpRange blank fuel lo hi = some a ∧
    IsRange lo hi a := by
  intro h
  obtain ⟨fuel, a, hr, -⟩ := h Int64.maxValue Int64.maxValue
  rw [hpRange, if_pos (Int64.le_refl _),
    rangeLoop_endless fun i => decide_eq_true (Int64.le_maxValue i)] at hr
  cases hr

end

end Arr
end HolyPhp
