import HolyPhp.Runtime.Slices

/-!
# Divisions and remainders of integers

The division instruction traps where the divisor is 0 and where the operands are `INT64_MIN` and
-1.  A call ends with a value, with an exception or there; sums and differences wrap.

* `hpMod`, `hpModI`, `hpbiIntdiv`, `hpRandRange`, `hpbiRand`  the functions; `r` is what `rand()`
                     gives;
* `NoTrap`           what the calls on two operands and two bounds do when none traps;
* `hpRandRange_iff`  the random number is between the bounds unless they are the two ends;
* `noTrap_iff`       **there is no trap if and only if the operands are not `INT64_MIN` and -1, the
                     bounds are not the two ends, and `rand` is not given an empty range.**
-/

set_option autoImplicit false

namespace HolyPhp
namespace IntDiv
open HolyPhp.Std

/-! ## the functions -/

inductive Outcome where
  | value (i : Int64)
  | thrown (msg : Bytes)
  | trap
  deriving DecidableEq

/-- the operands on which the division instruction traps -/
def DivTraps (a b : Int64) : Prop := b = 0 ∨ a = Int64.minValue ∧ b = -1

instance (a b : Int64) : Decidable (DivTraps a b) := inferInstanceAs (Decidable (_ ∨ _ ∧ _))

/-- `a / b` -/
def cDiv (a b : Int64) : Outcome := if DivTraps a b then .trap else .value (a / b)

/-- `a % b` -/
def cRem (a b : Int64) : Outcome := if DivTraps a b then .trap else .value (a % b)

/-- `base + o` -/
def Outcome.addTo (base : Int64) : Outcome → Outcome
  | .value i => .value (base + i)
  | o => o

def hpMod (a b : Int64) : Outcome := if b = 0 then .thrown (ascii "Modulo by zero") else cRem a b

/-- the inline copy of `hp_mod` -/
def hpModI (a b : Int64) : Outcome := if b = 0 then .thrown (ascii "Modulo by zero") else cRem a b

def hpbiIntdiv (a b : HVal Bytes) : Outcome :=
  let d := hpValToInt b
  if d = 0 then .thrown (ascii "Division by zero") else cDiv (hpValToInt a) d

def hpRandRange (r min max : Int64) : Outcome :=
  let lo := if max < min then max else min
  let hi := if max < min then min else max
  if hi = lo then .value lo else (cRem r (hi - lo + 1)).addTo lo

/-- without an order of the bounds -/
def hpbiRand (r : Int64) (mn mx : HVal Bytes) : Outcome :=
  if mn.tag ≠ .null ∨ mx.tag ≠ .null then
    (cRem r (hpValToInt mx - hpValToInt mn + 1)).addTo (hpValToInt mn)
  else .value r

/-- a value, or the exception `msg` -/
def Returns (msg : String) (o : Outcome) : Prop := o = .thrown (ascii msg) ∨ ∃ i, o = .value i

/-- a value between the two numbers -/
def Between (x y : Int64) (o : Outcome) : Prop := ∃ i, o = .value i ∧ min x y ≤ i ∧ i ≤ max x y

structure NoTrap (r a b : Int64) (mn mx : HVal Bytes) : Prop where
  mod : Returns "Modulo by zero" (hpMod a b)
  modI : Returns "Modulo by zero" (hpModI a b)
  intdiv : Returns "Division by zero" (hpbiIntdiv (.int a) (.int b))
  range : Between (hpValToInt mn) (hpValToInt mx) (hpRandRange r (hpValToInt mn) (hpValToInt mx))
  rand : ∃ i, hpbiRand r mn mx = .value i

/-- the bounds are the two ends of the integers -/
def Ends (x y : Int64) : Prop := min x y = Int64.minValue ∧ max x y = Int64.maxValue

/-! ## one division -/

section
variable {a b r x y : Int64} {mn mx : HVal Bytes}

theorem cRem_value : (∃ i, cRem a b = .value i) ↔ ¬ DivTraps a b := by
  unfold cRem
  split
  · rename_i h
    exact ⟨fun ⟨_, hi⟩ => (nomatch hi), fun hn => absurd h hn⟩
  · rename_i h
    exact ⟨fun _ => h, fun _ => ⟨_, rfl⟩⟩

theorem addTo_value (o : Outcome) : (∃ i, o.addTo x = .value i) ↔ ∃ i, o = .value i := by
  cases o with
  | value i => exact ⟨fun _ => ⟨i, rfl⟩, fun _ => ⟨x + i, rfl⟩⟩
  | thrown m => exact ⟨fun ⟨_, hi⟩ => (nomatch hi), fun ⟨_, hi⟩ => (nomatch hi)⟩
  | trap => exact ⟨fun ⟨_, hi⟩ => (nomatch hi), fun ⟨_, hi⟩ => (nomatch hi)⟩

/-- a division behind the test for 0 -/
theorem guarded_iff (msg : String) (f : Int64 → Int64 → Int64) :
    Returns msg (if b = 0 then .thrown (ascii msg) else
      if DivTraps a b then .trap else .value (f a b)) ↔ ¬ (a = Int64.minValue ∧ b = -1) := by
  by_cases hb : b = 0
  · rw [if_pos hb]
    refine ⟨fun _ hmin => ?_, fun _ => .inl rfl⟩
    rw [hmin.2] at hb
    exact absurd hb (by decide)
  · rw [if_neg hb]
    by_cases hm : a = Int64.minValue ∧ b = -1
    · have ht : DivTraps a b := .inr hm
      rw [if_pos ht]
      refine ⟨fun h => ?_, fun h => absurd hm h⟩
      rcases h with h | ⟨i, h⟩ <;> cases h
    · have ht : ¬ DivTraps a b := not_or.mpr ⟨hb, hm⟩
      rw [if_neg ht]
      exact ⟨fun _ => hm, fun _ => .inr ⟨_, rfl⟩⟩

/-- `rand()` is not negative, so a remainder of it traps at the divisor 0 only -/
theorem remRand_iff (hr : 0 ≤ r) : DivTraps r b ↔ b = 0 := by
  refine ⟨fun h => h.elim id fun ⟨hmin, _⟩ => ?_, .inl⟩
  rw [hmin] at hr
  exact absurd hr (by decide)

/-! ## random numbers -/

/-- a remainder by a divisor of either sign -/
theorem tmod_bound {r d : Int} (hr : 0 ≤ r) (hd : d ≠ 0) :
    0 ≤ r.tmod d ∧ r.tmod d ≤ r ∧ r.tmod d < d.natAbs := by
  have habs := Int.natAbs_tmod r d
  have hnn := Int.tmod_nonneg d hr
  have hle := Nat.mod_le r.natAbs d.natAbs
  have hlt := Nat.mod_lt r.natAbs (Int.natAbs_pos.mpr hd)
  omega

/-- the span of two bounds is 0 on 64 bits just if they are the two ends -/
theorem span_zero (h : x ≤ y) :
    y - x + 1 = 0 ↔ x = Int64.minValue ∧ y = Int64.maxValue := by
  have hle := Int64.le_iff_toInt_le.mp h
  have hx := toInt_range x
  have hy := toInt_range y
  have h1 : (1 : Int64).toInt = 1 := rfl
  have h0 : (0 : Int64).toInt = 0 := rfl
  have hmin : Int64.minValue.toInt = -2 ^ 63 := rfl
  have hmax : Int64.maxValue.toInt = 2 ^ 63 - 1 := rfl
  have hs := toInt_sub_cases y x
  have ha := toInt_add_cases (y - x) 1
  rw [← Int64.toInt_inj, ← Int64.toInt_inj, ← Int64.toInt_inj (x := y), hmin, hmax, h0]
  omega

/-- the remainder is not above the distance of the bounds, also where the span has wrapped: then
its absolute value and `INT64_MAX` are small enough -/
theorem rand_between (hr : 0 ≤ r) (h : x ≤ y) (hs : y - x + 1 ≠ 0) :
    x ≤ x + r % (y - x + 1) ∧ x + r % (y - x + 1) ≤ y := by
  have hle := Int64.le_iff_toInt_le.mp h
  have hx := toInt_range x
  have hy := toInt_range y
  have hrr := toInt_range r
  have hr0 : 0 ≤ r.toInt := Int64.le_iff_toInt_le.mp hr
  have h1 : (1 : Int64).toInt = 1 := rfl
  have hsub := toInt_sub_cases y x
  have hadd := toInt_add_cases (y - x) 1
  have hs0 : (y - x + 1).toInt ≠ 0 := fun h => hs (Int64.toInt_inj.mp h)
  obtain ⟨hm0, hmr, hmd⟩ := tmod_bound hr0 hs0
  have hsum := toInt_add_cases x (r % (y - x + 1))
  rw [Int64.toInt_mod] at hsum
  rw [Int64.le_iff_toInt_le, Int64.le_iff_toInt_le]
  omega

theorem min_max_of_lt (h : y < x) : min x y = y ∧ max x y = x := by
  have hn : ¬ x ≤ y := fun hle => absurd (Int64.lt_iff_toInt_lt.mp h)
    (Int.not_lt.mpr (Int64.le_iff_toInt_le.mp hle))
  exact ⟨if_neg hn, if_neg hn⟩

theorem min_max_of_not_lt (h : ¬ y < x) : min x y = x ∧ max x y = y := by
  have hle : x ≤ y := by
    rw [Int64.lt_iff_toInt_lt] at h
    rw [Int64.le_iff_toInt_le]
    omega
  exact ⟨if_pos hle, if_pos hle⟩

theorem min_le_max (x y : Int64) : min x y ≤ max x y := by
  by_cases h : y < x
  · obtain ⟨h1, h2⟩ := min_max_of_lt h
    rw [h1, h2, Int64.le_iff_toInt_le]
    exact (Int64.lt_iff_toInt_lt.mp h).le
  · obtain ⟨h1, h2⟩ := min_max_of_not_lt h
    rw [h1, h2]
    rw [Int64.lt_iff_toInt_lt] at h
    rw [Int64.le_iff_toInt_le]
    omega

theorem hpRandRange_eq (r x y : Int64) : hpRandRange r x y =
    if max x y = min x y then .value (min x y)
    else (cRem r (max x y - min x y + 1)).addTo (min x y) := by
  unfold hpRandRange
  by_cases h : y < x
  · obtain ⟨h1, h2⟩ := min_max_of_lt h
    rw [if_pos h, if_pos h, h1, h2]
  · obtain ⟨h1, h2⟩ := min_max_of_not_lt h
    rw [if_neg h, if_neg h, h1, h2]

/-- **`hp_rand_range`** gives a number between the bounds unless they are the two ends. -/
theorem hpRandRange_iff (hr : 0 ≤ r) : Between x y (hpRandRange r x y) ↔ ¬ Ends x y := by
  have hle := min_le_max x y
  have hspan := span_zero hle
  rw [hpRandRange_eq]
  by_cases he : max x y = min x y
  · rw [if_pos he]
    refine ⟨fun _ hends => ?_, fun _ => ⟨_, rfl, Int64.le_refl _, hle⟩⟩
    have := he.symm.trans hends.2
    rw [hends.1] at this
    exact absurd this (by decide)
  · rw [if_neg he]
    constructor
    · rintro ⟨i, hi, -⟩ hends
      have hv := cRem_value.mp ((addTo_value _).mp ⟨i, hi⟩)
      exact hv ((remRand_iff hr).mpr (hspan.mpr hends))
    · intro hends
      have hs : max x y - min x y + 1 ≠ 0 := fun h => hends (hspan.mp h)
      obtain ⟨h1, h2⟩ := rand_between hr hle hs
      refine ⟨min x y + r % (max x y - min x y + 1), ?_, h1, h2⟩
      rw [cRem, if_neg fun h => hs ((remRand_iff hr).mp h)]
      rfl

theorem sub_add_one_eq_zero : y - x + 1 = 0 ↔ y + 1 = x := by
  have hcomm : y - x + 1 = y + 1 - x := by
    rw [Int64.sub_eq_add_neg, Int64.sub_eq_add_neg, Int64.add_assoc, Int64.add_assoc,
      Int64.add_comm (-x)]
  rw [hcomm, Int64.sub_eq_iff_eq_add, Int64.zero_add]

/-- `rand` does not order its bounds: the empty range has the span 0 -/
theorem hpbiRand_iff (hr : 0 ≤ r) : (∃ i, hpbiRand r mn mx = .value i) ↔
    mn = .null ∧ mx = .null ∨ hpValToInt mx + 1 ≠ hpValToInt mn := by
  have hmn := HVal.tag_eq_null (v := mn)
  have hmx := HVal.tag_eq_null (v := mx)
  unfold hpbiRand
  split
  · rename_i h
    rw [addTo_value, cRem_value, remRand_iff hr, sub_add_one_eq_zero]
    exact ⟨.inr, fun hh => hh.elim (fun hn => absurd hn (by tauto)) id⟩
  · rename_i h
    exact ⟨fun _ => .inl (by tauto), fun _ => ⟨r, rfl⟩⟩

end

/-- **The calls do not trap** if and only if the operands of the division are not `INT64_MIN` and
-1, the bounds are not the two ends, and the upper bound of `rand` is not one below the lower. -/
theorem noTrap_iff (r a b : Int64) (mn mx : HVal Bytes) (hr : 0 ≤ r) :
    NoTrap r a b mn mx ↔ ¬ (a = Int64.minValue ∧ b = -1) ∧
      ¬ Ends (hpValToInt mn) (hpValToInt mx) ∧
      (mn = .null ∧ mx = .null ∨ hpValToInt mx + 1 ≠ hpValToInt mn) := by
  have hmod := guarded_iff (a := a) (b := b) "Modulo by zero" (· % ·)
  have hdiv := guarded_iff (a := a) (b := b) "Division by zero" (· / ·)
  constructor
  · intro h
    exact ⟨hmod.mp h.mod, (hpRandRange_iff hr).mp h.range, (hpbiRand_iff hr).mp h.rand⟩
  · rintro ⟨hm, he, hn⟩
    exact ⟨hmod.mpr hm, hmod.mpr hm, hdiv.mpr hm, (hpRandRange_iff hr).mpr he,
      (hpbiRand_iff hr).mpr hn⟩

theorem noTrap_dice : (0 : Int64) ≤ 1804289383 ∧
    NoTrap 1804289383 Int64.minValue 7 (.int 1) (.int 6) :=
  ⟨by decide, (noTrap_iff 1804289383 Int64.minValue 7 (.int 1) (.int 6) (by decide)).mpr
    ⟨by decide, fun h => absurd h.1 (by decide), .inr (by decide)⟩⟩

/-- `INT64_MIN % -1`, and `rand(5, 4)` -/
theorem hpMod_traps : hpMod Int64.minValue (-1) = .trap ∧ hpbiRand 7 (.int 5) (.int 4) = .trap := by
  decide

end IntDiv
end HolyPhp
