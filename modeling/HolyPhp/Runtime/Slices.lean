import HolyPhp.Runtime.Sort
import HolyPhp.Runtime.StrFuns

/-!
# `substr` and `array_slice`

Both count a negative offset from the end and call a helper that does so again.  `substr` stops at
0 before the call, `array_slice` does not.

* `hpbiArraySlice`            the function;
* `part xs off len`           the positions `[first, last)` of a list;
* `codeFirst`, `codeLast`     the ones of `array_slice`;
* `Clamps n off len`          when they are the same.

**`slices_clamped`** says when each is `part`.
-/

set_option autoImplicit false

namespace HolyPhp
namespace Std
open Arr

/-- `hpbi_array_slice` of an array; `none` is a null length -/
def hpbiArraySlice (junk : Nat → Val) (x : Harr) (off : Int64) (len : Option Int64) : Harr :=
  let n := Int64.ofNat x.len
  let o := if off < 0 then off + n else off
  let l := match len with
    | none => n - o
    | some l => l
  let l := if l < 0 then n - o + l else l
  let l := if l < 0 then 0 else l
  hpArrSlice junk x o (o + l)

/-! ## the clamped part -/

def first (n : Nat) (off : Int64) : Nat :=
  if off.toInt < 0 then (off.toInt + n).toNat else min off.toInt.toNat n

def last (n : Nat) (off : Int64) : Option Int64 → Nat
  | none => n
  | some l => if 0 ≤ l.toInt then min n (first n off + l.toInt.toNat) else (n + l.toInt).toNat

/-- the elements at the positions from `first` up to `last` -/
def part {α : Type} (xs : List α) (off : Int64) (len : Option Int64) : List α :=
  (xs.drop (first xs.length off)).take (last xs.length off len - first xs.length off)

/-- an offset before the beginning, counted from the end twice -/
def codeFirst (n : Nat) (off : Int64) : Nat :=
  if off.toInt < -n then (off.toInt + 2 * n).toNat else first n off

/-- a negative offset counts from the end -/
def offset (n : Nat) (off : Int64) : Int := if off.toInt < 0 then off.toInt + n else off.toInt

/-- `o + l` -/
def stop (n : Nat) (o : Int) : Option Int64 → Int
  | none => n
  | some l => if 0 ≤ l.toInt then o + l.toInt else max o (n + l.toInt)

/-- the end in `hp_arr_slice` -/
def wrapEnd (n : Nat) (e : Int) : Int :=
  let e := if e < 0 then e + n else e
  if e < 0 ∨ (n : Int) < e then n else e

def codeLast (n : Nat) (off : Int64) (len : Option Int64) : Nat :=
  (wrapEnd n (stop n (offset n off) len)).toNat

/-- where the offset is before the beginning, the end that is counted twice meets the length -/
def Meets (n : Nat) (off l : Int) : Prop :=
  if 0 < l then
    off + 2 * n + l < 0 ∧ n ≤ l ∨ off = -(2 * n) ∧ l < n ∨ off ≤ -(2 * n) ∧ 0 ≤ off + l
  else if l = 0 ∨ l < off then -(2 * n) ≤ off
  else l = -n ∨ -n < l ∧ off ≤ -(2 * n) ∨ l < -n ∧ -(2 * n) ≤ l ∧ (off = l ∨ l = -(2 * n))

/-- the offset is not before the beginning, or the two mistakes meet -/
def Clamps (n : Nat) (off : Int64) (len : Option Int64) : Prop :=
  n = 0 ∨ -n ≤ off.toInt ∨
    match len with
    | none => off.toInt ≤ -(2 * n)
    | some l => Meets n off.toInt l.toInt

/-! ## the arithmetic -/

section
variable {a b off : Int64} {n : Nat} {len : Option Int64}

theorem toInt_range (a : Int64) : -2 ^ 63 ≤ a.toInt ∧ a.toInt < 2 ^ 63 := ⟨a.le_toInt, a.toInt_lt⟩

/-- within one overflow -/
theorem bmod_cases {x : Int} (h1 : -2 ^ 64 ≤ x) (h2 : x < 2 ^ 64) :
    (x.bmod (2 ^ 64) = x ∧ -2 ^ 63 ≤ x ∧ x < 2 ^ 63) ∨
    (x.bmod (2 ^ 64) = x - 2 ^ 64 ∧ 2 ^ 63 ≤ x) ∨
    (x.bmod (2 ^ 64) = x + 2 ^ 64 ∧ x < -2 ^ 63) := by
  have e : ((2 ^ 64 : Nat) : Int) = 18446744073709551616 := rfl
  rw [Int.bmod_def, e]
  split <;> omega

theorem toInt_add_cases (a b : Int64) :
    ((a + b).toInt = a.toInt + b.toInt ∧ -2 ^ 63 ≤ a.toInt + b.toInt ∧
      a.toInt + b.toInt < 2 ^ 63) ∨
    ((a + b).toInt = a.toInt + b.toInt - 2 ^ 64 ∧ 2 ^ 63 ≤ a.toInt + b.toInt) ∨
    ((a + b).toInt = a.toInt + b.toInt + 2 ^ 64 ∧ a.toInt + b.toInt < -2 ^ 63) := by
  have ha := toInt_range a
  have hb := toInt_range b
  rw [Int64.toInt_add]
  exact bmod_cases (by omega) (by omega)

theorem toInt_sub_cases (a b : Int64) :
    ((a - b).toInt = a.toInt - b.toInt ∧ -2 ^ 63 ≤ a.toInt - b.toInt ∧
      a.toInt - b.toInt < 2 ^ 63) ∨
    ((a - b).toInt = a.toInt - b.toInt - 2 ^ 64 ∧ 2 ^ 63 ≤ a.toInt - b.toInt) ∨
    ((a - b).toInt = a.toInt - b.toInt + 2 ^ 64 ∧ a.toInt - b.toInt < -2 ^ 63) := by
  have ha := toInt_range a
  have hb := toInt_range b
  rw [Int64.toInt_sub]
  exact bmod_cases (by omega) (by omega)

theorem neg_iff (a : Int64) : a < 0 ↔ a.toInt < 0 := Int64.lt_iff_toInt_lt

theorem toNat_toUInt64 (a : Int64) :
    (a.toUInt64.toNat : Int) = if a.toInt < 0 then a.toInt + 2 ^ 64 else a.toInt := by
  have h : a.toInt = a.toBitVec.toInt := rfl
  have hn : a.toUInt64.toNat = a.toBitVec.toNat := rfl
  rw [hn, h, BitVec.toInt_eq_toNat_cond]
  have hlt := a.toBitVec.isLt
  split <;> split <;> omega

/-- `norm_index` -/
theorem normIndex_toInt (hn : n < 2 ^ 62) (a : Int64) :
    (Arr.normIndex a n).toInt =
      let i := if a.toInt < 0 then a.toInt + n else a.toInt
      if i < 0 then 0 else min i n := by
  have hr := toInt_range a
  have hN : (Int64.ofNat n).toInt = n := Int64.toInt_ofNat_of_lt (by omega)
  have h0 : (0 : Int64).toInt = 0 := rfl
  unfold Arr.normIndex
  simp only [neg_iff]
  by_cases ha : a.toInt < 0
  · have hadd := toInt_add_cases a (Int64.ofNat n)
    have hu := toNat_toUInt64 (a + Int64.ofNat n)
    rw [if_pos ha, if_pos ha]
    split
    · rw [if_pos (by omega), h0]
    · split
      · rw [if_neg (by omega)]
        omega
      · rw [if_neg (by omega)]
        omega
  · have hu := toNat_toUInt64 a
    rw [if_neg ha, if_neg ha, if_neg ha, if_neg ha]
    split
    · rw [hN]
      omega
    · omega

/-- a negative end is too large -/
theorem sliceEnd_toInt (hn : n < 2 ^ 62) (a : Int64) : (sliceEnd a n).toInt = wrapEnd n a.toInt := by
  have hr := toInt_range a
  have hN : (Int64.ofNat n).toInt = n := Int64.toInt_ofNat_of_lt (by omega)
  unfold sliceEnd wrapEnd
  simp only [neg_iff]
  by_cases ha : a.toInt < 0
  · have hadd := toInt_add_cases a (Int64.ofNat n)
    have hu := toNat_toUInt64 (a + Int64.ofNat n)
    rw [if_pos ha, if_pos ha]
    split
    · rw [if_pos (by split at hu <;> omega), hN]
    · rw [if_neg (by split at hu <;> omega)]
      omega
  · have hu := toNat_toUInt64 a
    rw [if_neg ha] at hu
    rw [if_neg ha, if_neg ha]
    split
    · rw [if_pos (by omega), hN]
    · rw [if_neg (by omega)]

theorem offset_toInt (hn : n < 2 ^ 62) (off : Int64) :
    (if off < 0 then off + Int64.ofNat n else off).toInt = offset n off := by
  have hr := toInt_range off
  have hN : (Int64.ofNat n).toInt = n := Int64.toInt_ofNat_of_lt (by omega)
  have hadd := toInt_add_cases off (Int64.ofNat n)
  unfold offset
  simp only [neg_iff]
  split <;> omega

theorem wrapEnd_of_ge {e : Int} (h : (n : Int) ≤ e) : wrapEnd n e = n := by
  have he : (if e < 0 then e + n else e) = e := if_neg (by omega)
  unfold wrapEnd
  rw [he]
  dsimp only
  split <;> omega

theorem wrapEnd_of_low {e : Int} (h : e + n < 0) : wrapEnd n e = n := by
  have he : (if e < 0 then e + n else e) = e + n := if_pos (by omega)
  unfold wrapEnd
  rw [he]
  exact if_pos (.inl h)

theorem wrapEnd_cases (n : Nat) (e : Int) :
    (e + n < 0 ∧ wrapEnd n e = n) ∨ (e < 0 ∧ 0 ≤ e + n ∧ wrapEnd n e = e + n) ∨
      (0 ≤ e ∧ e ≤ n ∧ wrapEnd n e = e) ∨ (n < e ∧ wrapEnd n e = n) := by
  unfold wrapEnd
  by_cases he : e < 0
  · simp only [if_pos he]
    split <;> omega
  · simp only [if_neg he]
    split <;> omega

theorem wrapEnd_le (n : Nat) (e : Int) : wrapEnd n e ≤ n := by
  have h := wrapEnd_cases n e
  omega

theorem wrapEnd_within {e : Int} (h0 : 0 ≤ e) (he : e ≤ n) : wrapEnd n e = e := by
  have h := wrapEnd_cases n e
  omega

/-- the end that a length of 0 or more gives, overflows included -/
theorem wrapEnd_sum {f : Nat} {l : Int} (hn : n < 2 ^ 63) (hf : f ≤ n) (h0 : 0 ≤ l)
    (hl : l < 2 ^ 63) :
    (wrapEnd n ((f + l).bmod (2 ^ 64))).toNat - f = min n (f + l.toNat) - f ↔
      f = n ∨ f + l + n < 2 ^ 64 := by
  rcases bmod_cases (x := f + l) (by omega) (by omega) with ⟨hb, -, h⟩ | ⟨hb, h⟩ | ⟨-, h⟩
  · rw [hb]
    refine iff_of_true ?_ (.inr (by omega))
    rcases wrapEnd_cases n (f + l) with ⟨h', -⟩ | ⟨h', -⟩ | ⟨h', h'', e⟩ | ⟨h', e⟩
    · omega
    · omega
    · rw [e]
      omega
    · rw [e]
      omega
  · rw [hb]
    rcases wrapEnd_cases n (f + l - 2 ^ 64) with ⟨h', e⟩ | ⟨h', h'', e⟩ | ⟨h', -⟩ | ⟨h', -⟩
    · rw [e]
      exact iff_of_true (by omega) (.inr (by omega))
    · rw [e]
      omega
    · omega
    · omega
  · omega

theorem stop_pos {l : Int64} (hl : 0 ≤ l.toInt) (o : Int) : stop n o (some l) = o + l.toInt :=
  if_pos hl

theorem stop_neg {l : Int64} (hl : l.toInt < 0) (o : Int) :
    stop n o (some l) = max o (n + l.toInt) := if_neg (Int.not_le.mpr hl)

theorem last_pos {l : Int64} (hl : 0 ≤ l.toInt) :
    last n off (some l) = min n (first n off + l.toInt.toNat) := if_pos hl

theorem last_neg {l : Int64} (hl : l.toInt < 0) : last n off (some l) = (n + l.toInt).toNat :=
  if_neg (Int.not_le.mpr hl)

/-- **The end** of `array_slice`, overflows included -/
theorem sliceEnd_stop (hn : n < 2 ^ 62) {o : Int64} (ho : o.toInt ≤ n)
    (hlow : n - 2 ^ 63 ≤ o.toInt) (len : Option Int64) :
    let l := match len with
      | none => Int64.ofNat n - o
      | some l => l
    let l := if l < 0 then Int64.ofNat n - o + l else l
    let l := if l < 0 then 0 else l
    (sliceEnd (o + l) n).toInt = wrapEnd n (stop n o.toInt len) := by
  have hN : (Int64.ofNat n).toInt = n := Int64.toInt_ofNat_of_lt (by omega)
  have hsub := toInt_sub_cases (Int64.ofNat n) o
  rw [hN] at hsub
  cases len with
  | none =>
    dsimp only [stop]
    rw [sliceEnd_toInt hn, wrapEnd_of_ge (Int.le_refl _)]
    simp only [neg_iff]
    by_cases hneg : (Int64.ofNat n - o).toInt < 0
    · -- `n - o` is 2^63, and twice that is 0
      have hwrap := toInt_add_cases (Int64.ofNat n - o) (Int64.ofNat n - o)
      have hadd := toInt_add_cases o (Int64.ofNat n - o + (Int64.ofNat n - o))
      rw [if_pos hneg, if_neg (by omega), wrapEnd_of_low (by omega)]
    · have hadd := toInt_add_cases o (Int64.ofNat n - o)
      rw [if_neg hneg, if_neg hneg, wrapEnd_of_ge (by omega)]
  | some l =>
    have hl := toInt_range l
    dsimp only [stop]
    rw [sliceEnd_toInt hn]
    simp only [neg_iff]
    by_cases hneg : l.toInt < 0
    · have hsum := toInt_add_cases (Int64.ofNat n - o) l
      have hv : (Int64.ofNat n - o + l).toInt = n - o.toInt + l.toInt := by omega
      rw [if_pos hneg, if_neg (Int.not_le.mpr hneg), hv]
      by_cases hneg2 : n - o.toInt + l.toInt < 0
      · rw [if_pos hneg2, Int64.add_zero, max_eq_left (by omega)]
      · have hadd := toInt_add_cases o (Int64.ofNat n - o + l)
        have hsame : (o + (Int64.ofNat n - o + l)).toInt = n + l.toInt := by omega
        rw [if_neg hneg2, hsame, max_eq_right (by omega)]
    · have hadd := toInt_add_cases o l
      rw [if_neg hneg, if_neg hneg, if_pos (Int.not_lt.mp hneg)]
      by_cases hover : o.toInt + l.toInt < 2 ^ 63
      · have hsame : (o + l).toInt = o.toInt + l.toInt := by omega
        rw [hsame]
      · rw [wrapEnd_of_low (by omega), wrapEnd_of_ge (by omega)]

end

/-! ## the positions -/

section
variable {α : Type} {n s m o k : Nat} {off : Int64} {len : Option Int64}

/-- two windows are the same for all lists -/
theorem windows_iff {a b : α} (hab : a ≠ b) (hs : s + m ≤ n) (ho : o + k ≤ n) :
    (∀ xs : List α, xs.length = n → (xs.drop s).take m = (xs.drop o).take k) ↔
      m = k ∧ (m = 0 ∨ s = o) := by
  constructor
  · intro h
    have hlen := congrArg List.length (h (List.replicate n a) List.length_replicate)
    simp only [List.length_take, List.length_drop, List.length_replicate] at hlen
    have hmk : m = k := by omega
    refine ⟨hmk, Classical.or_iff_not_imp_left.mpr fun hm => ?_⟩
    by_contra hne
    -- the list with `b` at `s` only
    have hset := h ((List.replicate n a).set s b) (by rw [List.length_set, List.length_replicate])
    have h0 := congrArg (fun l => l[0]?) hset
    have hm0 : 0 < m := Nat.pos_of_ne_zero hm
    simp only [List.getElem?_take_of_lt hm0, List.getElem?_take_of_lt (hmk ▸ hm0),
      List.getElem?_drop, Nat.add_zero] at h0
    rw [List.getElem?_set_self (by rw [List.length_replicate]; omega),
      List.getElem?_set_ne hne, List.getElem?_replicate, if_pos (by omega)] at h0
    exact hab (Option.some.inj h0).symm
  · rintro ⟨rfl, rfl | rfl⟩ xs -
    · rw [List.take_zero, List.take_zero]
    · rfl

theorem first_le (n : Nat) (off : Int64) : first n off ≤ n := by
  unfold first
  split <;> omega

theorem last_le (n : Nat) (off : Int64) (len : Option Int64) : last n off len ≤ n := by
  cases len with
  | none => exact Nat.le_refl n
  | some l =>
    unfold last
    dsimp only
    split <;> omega

theorem codeFirst_le (n : Nat) (off : Int64) : codeFirst n off ≤ n := by
  have h := first_le n off
  unfold codeFirst
  split <;> omega

theorem codeLast_le (n : Nat) (off : Int64) (len : Option Int64) : codeLast n off len ≤ n := by
  unfold codeLast wrapEnd
  dsimp only
  split <;> omega

theorem codeLast_none (n : Nat) (off : Int64) : codeLast n off none = n := by
  unfold codeLast
  rw [stop, wrapEnd_of_ge (Int.le_refl _), Int.toNat_natCast]

/-- no difference from the beginning on -/
theorem codeLast_eq (h : -n ≤ off.toInt) (len : Option Int64) :
    codeLast n off len - first n off = last n off len - first n off := by
  have hlast := last_le n off len
  cases len with
  | none =>
    rw [codeLast_none]
    rfl
  | some l =>
    unfold codeLast
    have hfirst : (first n off : Int) = min (offset n off) n := by
      unfold first offset
      split <;> omega
    have ho : 0 ≤ offset n off := by
      unfold offset
      split <;> omega
    rcases Int.lt_or_le l.toInt 0 with hl | hl
    · rw [stop_neg hl, last_neg hl]
      rcases wrapEnd_cases n (max (offset n off) (n + l.toInt)) with
        ⟨h, e⟩ | ⟨h, h', e⟩ | ⟨h, h', e⟩ | ⟨h, e⟩
      all_goals
        rw [e]
        omega
    · rw [stop_pos hl, last_pos hl]
      rcases wrapEnd_cases n (offset n off + l.toInt) with
        ⟨h, e⟩ | ⟨h, h', e⟩ | ⟨h, h', e⟩ | ⟨h, e⟩
      all_goals
        rw [e]
        omega

/-- an offset before the beginning of a list with elements -/
theorem meets_iff (hn : 0 < n) {l : Int} {x : Int} (hfar : x < -n) :
    Meets n x l ↔
      (wrapEnd n (if 0 ≤ l then x + n + l else max (x + n) (n + l))).toNat - (x + 2 * n).toNat =
        (if 0 ≤ l then min n l.toNat else (n + l).toNat) ∧
      ((wrapEnd n (if 0 ≤ l then x + n + l else max (x + n) (n + l))).toNat - (x + 2 * n).toNat = 0 ∨
        (x + 2 * n).toNat = 0) := by
  unfold Meets
  rcases Int.lt_trichotomy 0 l with hl | rfl | hl
  · have hw := wrapEnd_cases n (x + n + l)
    rw [if_pos hl, if_pos hl.le, if_pos hl.le]
    rcases hw with ⟨h, e⟩ | ⟨h, h', e⟩ | ⟨h, h', e⟩ | ⟨h, e⟩
    all_goals
      rw [e]
      omega
  · have hw := wrapEnd_cases n (x + n + 0)
    rw [if_neg (Int.lt_irrefl 0), if_pos (.inl rfl), if_pos (Int.le_refl 0),
      if_pos (Int.le_refl 0)]
    rcases hw with ⟨h, e⟩ | ⟨h, h', e⟩ | ⟨h, h', e⟩ | ⟨h, e⟩
    all_goals
      rw [e]
      omega
  · have hw := wrapEnd_cases n (max (x + n) (n + l))
    rw [if_neg (Int.not_lt.mpr hl.le), if_neg (Int.not_le.mpr hl), if_neg (Int.not_le.mpr hl)]
    by_cases hlx : l < x
    · rw [if_pos (.inr hlx)]
      rw [max_eq_left (by omega)] at hw ⊢
      rcases hw with ⟨h, e⟩ | ⟨h, h', e⟩ | ⟨h, h', e⟩ | ⟨h, e⟩
      all_goals
        rw [e]
        omega
    · rw [if_neg (not_or.mpr ⟨Int.ne_of_lt hl, hlx⟩)]
      rw [max_eq_right (by omega)] at hw ⊢
      rcases hw with ⟨h, e⟩ | ⟨h, h', e⟩ | ⟨h, h', e⟩ | ⟨h, e⟩
      all_goals
        rw [e]
        omega

/-- **The positions of `array_slice`** are the clamped ones just if `Clamps`. -/
theorem clamps_iff (n : Nat) (off : Int64) (len : Option Int64) :
    Clamps n off len ↔
      codeLast n off len - codeFirst n off = last n off len - first n off ∧
        (codeLast n off len - codeFirst n off = 0 ∨ codeFirst n off = first n off) := by
  rcases Nat.eq_zero_or_pos n with hn | hn
  · have h1 := codeLast_le n off len
    have h2 := last_le n off len
    exact iff_of_true (.inl hn) ⟨by omega, .inl (by omega)⟩
  by_cases hfar : off.toInt < -n
  · have ho : offset n off = off.toInt + n := if_pos (by omega)
    have hfirst : first n off = 0 := by
      unfold first
      rw [if_pos (by omega)]
      omega
    have hcode : codeFirst n off = (off.toInt + 2 * n).toNat := if_pos hfar
    have hno : ¬ -n ≤ off.toInt := Int.not_le.mpr hfar
    unfold Clamps
    cases len with
    | none =>
      rw [codeLast_none, hcode, hfirst]
      dsimp only [last]
      omega
    | some l =>
      have hm := meets_iff hn hfar (l := l.toInt)
      have hstop : stop n (offset n off) (some l) =
          if 0 ≤ l.toInt then off.toInt + n + l.toInt else max (off.toInt + n) (n + l.toInt) := by
        rw [ho]
        rfl
      unfold codeLast last
      rw [hstop, hcode, hfirst]
      dsimp only
      rw [Nat.zero_add, Nat.sub_zero, ← hm]
      exact ⟨fun h => (h.resolve_left hn.ne').resolve_left hno, fun h => .inr (.inr h)⟩
  · have hcode : codeFirst n off = first n off := if_neg hfar
    rw [hcode]
    exact iff_of_true (.inr (.inl (Int.not_lt.mp hfar)))
      ⟨codeLast_eq (Int.not_lt.mp hfar) len, .inr rfl⟩

end

/-! ## `array_slice` -/

section
variable {junk : Nat → Val} {x : Harr} {off : Int64} {len : Option Int64} {n : Nat}

theorem values_length (x : Harr) : (values x).length = x.len := by
  rw [values, List.length_map, List.length_range]

theorem getElem?_values (x : Harr) (i : Nat) :
    (values x)[i]? = if i < x.len then some (x.vals i) else none := by
  rw [values, List.getElem?_map]
  by_cases hi : i < x.len
  · rw [List.getElem?_range hi, if_pos hi]
    rfl
  · rw [List.getElem?_eq_none (by rw [List.length_range]; omega), if_neg hi]
    rfl

/-- **The helper** makes the list of the elements between its bounds. -/
theorem values_hpArrSlice (x : Harr) (s e : Int64) (he : (sliceEnd e x.len).toInt ≤ x.len) :
    values (hpArrSlice junk x s e) =
      ((values x).drop (Arr.normIndex s x.len).toInt.toNat).take
        ((sliceEnd e x.len).toInt.toNat - (Arr.normIndex s x.len).toInt.toNat) := by
  generalize hS : (Arr.normIndex s x.len).toInt.toNat = S
  have hcount : ((sliceEnd e x.len).toInt - S).toNat = (sliceEnd e x.len).toInt.toNat - S := by
    omega
  have hrun : hpArrSlice junk x s e = (List.range ((sliceEnd e x.len).toInt.toNat - S)).foldl
      (fun r i => hpArrPush r (x.vals (S + i))) (hpArrNew junk) := by
    unfold hpArrSlice
    rw [hS]
    dsimp only
    rw [hcount]
  obtain ⟨-, hlen, hvals⟩ := pushes_spec junk (fun i => x.vals (S + i))
    ((sliceEnd e x.len).toInt.toNat - S)
  rw [← hrun] at hlen hvals
  apply List.ext_getElem?
  intro i
  rw [getElem?_values, hlen, List.getElem?_take, List.getElem?_drop, getElem?_values]
  by_cases hi : i < (sliceEnd e x.len).toInt.toNat - S
  · rw [if_pos hi, if_pos hi, if_pos (by omega), hvals i hi]
  · rw [if_neg hi, if_neg hi]

theorem normIndex_offset (hn : n < 2 ^ 62) {o : Int64} (ho : o.toInt = offset n off) :
    (Arr.normIndex o n).toInt.toNat = codeFirst n off := by
  rw [normIndex_toInt hn, ho]
  unfold codeFirst first offset
  dsimp only
  by_cases hneg : off.toInt < 0
  · simp only [if_pos hneg]
    by_cases hfar : off.toInt < -n
    · rw [if_pos hfar]
      split
      · split <;> omega
      · omega
    · rw [if_neg hfar]
      split
      · split <;> omega
      · omega
  · simp only [if_neg hneg]
    rw [if_neg (by omega : ¬ off.toInt < -n)]
    omega

/-- **`array_slice`** -/
theorem values_arraySlice (hn : x.len < 2 ^ 62) (off : Int64) (len : Option Int64) :
    values (hpbiArraySlice junk x off len) =
      ((values x).drop (codeFirst x.len off)).take (codeLast x.len off len - codeFirst x.len off) := by
  generalize ho : (if off < 0 then off + Int64.ofNat x.len else off) = o
  have hoff : o.toInt = offset x.len off := ho ▸ offset_toInt hn off
  have hle : ∀ e, (sliceEnd e x.len).toInt ≤ x.len := by
    intro e
    have hw := wrapEnd_cases x.len e.toInt
    rw [sliceEnd_toInt hn]
    omega
  unfold hpbiArraySlice
  dsimp only
  rw [ho, values_hpArrSlice _ _ _ (hle _), normIndex_offset hn hoff]
  by_cases hfar : off.toInt ≤ x.len
  · have hlow : x.len - 2 ^ 63 ≤ o.toInt := by
      have hr := toInt_range off
      rw [hoff]
      unfold offset
      split <;> omega
    have hhigh : o.toInt ≤ x.len := by
      rw [hoff]
      unfold offset
      split <;> omega
    have hend := sliceEnd_stop hn hhigh hlow len
    dsimp only at hend
    rw [hend, hoff]
    rfl
  · -- behind the last element
    have hall : codeFirst x.len off = (values x).length := by
      rw [values_length]
      unfold codeFirst first
      rw [if_neg (by omega), if_neg (by omega)]
      omega
    rw [hall, List.drop_length, List.take_nil, List.take_nil]

/-- the list with these elements -/
def ofValues (junk : Nat → Val) (xs : List Val) : Harr :=
  { hpArrNew junk with len := xs.length, vals := fun i => (xs[i]?).getD .null }

theorem values_ofValues (junk : Nat → Val) (xs : List Val) : values (ofValues junk xs) = xs := by
  apply List.ext_getElem?
  intro i
  rw [getElem?_values]
  by_cases hi : i < xs.length
  · have hv : (ofValues junk xs).vals i = xs[i] := by
      show (xs[i]?).getD .null = _
      rw [List.getElem?_eq_getElem hi]
      rfl
    rw [if_pos (show i < (ofValues junk xs).len from hi), hv, List.getElem?_eq_getElem hi]
  · rw [if_neg (show ¬ i < (ofValues junk xs).len from hi), List.getElem?_eq_none (by omega)]

/-- **`array_slice` is clamped** just if `Clamps`. -/
theorem arraySlice_iff (hn : n < 2 ^ 62) (off : Int64) (len : Option Int64) :
    (∀ x : Harr, x.len = n → values (hpbiArraySlice junk x off len) = part (values x) off len) ↔
      Clamps n off len := by
  have h1 := codeFirst_le n off
  have h2 := codeLast_le n off len
  have h3 := first_le n off
  have h4 := last_le n off len
  have hab : (HVal.null : Val) ≠ .int 0 := by simp
  rw [clamps_iff, ← windows_iff (n := n) hab (by omega) (by omega)]
  constructor
  · intro h xs hxs
    have hpart := h (ofValues junk xs) hxs
    have hlen : (ofValues junk xs).len = n := hxs
    rw [values_arraySlice (hlen ▸ hn), values_ofValues, hlen, part, hxs] at hpart
    exact hpart
  · rintro h x rfl
    rw [values_arraySlice hn, part, values_length]
    exact h (values x) (values_length x)

end

/-! ## `substr` -/

section
variable {s : Bytes} {off : Int64} {len : Option Int64}

/-- the end in 64 bits is not taken for a negative one inside the string -/
def SumFits (n : Nat) (off : Int64) (len : Option Int64) : Prop :=
  ∀ l, len = some l → first n off = n ∨ first n off + l.toInt + n < 2 ^ 64

theorem sumFits_of_lt {n : Nat} (hn : n < 2 ^ 62) (off : Int64) (len : Option Int64) :
    SumFits n off len := by
  intro l _
  have h1 := first_le n off
  have h2 := toInt_range l
  omega

/-- `hp_str_slice` from a position of the string on -/
theorem hpStrSlice_eq {a : Nat} (ha : a ≤ s.length) (e : Int) :
    hpStrSlice s a e = (s.drop a).take ((wrapEnd s.length e).toNat - a) := by
  have hn : Std.normIndex a s.length = a := by
    unfold Std.normIndex
    dsimp only
    rw [if_neg (by omega : ¬ (a : Int) < 0), if_neg (by omega), if_neg (by omega)]
  have he : hpStrSlice s a e = if wrapEnd s.length e ≤ a then [] else
      (s.drop a).take (wrapEnd s.length e - a).toNat := by
    unfold hpStrSlice
    rw [hn]
    rfl
  rw [he]
  split
  · next h =>
    have h0 : (wrapEnd s.length e).toNat - a = 0 := by omega
    rw [h0, List.take_zero]
  · have hsub : (wrapEnd s.length e - a).toNat = (wrapEnd s.length e).toNat - a := by omega
    rw [hsub]

/-- two ends of the same string -/
theorem take_eq_iff {xs : Bytes} {m k : Nat} (hm : m ≤ xs.length) (hk : k ≤ xs.length) :
    xs.take m = xs.take k ↔ m = k := by
  constructor
  · intro h
    have hlen := congrArg List.length h
    rw [List.length_take, List.length_take] at hlen
    omega
  · intro h
    rw [h]

/-- **`substr` is clamped** just if its end fits. -/
theorem substr_iff (hn : s.length < 2 ^ 63) (off : Int64) (len : Option Int64) :
    hpbiSubstr s off.toInt (len.map Int64.toInt) = part s off len ↔ SumFits s.length off len := by
  have hr := toInt_range off
  have hle := first_le s.length off
  have hlast := last_le s.length off len
  generalize hst : (if (if off.toInt < 0 then off.toInt + s.length else off.toInt) < 0 then (0 : Int)
    else if off.toInt < 0 then off.toInt + s.length else off.toInt) = st
  by_cases hbehind : (s.length : Int) < st
  · have hfirst : first s.length off = s.length := by
      unfold first
      split <;> omega
    have hcode : hpbiSubstr s off.toInt (len.map Int64.toInt) = [] := by
      unfold hpbiSubstr
      dsimp only
      rw [hst, if_pos hbehind]
    rw [hcode, part, hfirst, List.drop_length, List.take_nil]
    exact iff_of_true rfl fun l _ => .inl hfirst
  · have hfirst : (first s.length off : Int) = st := by
      unfold first
      split <;> omega
    have hcode : ∀ e : Int, hpStrSlice s st e =
        (s.drop (first s.length off)).take ((wrapEnd s.length e).toNat - first s.length off) := by
      intro e
      rw [← hfirst, hpStrSlice_eq hle]
    cases len with
    | none =>
      have hrun : hpbiSubstr s off.toInt none = hpStrSlice s st s.length := by
        unfold hpbiSubstr
        dsimp only
        rw [hst, if_neg hbehind]
      refine iff_of_true ?_ fun l hl => by cases hl
      show hpbiSubstr s off.toInt none = _
      rw [hrun, hcode, wrapEnd_of_ge (Int.le_refl _), Int.toNat_natCast]
      rfl
    | some l =>
      have hl := toInt_range l
      generalize hv : (if (if l.toInt < 0 then (s.length : Int) - st + l.toInt else l.toInt) < 0
        then (0 : Int) else if l.toInt < 0 then (s.length : Int) - st + l.toInt else l.toInt) = v
      have hrun : hpbiSubstr s off.toInt (some l.toInt) = hpStrSlice s st (wrap64 (st + v)) := by
        unfold hpbiSubstr
        dsimp only
        rw [hst, if_neg hbehind, hv]
      have hfits : SumFits s.length off (some l) ↔
          first s.length off = s.length ∨ first s.length off + l.toInt + s.length < 2 ^ 64 :=
        ⟨fun h => h l rfl, fun h l' he => Option.some.inj he ▸ h⟩
      have hlen : (s.drop (first s.length off)).length = s.length - first s.length off :=
        List.length_drop
      show hpbiSubstr s off.toInt (some l.toInt) = _ ↔ _
      have hend := wrapEnd_le s.length (wrap64 (st + v))
      rw [hrun, hcode, part, take_eq_iff (by omega) (by omega), hfits]
      unfold wrap64
      rcases Int.lt_or_le l.toInt 0 with hneg | hpos
      · -- the end is in the text
        simp only [if_pos hneg] at hv
        have hsum : st + v = max st (s.length + l.toInt) := by split at hv <;> omega
        have hmod : (st + v).bmod (2 ^ 64) = st + v := by
          rcases bmod_cases (x := st + v) (by omega) (by omega) with ⟨h, -⟩ | ⟨-, h⟩ | ⟨-, h⟩
          · exact h
          · omega
          · omega
        rw [last_neg hneg, hmod, wrapEnd_within (by omega) (by omega), hsum]
        omega
      · rw [last_pos hpos]
        have hvl : v = l.toInt := by rw [← hv, if_neg (Int.not_lt.mpr hpos), if_neg (by omega)]
        rw [hvl, ← hfirst]
        exact wrapEnd_sum hn hle hpos hl.2

/-- an element of the character list of a string -/
def char (c : UInt8) : Val := .str (some [c])

theorem char_injective : Function.Injective char := by
  intro a b h
  simpa [char] using h

/-- **`array_slice` of the characters** is `substr` just if `Clamps`. -/
theorem chars_iff {junk : Nat → Val} {n : Nat} (hn : n < 2 ^ 62) (off : Int64)
    (len : Option Int64) :
    (∀ (s : Bytes) (x : Harr), s.length = n → values x = s.map char →
      values (hpbiArraySlice junk x off len) =
        (hpbiSubstr s off.toInt (len.map Int64.toInt)).map char) ↔ Clamps n off len := by
  have h1 := codeFirst_le n off
  have h2 := codeLast_le n off len
  have h3 := first_le n off
  have h4 := last_le n off len
  have hsub : ∀ s : Bytes, s.length = n →
      hpbiSubstr s off.toInt (len.map Int64.toInt) = part s off len := by
    rintro s rfl
    exact (substr_iff (by omega) off len).mpr (sumFits_of_lt hn off len)
  have hslice : ∀ (s : Bytes) (x : Harr), s.length = n → values x = s.map char →
      values (hpbiArraySlice junk x off len) =
        ((s.drop (codeFirst n off)).take (codeLast n off len - codeFirst n off)).map char := by
    intro s x hs hx
    have hlen : x.len = n := by rw [← values_length, hx, List.length_map, hs]
    rw [values_arraySlice (hlen ▸ hn), hx, hlen, List.map_take, List.map_drop]
  rw [clamps_iff, ← windows_iff (n := n) (by decide : (0 : UInt8) ≠ 1) (by omega) (by omega)]
  constructor
  · intro h s hs
    have hchars := h s (ofValues junk (s.map char)) hs (values_ofValues junk _)
    rw [hslice s _ hs (values_ofValues junk _), hsub s hs, part, hs] at hchars
    exact char_injective.list_map hchars
  · intro h s x hs hx
    rw [hslice s x hs hx, hsub s hs, part, hs, h s hs]

/-- **Slices are clamped**: `substr` just if the sum of its arguments fits, `array_slice` and
`array_slice` of the characters of a string just if `Clamps`.  An element of an array takes 16
bytes. -/
theorem slices_clamped (junk : Nat → Val) {n : Nat} (hn : n < 2 ^ 63) (off : Int64)
    (len : Option Int64) :
    (∀ s : Bytes, s.length = n →
      (hpbiSubstr s off.toInt (len.map Int64.toInt) = part s off len ↔ SumFits n off len)) ∧
    (16 * n < 2 ^ 64 →
      ((∀ x : Harr, x.len = n → values (hpbiArraySlice junk x off len) = part (values x) off len) ↔
        Clamps n off len) ∧
      ((∀ (s : Bytes) (x : Harr), s.length = n → values x = s.map char →
        values (hpbiArraySlice junk x off len) =
          (hpbiSubstr s off.toInt (len.map Int64.toInt)).map char) ↔ Clamps n off len)) := by
  refine ⟨?_, fun h16 => ⟨arraySlice_iff (by omega) off len, chars_iff (by omega) off len⟩⟩
  rintro s rfl
  exact substr_iff hn off len

theorem slices_clamped_five :
    (∀ s : Bytes, s.length = 5 →
      (hpbiSubstr s (-7) none = part s (-7) none ↔ SumFits 5 (-7) none)) ∧
    (16 * 5 < 2 ^ 64 →
      ((∀ x : Harr, x.len = 5 →
        values (hpbiArraySlice blank x (-7) none) = part (values x) (-7) none) ↔
          Clamps 5 (-7) none) ∧
      ((∀ (s : Bytes) (x : Harr), s.length = 5 → values x = s.map char →
        values (hpbiArraySlice blank x (-7) none) = (hpbiSubstr s (-7) none).map char) ↔
          Clamps 5 (-7) none)) :=
  slices_clamped blank (n := 5) (by decide) (-7) none

/-- `array_slice([1, 2, 3, 4, 5], -7)` is `[4, 5]` -/
theorem slices_wrapped : ¬ ∀ (x : Harr) (off : Int64) (len : Option Int64),
    values (hpbiArraySlice blank x off len) = part (values x) off len := by
  intro h
  have hx := h (ofValues blank [.int 1, .int 2, .int 3, .int 4, .int 5]) (-7) none
  revert hx
  decide

end

end Std
end HolyPhp
