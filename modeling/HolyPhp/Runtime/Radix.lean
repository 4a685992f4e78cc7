import HolyPhp.Runtime.Codes
import Mathlib.Data.Nat.Digits.Lemmas

/-!
# Numbers to the bases 2, 8 and 16

`decbin`, `decoct` and `dechex` write a sign and the digits of the absolute value; `bindec`,
`octdec` and `hexdec` are `strtoll`.

* `itoaBin`, `strtollBase`  the text of a number, and the number of a text;
* `digitLoop_eq`            the loop writes the digits to the base, the last one first;
* `baseNumber_digits`       digits are read to the number that they stand for;
* `radix_round_trip`        **every number is read back, and its text has at most 65 bytes.**
-/

set_option autoImplicit false

namespace HolyPhp
namespace Radix
open HolyPhp.Std

/-! ## the functions -/

/-- `digits[n]` -/
def digitChar (n : Nat) : UInt8 := (ascii "0123456789abcdef").getD n 0

/-- `while (u)`; the bases are 2, 8 and 16 -/
def digitLoop (base u : Nat) : Bytes :=
  if u = 0 ∨ base < 2 then [] else digitChar (u % base) :: digitLoop base (u / base)
termination_by u
decreasing_by exact Nat.div_lt_self (by omega) (by omega)

def itoaBin (v : Int64) (base : Nat) : Bytes :=
  let u := if v < 0 then (-(v + 1)).toUInt64 + 1 else v.toUInt64
  let buf := (if u = 0 then [48] else []) ++ digitLoop base u.toNat
  (if v < 0 then [45] else []) ++ buf.reverse

def hpbiDecbin (n : HVal Bytes) : Bytes := itoaBin (hpValToInt n) 2
def hpbiDecoct (n : HVal Bytes) : Bytes := itoaBin (hpValToInt n) 8
def hpbiDechex (n : HVal Bytes) : Bytes := itoaBin (hpValToInt n) 16

/-- the digits to the base in front -/
def baseNumber (base n : Nat) : Bytes → Nat
  | [] => n
  | c :: s =>
    match (hexValue c).filter (· < base) with
    | some d => baseNumber base (base * n + d) s
    | none => n

/-- the digits behind the sign; only to the base 16 `0x` is skipped -/
def unsignedNumber (base : Nat) (s : Bytes) : Int :=
  baseNumber base 0 (if base = 16 then skip0x s else s)

/-- `strtoll(s, NULL, base)` up to the base 16; out of range it saturates -/
def strtollBase (base : Nat) (s : Bytes) : Int64 :=
  let v : Int := match s.dropWhile isSpace with
    | 45 :: t => -unsignedNumber base t
    | 43 :: t => unsignedNumber base t
    | t => unsignedNumber base t
  if 2 ^ 63 ≤ v then Int64.maxValue else if v < -2 ^ 63 then Int64.minValue else Int64.ofInt v

/-- the argument is the text after `hp_val_to_str` -/
def hpbiBindec (s : Bytes) : Int64 := strtollBase 2 s
def hpbiOctdec (s : Bytes) : Int64 := strtollBase 8 s
def hpbiHexdec (s : Bytes) : Int64 := strtollBase 16 s

/-! ## digits -/

section
variable {base n : Nat}

theorem hexValue_digitChar : ∀ n < 16, hexValue (digitChar n) = some n := by decide

/-- a digit is no blank, no sign and no letter of a prefix -/
theorem digitChar_plain : ∀ n < 16, isSpace (digitChar n) = false ∧ digitChar n ≠ 45 ∧
    digitChar n ≠ 43 ∧ digitChar n ≠ 120 ∧ digitChar n ≠ 88 := by
  decide

/-- **The digit loop.** -/
theorem digitLoop_eq (hb : 1 < base) (u : Nat) :
    digitLoop base u = (Nat.digits base u).map digitChar := by
  induction u using Nat.strong_induction_on with
  | _ u ih =>
    rw [digitLoop]
    by_cases hu : u = 0
    · rw [if_pos (.inl hu), hu, Nat.digits_zero, List.map_nil]
    · have hpos : 0 < u := Nat.pos_of_ne_zero hu
      rw [if_neg (by omega), ih (u / base) (Nat.div_lt_self hpos hb), Nat.digits_def' hb hpos,
        List.map_cons]

/-- **Digits are read** to the number that they stand for, behind the number `n`. -/
theorem baseNumber_digits (hb : base ≤ 16) (ds : List Nat) (hds : ∀ d ∈ ds, d < base) :
    baseNumber base n (ds.map digitChar).reverse = base ^ ds.length * n + Nat.ofDigits base ds := by
  induction ds using List.reverseRecOn generalizing n with
  | nil => simp [baseNumber]
  | append_singleton ds d ih =>
    have hd : d < base := hds d (by simp)
    have hval : (hexValue (digitChar d)).filter (· < base) = some d := by
      rw [hexValue_digitChar d (hd.trans_le hb), Option.filter_some, if_pos (decide_eq_true hd)]
    rw [List.map_append, List.reverse_append]
    show baseNumber base n (digitChar d :: (ds.map digitChar).reverse) = _
    rw [baseNumber, hval]
    dsimp only
    rw [ih fun x hx => hds x (List.mem_append_left _ hx), Nat.ofDigits_append,
      Nat.ofDigits_singleton, List.length_append, List.length_singleton, Nat.pow_succ]
    ring

/-- there is no `0x` in digits -/
theorem skip0x_eq {s : Bytes} (h : ∀ c ∈ s, c ≠ 120 ∧ c ≠ 88) : skip0x s = s := by
  unfold skip0x
  split
  · rename_i x d t
    have hx := h x (by simp)
    exact if_neg fun hc => hc.1.elim hx.1 hx.2
  · rfl

/-! ## texts -/

/-- the digits that `itoa_bin` writes for the absolute value `u` -/
def magnitudeText (base u : Nat) : Bytes :=
  ((if u = 0 then [48] else []) ++ digitLoop base u).reverse

theorem magnitudeText_eq (hb : 1 < base) (u : Nat) : ∃ ds : List Nat,
    magnitudeText base u = (ds.map digitChar).reverse ∧ ds ≠ [] ∧ (∀ d ∈ ds, d < base) ∧
    Nat.ofDigits base ds = u ∧ (u < 2 ^ 64 → ds.length ≤ 64) := by
  by_cases hu : u = 0
  · refine ⟨[0], ?_, List.cons_ne_nil _ _, by simp; omega, by simp [hu], fun _ => by simp⟩
    rw [magnitudeText, if_pos hu, digitLoop_eq hb, hu, Nat.digits_zero]
    rfl
  · refine ⟨Nat.digits base u, ?_, Nat.digits_ne_nil_iff_ne_zero.mpr hu,
      fun d hd => Nat.digits_lt_base hb hd, Nat.ofDigits_digits base u, fun hlt => ?_⟩
    · rw [magnitudeText, if_neg hu, digitLoop_eq hb, List.nil_append]
    · exact (Nat.digits_length_le_iff hb u).mpr (hlt.trans_le (Nat.pow_le_pow_left hb 64))

theorem unsignedNumber_text (hb : 1 < base) (hb16 : base ≤ 16) (u : Nat) :
    unsignedNumber base (magnitudeText base u) = u := by
  obtain ⟨ds, htext, -, hds, hval, -⟩ := magnitudeText_eq hb u
  have hplain : ∀ c ∈ magnitudeText base u, c ≠ 120 ∧ c ≠ 88 := by
    intro c hc
    rw [htext, List.mem_reverse, List.mem_map] at hc
    obtain ⟨d, hd, rfl⟩ := hc
    exact (digitChar_plain d ((hds d hd).trans_le hb16)).2.2.2
  have hskip : (if base = 16 then skip0x (magnitudeText base u) else magnitudeText base u) =
      magnitudeText base u := by
    split
    · exact skip0x_eq hplain
    · rfl
  rw [unsignedNumber, hskip, htext, baseNumber_digits hb16 ds hds, hval, Nat.mul_zero,
    Nat.zero_add]

/-- the text begins with a digit -/
theorem magnitudeText_cons (hb : 1 < base) (hb16 : base ≤ 16) (u : Nat) : ∃ c t,
    magnitudeText base u = c :: t ∧ isSpace c = false ∧ c ≠ 45 ∧ c ≠ 43 := by
  obtain ⟨ds, htext, hne, hds, -⟩ := magnitudeText_eq hb u
  obtain ⟨init, d, rfl⟩ := (List.eq_nil_or_concat' ds).resolve_left hne
  have hd : d < 16 := (hds d (by simp)).trans_le hb16
  obtain ⟨hs, h45, h43, -⟩ := digitChar_plain d hd
  exact ⟨digitChar d, (init.map digitChar).reverse, by rw [htext]; simp, hs, h45, h43⟩

/-- a text with its sign is read to the number, if that is one -/
theorem strtollBase_text (hb : 1 < base) (hb16 : base ≤ 16) (u : Nat) (neg : Bool) {v : Int64}
    (hv : v.toInt = if neg then -(u : Int) else u) :
    strtollBase base ((if neg then [45] else []) ++ magnitudeText base u) = v := by
  have hlo := v.le_toInt
  have hhi := v.toInt_lt
  obtain ⟨c, t, htext, hs, h45, h43⟩ := magnitudeText_cons hb hb16 u
  have hread := unsignedNumber_text hb hb16 u
  have hend : ∀ w : Int, w = v.toInt → (if 2 ^ 63 ≤ w then Int64.maxValue
      else if w < -2 ^ 63 then Int64.minValue else Int64.ofInt w) = v := by
    rintro w rfl
    rw [if_neg (by omega), if_neg (by omega), Int64.ofInt_toInt]
  unfold strtollBase
  dsimp only
  apply hend
  rw [hv]
  cases neg with
  | true =>
    rw [if_pos rfl, if_pos rfl, ← hread]
    rfl
  | false =>
    rw [if_neg Bool.false_ne_true, if_neg Bool.false_ne_true, List.nil_append, htext,
      List.dropWhile_cons_of_neg (by rw [hs]; exact Bool.false_ne_true), ← hread, htext]
    split
    · rename_i heq
      exact absurd (List.cons.inj heq).1 h45
    · rename_i heq
      exact absurd (List.cons.inj heq).1 h43
    · rfl

end

/-! ## `itoa_bin` -/

/-- `-(v + 1) + 1` is the absolute value also of `INT64_MIN` -/
theorem magnitude_toNat (v : Int64) :
    (if v < 0 then (-(v + 1)).toUInt64 + 1 else v.toUInt64).toNat = v.toInt.natAbs := by
  have h : v.toInt = v.toBitVec.toInt := rfl
  have hlt := v.toBitVec.isLt
  have hneg : v < 0 ↔ v.toInt < 0 := Int64.lt_iff_toInt_lt
  split
  · rename_i hv
    have hn : ((-(v + 1)).toUInt64 + 1).toNat = (-(v.toBitVec + 1#64) + 1#64).toNat := rfl
    have hcond := BitVec.toInt_eq_toNat_cond v.toBitVec
    rw [hneg, h] at hv
    rw [hn, h]
    bv_omega
  · rename_i hv
    have hn : v.toUInt64.toNat = v.toBitVec.toNat := rfl
    have hcond := BitVec.toInt_eq_toNat_cond v.toBitVec
    rw [hneg, h] at hv
    rw [hn, h]
    omega

theorem itoaBin_eq (v : Int64) (base : Nat) :
    itoaBin v base = (if v < 0 then [45] else []) ++ magnitudeText base v.toInt.natAbs := by
  have hmag := magnitude_toNat v
  unfold itoaBin magnitudeText
  dsimp only
  generalize (if v < 0 then (-(v + 1)).toUInt64 + 1 else v.toUInt64) = u at hmag ⊢
  have hzero : u = 0 ↔ v.toInt.natAbs = 0 := by
    rw [← hmag, ← UInt64.toNat_inj]
    rfl
  rw [hmag]
  simp only [hzero]

theorem itoaBin_length {base : Nat} (hb : 1 < base) (v : Int64) :
    (itoaBin v base).length ≤ 65 := by
  have hlo := v.le_toInt
  have hhi := v.toInt_lt
  obtain ⟨ds, htext, -, -, -, hlen⟩ := magnitudeText_eq hb v.toInt.natAbs
  have hds := hlen (by omega)
  rw [itoaBin_eq, htext, List.length_append, List.length_reverse, List.length_map]
  split
  · rw [List.length_singleton]
    omega
  · rw [List.length_nil]
    omega

theorem strtollBase_itoaBin {base : Nat} (hb : 1 < base) (hb16 : base ≤ 16) (v : Int64) :
    strtollBase base (itoaBin v base) = v := by
  have hneg : v < 0 ↔ v.toInt < 0 := Int64.lt_iff_toInt_lt
  rw [itoaBin_eq]
  by_cases h : v < 0
  · have hlt := hneg.mp h
    rw [if_pos h]
    exact strtollBase_text hb hb16 v.toInt.natAbs true (by rw [if_pos rfl]; omega)
  · have hge := mt hneg.mpr h
    rw [if_neg h]
    exact strtollBase_text hb hb16 v.toInt.natAbs false (by rw [if_neg Bool.false_ne_true]; omega)

/-- **Every number is read back** from its text to the bases 2, 8 and 16, and `itoa_bin` writes at
most 65 characters. -/
theorem radix_round_trip (v : Int64) :
    hpbiBindec (hpbiDecbin (.int v)) = v ∧ hpbiOctdec (hpbiDecoct (.int v)) = v ∧
    hpbiHexdec (hpbiDechex (.int v)) = v ∧
    ((itoaBin v 2).length ≤ 65 ∧ (itoaBin v 8).length ≤ 65 ∧ (itoaBin v 16).length ≤ 65) :=
  ⟨strtollBase_itoaBin (by omega) (by omega) v, strtollBase_itoaBin (by omega) (by omega) v,
    strtollBase_itoaBin (by omega) (by omega) v, itoaBin_length (by omega) v,
    itoaBin_length (by omega) v, itoaBin_length (by omega) v⟩

end Radix
end HolyPhp
