import HolyPhp.Json.DecodeSpec
import HolyPhp.Lexer.Template
import HolyPhp.Lib.CLiteral
import HolyPhp.Runtime.Str

/-!
# Integer literals, from the source to C

* `emitInt`     what is written for an `EX_INT`, and `cInt64` what C makes of that;
* `IntLit`      decimal, hexadecimal and binary literals, with the number that is written;
* `Stops`       the text behind a literal does not go on with it;
* `lexInt`      the token that the lexer makes of a literal;
* `intLit_iff`  **which literals mean what they say.**
-/

set_option autoImplicit false

namespace HolyPhp
namespace Codegen
open Lexer
open CLiteral (number digitValue)
open HolyPhp.Std (hexValue skip0x digitByte_spec decimal_lt decimal_step decimal_digits)
open Json (decimal)
open Str (hpStrFromInt)
open Radix (baseNumber strtollBase)

/-! ## the text in C -/

/-- `emit_expr` of an `EX_INT` -/
def emitInt (i : Int64) : Bytes := ascii "(int64_t)" ++ hpStrFromInt i

/-- the value of a constant with a cast in front; `big` is what becomes of one that does not fit in
`long long` -/
def cInt64 (big : Nat → Option Int) (s : Bytes) : Option Int64 :=
  let value (t : Bytes) : Option Int :=
    (CLiteral.constant t).bind fun v => if v < 2 ^ 63 then some v else big v
  if ascii "(int64_t)" <+: s then
    match s.drop 9 with
    | [] => none
    | c :: t => if c = 45 then (value t).map fun v => Int64.ofInt (-v)
        else (value (c :: t)).map Int64.ofInt
  else none

/-! ## literals -/

inductive IntLit where
  | dec (d : UInt8) (ds : Bytes) (hd : isDigit d = true) (hds : ∀ c ∈ ds, digitOrLine c = true)
  | hex (x : UInt8) (ds : Bytes) (hx : x = 120 ∨ x = 88) (hds : ∀ c ∈ ds, isXdigit c = true)
  | bin (b : UInt8) (ds : Bytes) (hb : b = 98 ∨ b = 66) (hds : ∀ c ∈ ds, c = 48 ∨ c = 49)

namespace IntLit

def first : IntLit → UInt8
  | .dec d _ _ _ => d
  | _ => 48

/-- the text behind the first character -/
def more : IntLit → Bytes
  | .dec _ ds _ _ => ds
  | .hex x ds _ _ => x :: ds
  | .bin b ds _ _ => b :: ds

/-- the number that is written -/
def value : IntLit → Nat
  | .dec d ds _ _ => number 10 ((d :: ds).filter (· ≠ 95))
  | .hex _ ds _ _ => number 16 ds
  | .bin _ ds _ _ => number 2 ds

/-- an exponent is in front -/
def startsExponent (r : Bytes) : Bool :=
  (peek r 0 == 101 || peek r 0 == 69) &&
    (isDigit (peek r 1) || ((peek r 1 == 43 || peek r 1 == 45) && isDigit (peek r 2)))

/-- the literal ends where the text `r` begins -/
def Stops : IntLit → Bytes → Prop
  | .dec d ds _ _, r => digitOrLine (peek r 0) = false ∧
      ¬ (peek r 0 = 46 ∧ isDigit (peek r 1) = true) ∧ startsExponent r = false ∧
      ¬ (d = 48 ∧ ds = [] ∧ (peek r 0 = 120 ∨ peek r 0 = 88 ∨ peek r 0 = 98 ∨ peek r 0 = 66))
  | .hex _ _ _ _, r => isXdigit (peek r 0) = false
  | .bin _ _ _ _, r => peek r 0 ≠ 48 ∧ peek r 0 ≠ 49

end IntLit

variable {a : Place} {c d : UInt8} {r s t w ds : Bytes} {n base : Nat} {p : UInt8 → Bool}

/-! ## digits -/

theorem isXdigit_value (h : isXdigit c = true) :
    hexValue c = some (digitValue c) ∧ digitValue c < 16 := by
  simp only [isXdigit, isDigit, Bool.or_eq_true, Bool.and_eq_true, decide_eq_true_eq,
    UInt8.le_iff_toNat_le, UInt8.reduceToNat] at h
  simp only [hexValue, isDigit, digitValue, Bool.and_eq_true, decide_eq_true_eq,
    UInt8.le_iff_toNat_le, UInt8.reduceToNat]
  split_ifs <;> first | omega | (constructor <;> first | rfl | omega)

theorem isDigit_value (h : isDigit c = true) : digitValue c = c.toNat - 48 := by
  simp only [isDigit, Bool.and_eq_true, decide_eq_true_eq] at h
  exact if_pos h.2

theorem baseNumber_number (h : ∀ c ∈ ds, hexValue c = some (digitValue c) ∧ digitValue c < base) :
    baseNumber base n ds = ds.foldl (fun v c => base * v + digitValue c) n := by
  induction ds generalizing n with
  | nil => rfl
  | cons c ds ih =>
    obtain ⟨hc, hlt⟩ := h c List.mem_cons_self
    have hf : (hexValue c).filter (· < base) = some (digitValue c) := by
      rw [hc, Option.filter_some, if_pos (decide_eq_true hlt)]
    rw [baseNumber, hf]
    exact ih fun x hx => h x (List.mem_cons_of_mem c hx)

theorem leadingNat_number (h : ∀ c ∈ ds, isDigit c = true) :
    leadingNat n ds = ds.foldl (fun v c => 10 * v + digitValue c) n := by
  induction ds generalizing n with
  | nil => rfl
  | cons c ds ih =>
    have hc := h c List.mem_cons_self
    rw [leadingNat, if_pos hc, List.foldl_cons, isDigit_value hc, Nat.mul_comm n 10]
    exact ih fun x hx => h x (List.mem_cons_of_mem c hx)

theorem skip0x_digits (h : ∀ c ∈ ds, isXdigit c = true) : skip0x ds = ds := by
  unfold skip0x
  split
  next x d s =>
    refine if_neg fun hx => ?_
    have := h x (by simp)
    rcases hx.1 with rfl | rfl <;> exact absurd this (by decide)
  · rfl

theorem digits_plain (h : ∀ c ∈ ds, isXdigit c = true) : ds.dropWhile isSpace = ds ∧
    ∀ t, ds ≠ 45 :: t ∧ ds ≠ 43 :: t := by
  constructor
  · cases ds with
    | nil => rfl
    | cons c ds =>
      refine List.dropWhile_cons_of_neg fun hs => ?_
      have hc := h c List.mem_cons_self
      simp only [isXdigit, isDigit, isSpace, Bool.or_eq_true, Bool.and_eq_true, decide_eq_true_eq,
        UInt8.le_iff_toNat_le, UInt8.reduceToNat, beq_iff_eq] at hc hs
      rcases hs with rfl | hs
      · exact absurd hc (by decide)
      · omega
  · intro t
    constructor <;>
      · rintro rfl
        exact absurd (h _ List.mem_cons_self) (by decide)

/-- the value of what saturates -/
theorem saturate {v : Nat} (h : v < 2 ^ 63) :
    ((if (2 : Int) ^ 63 ≤ (v : Int) then Int64.maxValue
      else if (v : Int) < -2 ^ 63 then Int64.minValue else Int64.ofInt v) : Int64).toInt = v := by
  rw [if_neg (by omega), if_neg (by omega), Int64.toInt_ofInt_of_le (by omega) (by omega)]

/-- `strtoll` of digits that fit -/
theorem strtoll_number (h : ∀ c ∈ ds, isDigit c = true) (hv : number 10 ds < 2 ^ 63) :
    (strtoll ds).toInt = (number 10 ds : Nat) := by
  obtain ⟨hspace, hsign⟩ := digits_plain fun c hc => by simp [isXdigit, h c hc]
  rw [strtoll, hspace]
  split
  next t => exact absurd rfl (hsign t).1
  next t => exact absurd rfl (hsign t).2
  · rw [leadingNat_number h]
    exact saturate hv

theorem strtollBase_number (h : ∀ c ∈ ds, c = 48 ∨ c = 49) (hv : number 2 ds < 2 ^ 63) :
    (strtollBase 2 ds).toInt = (number 2 ds : Nat) := by
  have hbase : baseNumber 2 0 ds = number 2 ds := baseNumber_number fun c hc => by
    rcases h c hc with rfl | rfl <;> decide
  have hu : Radix.unsignedNumber 2 ds = (number 2 ds : Nat) := congrArg Int.ofNat hbase
  obtain ⟨hspace, hsign⟩ := digits_plain fun c hc => by rcases h c hc with rfl | rfl <;> rfl
  rw [strtollBase, hspace]
  split
  next t => exact absurd rfl (hsign t).1
  next t => exact absurd rfl (hsign t).2
  · rw [hu]
    exact saturate hv

theorem strtoullHex_number (h : ∀ c ∈ ds, isXdigit c = true) (hv : number 16 ds < 2 ^ 63) :
    (strtoullHex ds).toInt64.toInt = (number 16 ds : Nat) := by
  have hbase : baseNumber 16 0 (skip0x ds) = number 16 ds := by
    rw [skip0x_digits h]
    exact baseNumber_number fun c hc => isXdigit_value (h c hc)
  rw [strtoullHex, hbase, if_pos (by omega), UInt64.toInt64_ofNat', Int64.toInt_ofNat_of_lt hv]

/-! ## the lexer -/

theorem lexExponent_stop (h : IntLit.startsExponent r = false) (a : Place) :
    (lexExponent a r).1 = false ∧ (lexExponent a r).2.2 = r := by
  unfold lexExponent
  cases r with
  | nil => exact ⟨rfl, rfl⟩
  | cons e t =>
    dsimp only
    split
    next he =>
      have hx : isDigit (peek t 0) = false ∧
          ((peek t 0 = 43 ∨ peek t 0 = 45) → isDigit (peek t 1) = false) := by
        have h1 : (peek (e :: t) 0 == 101 || peek (e :: t) 0 == 69) = true := by
          simpa [peek] using he
        rw [IntLit.startsExponent, h1, Bool.true_and, Bool.or_eq_false_iff] at h
        refine ⟨h.1, fun hs => ?_⟩
        have h2 : (peek (e :: t) 1 == 43 || peek (e :: t) 1 == 45) = true := by
          simpa [peek] using hs
        rw [h2, Bool.true_and] at h
        exact h.2
      cases t with
      | nil => exact ⟨rfl, rfl⟩
      | cons g u =>
        dsimp only
        split
        next hg =>
          rw [if_neg (by rw [show isDigit (peek u 0) = false from hx.2 hg]; decide)]
          exact ⟨rfl, rfl⟩
        · rw [if_neg (by rw [hx.1]; decide)]
          exact ⟨rfl, rfl⟩
    · exact ⟨rfl, rfl⟩

theorem taken_cons (x : UInt8) (w r : Bytes) : taken (x :: (w ++ r)) r = x :: w :=
  taken_append (x :: w) r

/-- **The number of a literal**: its text, and its value where that fits. -/
theorem lexNumber_intLit (strtod : Bytes → Double) (l : IntLit) (h : l.Stops r) (a : Place) :
    ∃ n, lexNumber strtod a (l.first :: (l.more ++ r)) = n ∧ n.kind = .int ∧
      n.text = l.first :: l.more ∧ n.rest = r ∧
      (l.value < 2 ^ 63 → n.ival.toInt = l.value) := by
  cases l with
  | hex x ds hx hds =>
    have hif : peek (48 :: (x :: ds ++ r)) 0 = 48 ∧
        (peek (48 :: (x :: ds ++ r)) 1 = 120 ∨ peek (48 :: (x :: ds ++ r)) 1 = 88) := ⟨rfl, hx⟩
    obtain ⟨b, hb⟩ : ∃ b, advWhile isXdigit ((a.adv (peek (48 :: (x :: ds ++ r)) 0)).adv
        (peek (48 :: (x :: ds ++ r)) 1)) ((48 :: (x :: ds ++ r)).drop 2) = (b, r) :=
      advWhile_append hds h ((a.adv 48).adv x)
    refine ⟨⟨.int, 48 :: x :: ds, (strtoullHex ds).toInt64, ⟨0⟩, b, r⟩, ?_, rfl, rfl, rfl,
      fun hv => ?_⟩
    · show lexNumber strtod a (48 :: (x :: ds ++ r)) = _
      rw [lexNumber, if_pos hif]
      simp only [hb, taken_cons]
      rfl
    · exact strtoullHex_number hds hv
  | bin b ds hb hds =>
    have hnot : ¬ (peek (48 :: (b :: ds ++ r)) 0 = 48 ∧
        (peek (48 :: (b :: ds ++ r)) 1 = 120 ∨ peek (48 :: (b :: ds ++ r)) 1 = 88)) := by
      rintro ⟨-, h'⟩
      rcases hb with rfl | rfl <;> exact absurd h' (by simp [peek])
    have hif : peek (48 :: (b :: ds ++ r)) 0 = 48 ∧
        (peek (48 :: (b :: ds ++ r)) 1 = 98 ∨ peek (48 :: (b :: ds ++ r)) 1 = 66) := ⟨rfl, hb⟩
    obtain ⟨q, hq⟩ : ∃ q, advWhile (fun c => c == 48 || c == 49)
        ((a.adv (peek (48 :: (b :: ds ++ r)) 0)).adv (peek (48 :: (b :: ds ++ r)) 1))
        ((48 :: (b :: ds ++ r)).drop 2) = (q, r) :=
      advWhile_append (fun c hc => by rcases hds c hc with rfl | rfl <;> rfl)
        (by simpa [IntLit.Stops] using h) ((a.adv 48).adv b)
    refine ⟨⟨.int, 48 :: b :: ds, strtollBase 2 ds, ⟨0⟩, q, r⟩, ?_, rfl, rfl, rfl, fun hv => ?_⟩
    · show lexNumber strtod a (48 :: (b :: ds ++ r)) = _
      rw [lexNumber, if_neg hnot, if_pos hif]
      simp only [hq, taken_cons]
      rfl
    · exact strtollBase_number hds hv
  | dec d ds hd hds =>
    obtain ⟨hmore, hfrac, hexp, hzero⟩ := h
    have hall : ∀ c ∈ d :: ds, digitOrLine c = true := by
      intro c hc
      rcases List.mem_cons.1 hc with rfl | hc
      · simp [digitOrLine, hd]
      · exact hds c hc
    -- neither `0x` nor `0b`
    have hnot : ∀ x : UInt8, digitOrLine x = false → (x = 120 ∨ x = 88 ∨ x = 98 ∨ x = 66) →
        ¬ (peek (d :: (ds ++ r)) 0 = 48 ∧ peek (d :: (ds ++ r)) 1 = x) := by
      rintro x hx hxs ⟨rfl, h1⟩
      cases ds with
      | nil => exact hzero ⟨rfl, rfl, by rw [show peek r 0 = x from h1]; exact hxs⟩
      | cons c ds =>
        have hc := hds c List.mem_cons_self
        rw [show c = x from h1, hx] at hc
        cases hc
    have hnx : ¬ (peek (d :: (ds ++ r)) 0 = 48 ∧
        (peek (d :: (ds ++ r)) 1 = 120 ∨ peek (d :: (ds ++ r)) 1 = 88)) := by
      rintro ⟨h0, h1 | h1⟩
      · exact hnot 120 (by decide) (by simp) ⟨h0, h1⟩
      · exact hnot 88 (by decide) (by simp) ⟨h0, h1⟩
    have hnb : ¬ (peek (d :: (ds ++ r)) 0 = 48 ∧
        (peek (d :: (ds ++ r)) 1 = 98 ∨ peek (d :: (ds ++ r)) 1 = 66)) := by
      rintro ⟨h0, h1 | h1⟩
      · exact hnot 98 (by decide) (by simp) ⟨h0, h1⟩
      · exact hnot 66 (by decide) (by simp) ⟨h0, h1⟩
    obtain ⟨b, hb⟩ := advWhile_append hall hmore a
    rw [List.cons_append] at hb
    have hf : lexFraction b r = (false, b, r) := if_neg hfrac
    obtain ⟨he1, he2⟩ := lexExponent_stop hexp b
    refine ⟨⟨.int, d :: ds, strtoll ((d :: ds).filter (· ≠ 95)), ⟨0⟩, (lexExponent b r).2.1, r⟩,
      ?_, rfl, rfl, rfl, fun hv => ?_⟩
    · show lexNumber strtod a (d :: (ds ++ r)) = _
      rw [lexNumber, if_neg hnx, if_neg hnb]
      simp only [hb, hf, he1, he2, taken_cons]
      rfl
    · have hdigits : ∀ c ∈ (d :: ds).filter (· ≠ 95), isDigit c = true := by
        intro c hc
        obtain ⟨hm, hne⟩ := List.mem_filter.1 hc
        have hc' := hall c hm
        simp only [digitOrLine, Bool.or_eq_true, beq_iff_eq] at hc'
        exact hc'.resolve_right (by simpa using hne)
      exact strtoll_number hdigits hv

/-- a literal is one token -/
theorem lexInt (strtod : Bytes → Double) (l : IntLit) (h : l.Stops r) (a : Place) :
    ∃ n, lexToken strtod a l.first (l.more ++ r) = .ok n ∧ n.rest = r ∧ n.tok.kind = .int ∧
      n.tok.text = l.first :: l.more ∧ (l.value < 2 ^ 63 → n.tok.ival.toInt = l.value) := by
  obtain ⟨n, hn, hk, ht, hr, hv⟩ := lexNumber_intLit strtod l h a
  have hd : isDigit l.first = true := by
    cases l with
    | dec d ds hd hds => exact hd
    | hex x ds hx hds => rfl
    | bin b ds hb hds => rfl
  have hs : startsName l.first = false := by
    simp only [isDigit, Bool.and_eq_true, decide_eq_true_eq, UInt8.le_iff_toNat_le,
      UInt8.reduceToNat] at hd
    simp only [startsName, isAlpha, Bool.or_eq_false_iff, Bool.and_eq_false_iff,
      decide_eq_false_iff_not, UInt8.le_iff_toNat_le, UInt8.reduceToNat, beq_eq_false_iff_ne, ne_eq,
      ← UInt8.toNat_inj]
    omega
  rw [lexToken, if_neg (by rw [hs]; decide), if_pos (by rw [hd]; rfl), hn]
  exact ⟨_, rfl, hr, hk, ht, hv⟩

/-! ## the compiler -/

theorem decimal_head (h : 0 < n) : ∃ c t, decimal n = c :: t ∧ c ≠ 48 := by
  induction n using Nat.strongRecOn with
  | ind n ih =>
    by_cases h10 : n < 10
    · refine ⟨_, [], decimal_lt h10, fun h48 => ?_⟩
      have hd := (digitByte_spec n h10).2
      rw [h48] at hd
      exact absurd hd.symm (Nat.pos_iff_ne_zero.1 h)
    · obtain ⟨c, t, hc, hne⟩ := ih (n / 10) (by omega) (by omega)
      exact ⟨c, _, by rw [decimal_step (Nat.le_of_not_lt h10), hc]; rfl, hne⟩

theorem constant_decimal (n : Nat) : CLiteral.constant (decimal n) = some n := by
  have hval : number 10 (decimal n) = n := by
    rw [number, ← leadingNat_number (decimal_digits n)]
    exact HolyPhp.Std.leadingNat_decimal n
  by_cases h : n = 0
  · subst h
    rfl
  · obtain ⟨c, t, hc, hne⟩ := decimal_head (Nat.pos_of_ne_zero h)
    have hall : (c :: t).all CLiteral.isDec = true := by
      rw [List.all_eq_true, ← hc]
      exact decimal_digits n
    rw [hc, CLiteral.constant, if_neg hne, if_pos hall, ← hc, hval]

/-- **A value that is not negative comes back** from what is emitted for it. -/
theorem cInt64_emitInt (big : Nat → Option Int) {i : Int64} (h : 0 ≤ i.toInt) :
    cInt64 big (emitInt i) = some i := by
  have hlt := Int64.toInt_lt i
  have htext : hpStrFromInt i = decimal i.toInt.natAbs := by
    rw [hpStrFromInt, if_neg (by omega)]
    rfl
  obtain ⟨c, t, hc, hd⟩ := HolyPhp.Std.decimal_cons i.toInt.natAbs
  have h45 : c ≠ 45 := by
    rintro rfl
    exact absurd hd (by decide)
  have hconst : (CLiteral.constant (c :: t)).bind (fun v => if v < 2 ^ 63 then some (v : Int) else big v)
      = some i.toInt := by
    rw [← hc, constant_decimal, Option.bind_some, if_pos (by omega)]
    congr 1
    omega
  rw [emitInt, htext, hc, cInt64, if_pos (List.prefix_append _ _)]
  show (if c = 45 then _ else _) = _
  rw [if_neg h45]
  show Option.map Int64.ofInt ((CLiteral.constant (c :: t)).bind _) = _
  rw [hconst, Option.map_some, Int64.ofInt_toInt]

/-! ## literals -/

/-- the literal is read as the number `v`, and so is what is emitted for it, if the number fits in
`int64_t`; if not, it is no literal of the language, or a float -/
def Means (big : Nat → Option Int) (v : Nat) : Except Stop Next → Prop
  | .ok n => if v < 2 ^ 63 then n.tok.kind = .int ∧ n.tok.ival.toInt = v ∧
      cInt64 big (emitInt n.tok.ival) = some n.tok.ival else n.tok.kind = .float
  | .error _ => 2 ^ 63 ≤ v

/-- **Integer literals.**  A literal means the number that is written exactly if that is less than
`2 ^ 63`, whatever the compiler does with constants that are too large. -/
theorem intLit_iff (strtod : Bytes → Double) (big : Nat → Option Int) (a : Place) (l : IntLit)
    (r : Bytes) (h : l.Stops r) :
    Means big l.value (lexToken strtod a l.first (l.more ++ r)) ↔ l.value < 2 ^ 63 := by
  obtain ⟨n, hn, -, hk, -, hv⟩ := lexInt strtod l h a
  rw [hn, Means]
  by_cases hlt : l.value < 2 ^ 63
  · rw [if_pos hlt]
    have hi := hv hlt
    refine iff_of_true ⟨hk, hi, ?_⟩ hlt
    exact cInt64_emitInt big (by omega)
  · rw [if_neg hlt]
    refine iff_of_false (fun hf => ?_) hlt
    rw [hk] at hf
    cases hf

theorem intLit_iff_seven : Means (fun _ => none) 7
    (lexToken (fun _ => ⟨0⟩) .start 55 ([] ++ [59])) ↔ 7 < 2 ^ 63 :=
  intLit_iff (fun _ => ⟨0⟩) (fun _ => none) .start (.dec 55 [] rfl (by simp)) [59]
    ⟨rfl, by decide, rfl, by decide⟩

/-- `0x8000000000000000` -/
theorem intLit_wraps : ¬ ∀ (strtod : Bytes → Double) (big : Nat → Option Int) (a : Place)
    (l : IntLit) (r : Bytes), l.Stops r →
      Means big l.value (lexToken strtod a l.first (l.more ++ r)) := by
  intro h
  have hds : ∀ c ∈ 56 :: List.replicate 15 48, isXdigit c = true := List.all_eq_true.1 rfl
  have hm := h (fun _ => ⟨0⟩) (fun _ => none) .start (.hex 120 _ (.inl rfl) hds) [] rfl
  obtain ⟨n, hn, -, hk, -, -⟩ := lexInt (r := []) (fun _ => ⟨0⟩) (.hex 120 _ (.inl rfl) hds) rfl
    .start
  have hbig : ¬ number 16 (56 :: List.replicate 15 48) < 2 ^ 63 := by decide
  rw [hn, Means, IntLit.value, if_neg hbig, hk] at hm
  cases hm

end Codegen
end HolyPhp
