import HolyPhp.Runtime.Value
import Mathlib.Computability.Language

/-!
# The matcher of `glob`

`wc_match` on two C texts; what stands behind a NUL is not read.

* `globLanguage`  the language of a pattern: `*` is any text, `?` one byte, any other byte itself;
* `wcMatch_iff`   **the matcher decides it.**
-/

set_option autoImplicit false

namespace HolyPhp
namespace Std

/-! ## the matcher -/

/-- `*p`; at the end of a text, the NUL -/
def charAt : Bytes → UInt8
  | [] => 0
  | c :: _ => c

/-- the loop over `t` -/
def starLoop (f : Bytes → Bool) : Bytes → Bool
  | [] => f []
  | c :: t => f (c :: t) || (c != 0 && starLoop f t)

def wcMatch : Bytes → Bytes → Bool
  | [], s => charAt s == 0
  | p :: pat, s =>
    if p = 0 then charAt s == 0
    else if p = 42 then
      if charAt pat = 0 then true else starLoop (wcMatch pat) s
    else if charAt s = 0 then false
    else if p ≠ 63 ∧ p ≠ charAt s then false
    else wcMatch pat s.tail

/-! ## the language of a pattern -/

def globSymbol (p : UInt8) : Language UInt8 :=
  {w | if p = 42 then True else if p = 63 then ∃ c, w = [c] else w = [p]}

def globLanguage (pat : Bytes) : Language UInt8 := (pat.map globSymbol).prod

section
variable {f : Bytes → Bool} {s pat : Bytes} {p c : UInt8}

theorem mem_globSymbol {w : Bytes} : w ∈ globSymbol p ↔
    if p = 42 then True else if p = 63 then ∃ c, w = [c] else w = [p] :=
  Iff.rfl

theorem globLanguage_cons : s ∈ globLanguage (p :: pat) ↔
    ∃ w ∈ globSymbol p, ∃ t ∈ globLanguage pat, w ++ t = s := by
  rw [globLanguage, List.map_cons, List.prod_cons]
  exact Language.mem_mul

/-- the loop tries every suffix -/
theorem starLoop_iff (h : 0 ∉ s) : starLoop f s = true ↔ ∃ w t, w ++ t = s ∧ f t = true := by
  induction s with
  | nil =>
    constructor
    · intro hf
      exact ⟨[], [], rfl, hf⟩
    · rintro ⟨w, t, he, hf⟩
      rw [(List.append_eq_nil_iff.mp he).2] at hf
      exact hf
  | cons c s ih =>
    obtain ⟨hc, hs⟩ := not_or.mp (List.mem_cons.not.mp h)
    have hne : (c != 0) = true := bne_iff_ne.mpr (Ne.symm hc)
    rw [starLoop, hne, Bool.true_and, Bool.or_eq_true, ih hs]
    constructor
    · rintro (hf | ⟨w, t, rfl, hf⟩)
      · exact ⟨[], c :: s, rfl, hf⟩
      · exact ⟨c :: w, t, rfl, hf⟩
    · rintro ⟨w, t, he, hf⟩
      cases w with
      | nil =>
        rw [List.nil_append] at he
        exact .inl (he ▸ hf)
      | cons d w => exact .inr ⟨w, t, (List.cons.inj he).2, hf⟩

/-- a byte of the pattern that is no star takes one byte -/
theorem globSymbol_one (hp : p ≠ 42) {w : Bytes} :
    w ∈ globSymbol p ↔ ∃ c, w = [c] ∧ (p = 63 ∨ p = c) := by
  rw [mem_globSymbol, if_neg hp]
  by_cases h : p = 63
  · rw [if_pos h]
    constructor
    · rintro ⟨c, hc⟩
      exact ⟨c, hc, .inl h⟩
    · rintro ⟨c, hc, -⟩
      exact ⟨c, hc⟩
  · rw [if_neg h]
    constructor
    · intro hw
      exact ⟨p, hw, .inr rfl⟩
    · rintro ⟨c, rfl, hc⟩
      rw [hc.resolve_left h]

/-- a star takes any front -/
theorem mem_star : s ∈ globLanguage (42 :: pat) ↔ ∃ w t, w ++ t = s ∧ t ∈ globLanguage pat := by
  rw [globLanguage_cons]
  constructor
  · rintro ⟨w, -, t, ht, he⟩
    exact ⟨w, t, he, ht⟩
  · rintro ⟨w, t, he, ht⟩
    exact ⟨w, mem_globSymbol.mpr trivial, t, ht, he⟩

/-- any other byte takes one byte -/
theorem mem_byte (hp : p ≠ 42) :
    c :: s ∈ globLanguage (p :: pat) ↔ (p = 63 ∨ p = c) ∧ s ∈ globLanguage pat := by
  rw [globLanguage_cons]
  constructor
  · rintro ⟨w, hw, t, ht, he⟩
    obtain ⟨d, rfl, hd⟩ := (globSymbol_one hp).mp hw
    obtain ⟨rfl, rfl⟩ := List.cons.inj he
    exact ⟨hd, ht⟩
  · rintro ⟨hc, hs⟩
    exact ⟨[c], (globSymbol_one hp).mpr ⟨c, rfl, hc⟩, s, hs, rfl⟩

theorem nil_byte (hp : p ≠ 42) : [] ∉ globLanguage (p :: pat) := by
  rw [globLanguage_cons]
  rintro ⟨w, hw, t, -, he⟩
  obtain ⟨c, rfl, -⟩ := (globSymbol_one hp).mp hw
  cases he

theorem charAt_eq_zero (h : 0 ∉ s) : charAt s = 0 ↔ s = [] := by
  cases s with
  | nil => exact iff_of_true rfl rfl
  | cons c s => exact iff_of_false (fun hc => h (hc ▸ List.mem_cons_self)) (List.cons_ne_nil c s)

theorem end_iff (h : 0 ∉ s) : (charAt s == 0) = true ↔ s ∈ globLanguage [] := by
  rw [beq_iff_eq, charAt_eq_zero h]
  exact Iff.rfl

/-- nothing of the pattern is left behind its last byte -/
theorem takeWhile_end (h : charAt pat = 0) : pat.takeWhile (· ≠ 0) = [] := by
  cases pat with
  | nil => rfl
  | cons q pat => exact List.takeWhile_cons_of_neg (by simpa [charAt] using h)

/-- **The matcher** accepts the language of its pattern. -/
theorem wcMatch_iff (pat : Bytes) (h : 0 ∉ s) :
    wcMatch pat s = true ↔ s ∈ globLanguage (pat.takeWhile (· ≠ 0)) := by
  induction pat generalizing s with
  | nil => exact end_iff h
  | cons p pat ih =>
    rw [wcMatch]
    by_cases h0 : p = 0
    · rw [if_pos h0, List.takeWhile_cons_of_neg (by simpa using h0)]
      exact end_iff h
    rw [if_neg h0, List.takeWhile_cons_of_pos (by simpa using h0)]
    by_cases hstar : p = 42
    · rw [if_pos hstar, hstar, mem_star]
      split
      · next hlast =>
        rw [takeWhile_end hlast]
        exact iff_of_true rfl ⟨s, [], List.append_nil s, rfl⟩
      · rw [starLoop_iff h]
        refine exists₂_congr fun w t => and_congr_right fun he => ih fun ht => h ?_
        rw [← he]
        exact List.mem_append_right w ht
    · rw [if_neg hstar]
      cases s with
      | nil => exact iff_of_false (by simp [charAt]) (nil_byte hstar)
      | cons c s =>
        obtain ⟨hc, hs⟩ := not_or.mp (List.mem_cons.not.mp h)
        rw [if_neg (show ¬ charAt (c :: s) = 0 from Ne.symm hc), mem_byte hstar, ← ih hs]
        split
        · next hno => exact iff_of_false Bool.false_ne_true fun hp => hp.1.elim hno.1 hno.2
        · next hyes =>
          have hp : p = 63 ∨ p = c := by
            by_contra hno
            exact hyes (not_or.mp hno)
          rw [and_iff_right hp]
          exact Iff.rfl

/-- `**?` matches `a` -/
theorem wcMatch_stars : (0 : UInt8) ∉ ascii "a" ∧
    ascii "a" ∈ globLanguage ((ascii "**?").takeWhile (· ≠ 0)) :=
  ⟨by decide, (wcMatch_iff (ascii "**?") (by decide)).mp (by decide)⟩

end

end Std
end HolyPhp
