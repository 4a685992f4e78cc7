import HolyPhp.Regex.Preg

/-!
# The delimiters of a pattern

* `Bare p`       the patterns that are compiled as they stand when they come without delimiters;
* `flagged b f`  the reading of a text `b` with the flags `f`;
* `body_bare`, `body_cut`, `body_flagged`  what `rx_split_pattern` takes every text for.
-/

set_option autoImplicit false

namespace HolyPhp
namespace Regex

/-! ## the flags -/

def flagged (b f : Bytes) : Body := ⟨b, f.contains 105, f.contains 115, f.contains 109⟩

theorem foldl_flag (f : Bytes) (b : Body) : f.foldl rxFlag b =
    ⟨b.text, b.ci || f.contains 105, b.dotall || f.contains 115, b.multiline || f.contains 109⟩ := by
  induction f generalizing b with
  | nil => simp
  | cons c f ih =>
    rw [List.foldl_cons, ih, rxFlag]
    simp only [List.contains_cons]
    split_ifs with h1 h2 h3
    · subst h1
      simp
    · subst h2
      simp
    · subst h3
      simp
    · simp [beq_eq_false_iff_ne.mpr (Ne.symm h1), beq_eq_false_iff_ne.mpr (Ne.symm h2),
        beq_eq_false_iff_ne.mpr (Ne.symm h3)]

theorem foldl_plain (b f : Bytes) : f.foldl rxFlag (plain b) = flagged b f := by
  rw [foldl_flag]
  simp [plain, flagged]

/-! ## the last delimiter -/

section
variable {c : UInt8} {b f q : Bytes}

/-- the loop from the end stops at the last one -/
theorem rxEnd_last (pre : Bytes) (hf : c ∉ f) :
    rxEnd (c :: (pre ++ c :: f)) c (c :: (pre ++ c :: f)).length = pre.length + 1 := by
  have hloop : ∀ r ≤ f.length,
      rxEnd (c :: (pre ++ c :: f)) c (pre.length + 2 + r) = pre.length + 1 := by
    intro r hr
    induction r with
    | zero =>
      show rxEnd _ c (pre.length + 2) = _
      rw [rxEnd, if_pos]
      simp
    | succ r ih =>
      have hne : (c :: (pre ++ c :: f))[pre.length + r + 1 + 1]? ≠ some c := by
        intro h
        have hat : (c :: (pre ++ c :: f))[pre.length + r + 1 + 1]? = f[r]? := by
          rw [List.getElem?_cons_succ, List.getElem?_append_right (by omega),
            show pre.length + r + 1 - pre.length = r + 1 by omega, List.getElem?_cons_succ]
        exact hf (List.mem_of_getElem? (hat.symm.trans h))
      rw [show pre.length + 2 + (r + 1) = pre.length + r + 1 + 2 by omega, rxEnd, if_neg hne,
        show pre.length + r + 1 + 1 = pre.length + 2 + r by omega]
      exact ih (by omega)
  have hlen : (c :: (pre ++ c :: f)).length = pre.length + 2 + f.length := by
    simp only [List.length_cons, List.length_append]
    omega
  rw [hlen]
  exact hloop _ (Nat.le_refl _)

/-- and goes past the front if there is none -/
theorem rxEnd_none (hq : c ∉ q) (i : Nat) : rxEnd (c :: q) c i = (c :: q).length := by
  induction i with
  | zero => rw [rxEnd]; exact fun i h => by cases h
  | succ i ih =>
    cases i with
    | zero => rw [rxEnd]; exact fun i h => by cases h
    | succ i =>
      have hne : (c :: q)[i + 1]? ≠ some c := by
        intro h
        rw [List.getElem?_cons_succ] at h
        exact hq (List.mem_of_getElem? h)
      rw [rxEnd, if_neg hne]
      exact ih

/-! ## the three readings -/

/-- what is taken for a delimiter in front -/
def IsDelim (c : UInt8) : Prop := isAlnum c = false ∧ c ≠ 92 ∧ isSpace c = false ∧ c ≠ 0

instance (c : UInt8) : Decidable (IsDelim c) := inferInstanceAs (Decidable (_ ∧ _))

/-- no delimiter in front, or the second one right after it is the last one -/
def Bare : Bytes → Prop
  | c :: d :: q => ¬ IsDelim c ∨ (d = c ∧ c ∉ q)
  | _ => True

theorem rxDelim_eq (d : UInt8) (hc : IsDelim c) : rxDelim (c :: d :: q) = c := by
  obtain ⟨h1, h2, h3, -⟩ := hc
  rw [rxDelim]
  apply if_pos
  refine ⟨?_, h1, h2, h3⟩
  simp

theorem rxDelim_zero (hc : ¬ IsDelim c) : rxDelim (c :: q) = 0 := by
  unfold rxDelim
  apply ite_eq_right_iff.mpr
  intro h
  obtain ⟨-, h1, h2, h3⟩ := h
  by_contra h0
  exact hc ⟨h1, h2, h3, h0⟩

/-- **Flags**: the characters after the last delimiter -/
theorem body_flagged (hc : IsDelim c) (hb : b ≠ []) (hf : c ∉ f) :
    rxBody (c :: (b ++ c :: f)) = flagged b f := by
  obtain ⟨d, b', rfl⟩ := List.exists_cons_of_ne_nil hb
  have hd : rxDelim (c :: (d :: b' ++ c :: f)) = c := rxDelim_eq d hc
  unfold rxBody
  dsimp only
  rw [hd, rxEnd_last _ hf, if_pos ⟨hc.2.2.2, by simp⟩]
  have h1 : ((c :: (d :: b' ++ c :: f)).drop 1).take ((d :: b').length + 1 - 1) = d :: b' := by
    rw [List.drop_one, List.tail_cons, Nat.add_sub_cancel, List.take_left]
  have h2 : (c :: (d :: b' ++ c :: f)).drop ((d :: b').length + 1 + 1) = f := by
    rw [List.drop_succ_cons, ← List.drop_drop, List.drop_left]
    rfl
  rw [h1, h2, foldl_plain]

/-- nothing between the delimiters: the text is taken as it stands -/
theorem body_empty (hc : IsDelim c) (hf : c ∉ f) : rxBody (c :: c :: f) = plain (c :: c :: f) := by
  unfold rxBody
  dsimp only
  rw [rxDelim_eq c hc, show c :: c :: f = c :: ([] ++ c :: f) from rfl, rxEnd_last _ hf]
  exact if_neg fun h => absurd h.2 (by decide)

/-- no second delimiter: the first character is lost -/
theorem body_cut (hc : IsDelim c) (hq : c ∉ q) (hne : q ≠ []) : rxBody (c :: q) = plain q := by
  obtain ⟨d, q', rfl⟩ := List.exists_cons_of_ne_nil hne
  unfold rxBody
  dsimp only
  rw [rxDelim_eq d hc, rxEnd_none hq, if_pos ⟨hc.2.2.2, by simp⟩]
  have h1 : ((c :: d :: q').drop 1).take ((c :: d :: q').length - 1) = d :: q' := by
    rw [List.drop_one, List.tail_cons]
    exact List.take_length
  have h2 : (c :: d :: q').drop ((c :: d :: q').length + 1) = [] :=
    List.drop_eq_nil_of_le (Nat.le_succ _)
  rw [h1, h2]
  rfl

theorem body_bare {p : Bytes} (h : Bare p) : rxBody p = plain p := by
  rcases p with - | ⟨c, - | ⟨d, q⟩⟩
  · rfl
  · unfold rxBody
    dsimp only
    rw [rxDelim, if_neg (by simp)]
  · rcases h with hc | ⟨rfl, hq⟩
    · unfold rxBody
      dsimp only
      rw [rxDelim_zero hc]
      rfl
    · by_cases hd : IsDelim d
      · exact body_empty hd hq
      · unfold rxBody
        dsimp only
        rw [rxDelim_zero hd]
        rfl

/-- the last of its kind in a text -/
theorem split_last (h : c ∈ q) : ∃ b f, q = b ++ c :: f ∧ c ∉ f := by
  obtain ⟨as, bs, he, hn⟩ := List.eq_append_cons_of_mem (List.mem_reverse.mpr h)
  refine ⟨bs.reverse, as.reverse, ?_, fun hm => hn (List.mem_reverse.mp hm)⟩
  rw [← q.reverse_reverse, he, List.reverse_append, List.reverse_cons, List.append_assoc]
  rfl

/-- **The patterns that are compiled as they stand.** -/
theorem body_bare_iff (p : Bytes) : rxBody p = plain p ↔ Bare p := by
  refine ⟨fun h => ?_, body_bare⟩
  rcases p with - | ⟨c, - | ⟨d, q⟩⟩
  · trivial
  · trivial
  · by_contra hb
    have hc : IsDelim c := by
      by_contra hc
      exact hb (.inl hc)
    have hlt : (rxBody (c :: d :: q)).text.length < (c :: d :: q).length := by
      by_cases hm : c ∈ d :: q
      · obtain ⟨b, f, he, hf⟩ := split_last hm
        have hne : b ≠ [] := by
          intro hn
          subst hn
          obtain ⟨rfl, rfl⟩ := List.cons_eq_cons.mp he
          exact hb (.inr ⟨rfl, hf⟩)
        rw [he, body_flagged hc hne hf]
        simp only [flagged, List.length_cons, List.length_append]
        omega
      · rw [body_cut hc hm (List.cons_ne_nil d q)]
        exact Nat.lt_succ_self _
    rw [h] at hlt
    exact Nat.lt_irrefl _ hlt

theorem slash_delim : IsDelim 47 := by decide

theorem body_slash_iff {p : Bytes} (hp : 47 ∉ p) :
    rxBody (47 :: (p ++ [47])) = plain p ↔ p ≠ [] := by
  constructor
  · intro h hn
    subst hn
    rw [show (47 : UInt8) :: ([] ++ [47]) = 47 :: 47 :: [] from rfl,
      body_empty slash_delim List.not_mem_nil] at h
    cases congrArg Body.text h
  · intro hne
    rw [body_flagged slash_delim hne List.not_mem_nil]
    rfl

theorem body_flagged_iff (hc : IsDelim c) (hf : c ∉ f) :
    rxBody (c :: (b ++ c :: f)) = flagged b f ↔ b ≠ [] := by
  refine ⟨fun h hn => ?_, fun hb => body_flagged hc hb hf⟩
  subst hn
  rw [List.nil_append, body_empty hc hf] at h
  cases congrArg Body.text h

end

/-! ## the claim -/

/-- one call gives the same answer for the two texts, whatever the subject -/
theorem match_congr {p p' : Bytes} (h : rxBody p = rxBody p') (n : Nat) (s : Bytes) :
    hpbiPregMatch n p s = hpbiPregMatch n p' s := by
  rw [hpbiPregMatch, hpbiPregMatch, rxFirstMatch, rxFirstMatch, rxSplitPattern, rxSplitPattern, h]

/-- **Delimiters**: which bare texts are compiled as themselves, as between two `/`, and which
delimited texts have their flags read. -/
theorem pattern_delimiters (p b f : Bytes) (c : UInt8) :
    (47 ∉ p →
      ((rxBody p = plain p ∧ rxBody (47 :: (p ++ [47])) = plain p) ↔ Bare p ∧ p ≠ [])) ∧
    (47 ∉ p → Bare p → p ≠ [] → ∀ n s,
      hpbiPregMatch n p s = hpbiPregMatch n (47 :: (p ++ [47])) s) ∧
    (IsDelim c → c ∉ f → (rxBody (c :: (b ++ c :: f)) = flagged b f ↔ b ≠ [])) := by
  refine ⟨fun hp => and_congr (body_bare_iff p) (body_slash_iff hp), fun hp hb hne n s => ?_,
    fun hc hf => body_flagged_iff hc hf⟩
  apply match_congr
  rw [(body_slash_iff hp).mpr hne]
  exact body_bare hb

/-- `^a` matches `ba`, `/^a/` does not -/
theorem bare_anchor_lost : ¬ ∀ p : Bytes, 47 ∉ p → (rxCompile (plain p)).isSome = true → ∀ n s,
    hpbiPregMatch n p s = hpbiPregMatch n (47 :: (p ++ [47])) s := by
  intro h
  have hb := h [94, 97] (by decide) rfl 9 [98, 97]
  have h1 : hpbiPregMatch 9 [94, 97] [98, 97] = .ok true := by decide +kernel
  have h2 : hpbiPregMatch 9 (47 :: ([94, 97] ++ [47])) [98, 97] = .ok false := by
    decide +kernel
  rw [h1, h2] at hb
  cases hb

end Regex
end HolyPhp
