import HolyPhp.Lib.Json
import Mathlib.Data.Bool.AllAny
import Mathlib.Data.List.Chain

/-!
# Tokens of JSON texts

`lex` cuts a text into strings and single bytes, without whitespace.  The tokens of a text of the
grammar are `Fine`: the strings are strings of the grammar, no object follows another one without a
comma, and no comma ends an array (`lex_text`).  What fails this is no JSON.
-/

namespace Json

/-- a string, with what stands between its quotes, or any other byte but whitespace -/
inductive Tok where
  | str (s : Bytes)
  | byte (c : UInt8)

def isWs (c : UInt8) : Bool := c = 32 || (c = 9 || (c = 10 || c = 13))

/-- the tokens of a text; in a string, behind the first bytes of it -/
def lex : Option Bytes → Bytes → List Tok
  | _, [] => []
  | none, c :: cs =>
    if c = 34 then lex (some []) cs
    else if isWs c then lex none cs
    else .byte c :: lex none cs
  | some s, 92 :: c :: cs => lex (some (s ++ [92, c])) cs
  | some s, c :: cs => if c = 34 then .str s :: lex none cs else lex (some (s ++ [c])) cs

/-! ## pieces of texts -/

/-- the text has these tokens, whatever follows it -/
def Lexes (s : Bytes) (l : List Tok) : Prop := ∀ rest, lex none (s ++ rest) = l ++ lex none rest

section
variable {s t rest : Bytes} {l m : List Tok} {c : UInt8}

theorem Lexes.nil : Lexes [] [] := fun _ => rfl

theorem Lexes.append (hs : Lexes s l) (ht : Lexes t m) : Lexes (s ++ t) (l ++ m) := by
  intro rest
  rw [List.append_assoc, hs, ht, List.append_assoc]

theorem lex_byte (h34 : c ≠ 34) (hw : isWs c = false) :
    lex none (c :: rest) = .byte c :: lex none rest := by
  rw [lex, if_neg h34, hw]
  rfl

theorem Lexes.byte (h34 : c ≠ 34) (hw : isWs c = false) : Lexes [c] [.byte c] :=
  fun _ => lex_byte h34 hw

theorem Lexes.bytes (h : ∀ c ∈ s, c ≠ 34 ∧ isWs c = false) : Lexes s (s.map Tok.byte) := by
  induction s with
  | nil => exact Lexes.nil
  | cons c s ih =>
    obtain ⟨h34, hw⟩ := h c List.mem_cons_self
    exact (Lexes.byte h34 hw).append (ih fun d hd => h d (List.mem_cons_of_mem c hd))

theorem Lexes.ws (w : List Ws) : Lexes (ws w) [] := by
  induction w with
  | nil => exact Lexes.nil
  | cons c w ih =>
    intro rest
    have hc : lex none (c.byte :: (Json.ws w ++ rest)) = lex none (Json.ws w ++ rest) := by
      cases c <;> rfl
    exact hc.trans (ih rest)

theorem lex_in (h34 : c ≠ 34) (h92 : c ≠ 92) :
    lex (some s) (c :: rest) = lex (some (s ++ [c])) rest := by
  cases rest with
  | nil => simp [lex, h34]
  | cons d rest =>
    rw [lex]
    · rw [if_neg h34]
    · exact fun _ _ h => absurd h h92

/-- what is neither quote nor backslash is put to the string -/
theorem lex_plain (h : ∀ c ∈ t, c ≠ 34 ∧ c ≠ 92) :
    lex (some s) (t ++ rest) = lex (some (s ++ t)) rest := by
  induction t generalizing s with
  | nil => rw [List.append_nil, List.nil_append]
  | cons c t ih =>
    obtain ⟨h34, h92⟩ := h c List.mem_cons_self
    rw [List.cons_append, lex_in h34 h92, ih fun d hd => h d (List.mem_cons_of_mem c hd),
      List.append_assoc, List.singleton_append]

theorem Hex.byte_plain (d : Hex) : d.byte ≠ 34 ∧ d.byte ≠ 92 := by
  obtain ⟨v, u⟩ := d
  revert v u
  decide

theorem lex_chars {t : List Ch} (ht : StrOk t) :
    lex (some s) (chars t ++ rest) = lex (some (s ++ chars t)) rest := by
  induction ht generalizing s with
  | nil => rw [chars, List.flatMap_nil, List.append_nil, List.nil_append]
  | @char c t h32 hq hb _ ih =>
    have hraw : chars ((String.utf8EncodeChar c).map Ch.raw ++ t) =
        String.utf8EncodeChar c ++ chars t := by
      rw [chars, List.flatMap_append, List.flatMap_map]
      show List.flatMap (fun b => [b]) _ ++ _ = _
      rw [List.flatMap_singleton']
      rfl
    rw [hraw, List.append_assoc, lex_plain fun b hb' => (utf8_plain h32 hq hb hb').2, ih,
      List.append_assoc]
  | @esc e t _ ih =>
    show lex (some s) (92 :: e.letter :: (chars t ++ rest)) = _
    rw [lex, ih, List.append_assoc]
    rfl
  | @hex a b c d t _ ih =>
    have h4 : ∀ x ∈ [a.byte, b.byte, c.byte, d.byte], x ≠ 34 ∧ x ≠ 92 := by
      intro x hx
      simp only [List.mem_cons, List.not_mem_nil, or_false] at hx
      rcases hx with rfl | rfl | rfl | rfl <;> exact Hex.byte_plain _
    show lex (some s) (92 :: 117 :: ([a.byte, b.byte, c.byte, d.byte] ++ (chars t ++ rest))) = _
    rw [lex, lex_plain h4, ih, List.append_assoc, List.append_assoc]
    rfl

theorem Lexes.string {t : List Ch} (ht : StrOk t) : Lexes (string t) [.str (chars t)] := by
  intro rest
  have hq : lex none (Json.string t ++ rest) = lex (some []) (chars t ++ 34 :: rest) := by
    rw [Json.string, List.cons_append, List.append_assoc]
    rfl
  rw [hq, lex_chars ht]
  rfl

end

/-! ## the tokens of the grammar -/

/-- what may stand behind a token -/
def Next (a b : Tok) : Prop :=
  (b = .byte 123 → a ≠ .byte 125) ∧ (b = .byte 93 → a ≠ .byte 44)

/-- the tokens of a value, or of what stands between the brackets of one -/
structure Fine (l : List Tok) : Prop where
  ne : l ≠ []
  strings : ∀ s, .str s ∈ l → ∃ t, StrOk t ∧ chars t = s
  linked : l.IsChain Next
  first : ∀ a ∈ l.head?, a ≠ .byte 93
  last : ∀ a ∈ l.getLast?, a ≠ .byte 44

section
variable {l m : List Tok} {c d : UInt8} {s : Bytes}

theorem Fine.single {a : Tok} (hs : ∀ s, a = .str s → ∃ t, StrOk t ∧ chars t = s)
    (h93 : a ≠ .byte 93) (h44 : a ≠ .byte 44) : Fine [a] where
  ne := List.cons_ne_nil a []
  strings := by
    intro s h
    exact hs s (List.mem_singleton.1 h).symm
  linked := .singleton a
  first := by
    intro b hb
    cases hb
    exact h93
  last := by
    intro b hb
    cases hb
    exact h44

theorem Fine.string {t : List Ch} (ht : StrOk t) : Fine [.str (chars t)] := by
  refine Fine.single (fun s hs => ?_) (fun h => nomatch h) (fun h => nomatch h)
  cases hs
  exact ⟨t, ht, rfl⟩

/-- bytes that are no brackets and commas -/
theorem Fine.bytes (hne : s ≠ []) (h : ∀ c ∈ s, c ≠ 123 ∧ c ≠ 93 ∧ c ≠ 44) :
    Fine (s.map Tok.byte) where
  ne := by rwa [Ne, List.map_eq_nil_iff]
  strings := by
    intro t ht
    obtain ⟨c, _, hc⟩ := List.mem_map.1 ht
    cases hc
  linked := by
    clear hne
    induction s with
    | nil => exact .nil
    | cons c s ih =>
      refine List.isChain_cons.2 ⟨fun b hb => ?_, ih fun d hd => h d (List.mem_cons_of_mem c hd)⟩
      obtain ⟨d, hd, rfl⟩ := List.mem_map.1 (List.mem_of_mem_head? hb)
      obtain ⟨h123, h93, _⟩ := h d (List.mem_cons_of_mem c hd)
      exact ⟨fun he => absurd (Tok.byte.inj he) h123, fun he => absurd (Tok.byte.inj he) h93⟩
  first := by
    intro a ha
    obtain ⟨d, hd, rfl⟩ := List.mem_map.1 (List.mem_of_mem_head? ha)
    exact fun he => absurd (Tok.byte.inj he) (h d hd).2.1
  last := by
    intro a ha
    obtain ⟨d, hd, rfl⟩ := List.mem_map.1 (List.mem_of_getLast? ha)
    exact fun he => absurd (Tok.byte.inj he) (h d hd).2.2

/-- brackets with nothing between them -/
theorem Fine.empty (hc : c = 91 ∨ c = 123) (hd : d = 93 ∨ d = 125) :
    Fine [.byte c, .byte d] where
  ne := List.cons_ne_nil _ _
  strings := by
    intro s hs
    simp at hs
  linked := by
    refine List.isChain_pair.2 ⟨fun he => ?_, fun _ he => ?_⟩
    · rcases hd with rfl | rfl <;> cases he
    · rcases hc with rfl | rfl <;> cases he
  first := by
    intro a ha
    cases ha
    rcases hc with rfl | rfl <;> exact fun h => nomatch h
  last := by
    intro a ha
    cases ha
    rcases hd with rfl | rfl <;> exact fun h => nomatch h

/-- between brackets -/
theorem Fine.bracket (hl : Fine l) (hc : c = 91 ∨ c = 123) (hd : d = 93 ∨ d = 125) :
    Fine (.byte c :: (l ++ [.byte d])) where
  ne := List.cons_ne_nil _ _
  strings := by
    intro s hs
    simp only [List.mem_cons, List.mem_append, List.not_mem_nil, or_false, reduceCtorEq,
      false_or] at hs
    exact hl.strings s hs
  linked := by
    refine List.isChain_cons.2 ⟨fun b _ => ⟨fun _ he => ?_, fun _ he => ?_⟩,
      List.isChain_append.2 ⟨hl.linked, .singleton _, fun a ha b hb => ?_⟩⟩
    · rcases hc with rfl | rfl <;> cases he
    · rcases hc with rfl | rfl <;> cases he
    · cases hb
      refine ⟨fun he => ?_, fun _ => hl.last a ha⟩
      rcases hd with rfl | rfl <;> cases he
  first := by
    intro a ha
    cases ha
    rcases hc with rfl | rfl <;> intro h <;> cases h
  last := by
    intro a ha
    rw [List.getLast?_cons, List.getLast?_append] at ha
    cases ha
    rcases hd with rfl | rfl <;> intro h <;> cases h

/-- a comma or a colon between two -/
theorem Fine.join (hl : Fine l) (hm : Fine m) (hc : c = 44 ∨ c = 58) :
    Fine (l ++ .byte c :: m) where
  ne := List.append_ne_nil_of_right_ne_nil l (List.cons_ne_nil _ m)
  strings := by
    intro s hs
    simp only [List.mem_append, List.mem_cons, reduceCtorEq, false_or] at hs
    exact hs.elim (hl.strings s) (hm.strings s)
  linked := by
    refine List.isChain_append.2 ⟨hl.linked, List.isChain_cons.2 ⟨fun b hb => ⟨fun _ he => ?_,
      fun he => absurd he (hm.first b hb)⟩, hm.linked⟩, fun a _ b hb => ?_⟩
    · rcases hc with rfl | rfl <;> cases he
    · cases hb
      refine ⟨fun he => ?_, fun he => ?_⟩
      · rcases hc with rfl | rfl <;> cases he
      · rcases hc with rfl | rfl <;> cases he
  first := by
    intro a ha
    obtain ⟨b, l', rfl⟩ := List.exists_cons_of_ne_nil hl.ne
    exact hl.first a ha
  last := by
    intro a ha
    obtain ⟨b, m', rfl⟩ := List.exists_cons_of_ne_nil hm.ne
    rw [List.getLast?_append, List.getLast?_cons_cons] at ha
    cases hlast : (b :: m').getLast? with
    | none => exact absurd (List.getLast?_eq_none_iff.1 hlast) hm.ne
    | some z =>
      rw [hlast] at ha
      cases ha
      exact hm.last _ hlast

end

/-! ## texts of the grammar -/

/-- the bytes of numbers -/
def isNum (c : UInt8) : Bool := (48 ≤ c && c ≤ 57) || [43, 45, 46, 69, 101].contains c

section
variable {c : UInt8} {n : Nat}

theorem isNum_ne (h : isNum c = true) :
    (c ≠ 34 ∧ isWs c = false) ∧ c ≠ 123 ∧ c ≠ 93 ∧ c ≠ 44 := by
  refine ⟨⟨?_, ?_⟩, ?_, ?_, ?_⟩
  · rintro rfl
    cases h
  · cases hw : isWs c with
    | false => rfl
    | true =>
      simp only [isWs, Bool.or_eq_true, decide_eq_true_eq] at hw
      rcases hw with rfl | rfl | rfl | rfl <;> cases h
  · rintro rfl
    cases h
  · rintro rfl
    cases h
  · rintro rfl
    cases h

theorem isNum_digits (l : List (Fin 10)) : ∀ c ∈ digits l, isNum c = true := by
  have hd : ∀ d : Fin 10, isNum (UInt8.ofNat (48 + d.val)) = true := by decide
  intro c hc
  obtain ⟨d, _, rfl⟩ := List.mem_map.1 hc
  exact hd d

theorem isNum_decimal (n : Nat) : ∀ c ∈ decimal n, isNum c = true := by
  have hd : ∀ d < 10, isNum (Nat.toUInt8 (48 + d)) = true := by decide
  intro c hc
  obtain ⟨x, hx, rfl⟩ := List.mem_map.1 hc
  have hx' := Nat.isDigit_of_mem_toDigits (by decide) (by decide) hx
  simp only [Char.isDigit, Bool.and_eq_true, decide_eq_true_eq, UInt32.le_iff_toNat_le] at hx'
  obtain ⟨h48, h57⟩ := hx'
  have h1 : 48 ≤ x.toNat := h48
  have h2 : x.toNat ≤ 57 := h57
  have := hd (x.toNat - 48) (by omega)
  rwa [Nat.add_sub_cancel' h1] at this

theorem isNum_exp (e : Exp) : ∀ c ∈ e.text, isNum c = true := by
  intro c hc
  rcases List.mem_cons.1 hc with rfl | hc
  · cases e.upper <;> rfl
  · rcases List.mem_append.1 hc with hc | hc
    · split at hc
      · cases hc
      · rw [List.mem_singleton.1 hc]
        rfl
      · rw [List.mem_singleton.1 hc]
        rfl
    · exact isNum_digits _ c hc

theorem isNum_text (x : Number) : ∀ c ∈ x.text, isNum c = true := by
  intro c hc
  rw [Number.text, List.mem_append, List.mem_append, List.mem_append] at hc
  rcases hc with ((hc | hc) | hc) | hc
  · split at hc
    · rw [List.mem_singleton.1 hc]
      rfl
    · cases hc
  · exact isNum_decimal _ c hc
  · split at hc
    · cases hc
    · rcases List.mem_cons.1 hc with rfl | hc
      · rfl
      · exact isNum_digits _ c hc
  · split at hc
    · cases hc
    · exact isNum_exp _ c hc

theorem number_ne (x : Number) : x.text ≠ [] := by
  have hpos : 0 < (decimal x.int).length := by
    rw [decimal, List.length_map]
    exact Nat.length_toDigits_pos
  intro h
  rw [Number.text, List.append_eq_nil_iff, List.append_eq_nil_iff, List.append_eq_nil_iff] at h
  rw [h.1.1.2] at hpos
  exact absurd hpos (Nat.lt_irrefl 0)

end

/-- a text with fine tokens -/
def FineText (s : Bytes) : Prop := ∃ l, Lexes s l ∧ Fine l

section
variable {s t u : Bytes} {c d : UInt8}

theorem FineText.ws (w w' : List Ws) (h : FineText s) : FineText (ws w ++ s ++ ws w') := by
  obtain ⟨l, hs, hl⟩ := h
  have hall := ((Lexes.ws w).append hs).append (Lexes.ws w')
  rw [List.nil_append, List.append_nil] at hall
  exact ⟨l, hall, hl⟩

theorem FineText.join (hs : FineText s) (ht : FineText t) (hc : c = 44 ∨ c = 58) :
    FineText (s ++ c :: t) := by
  obtain ⟨l, hs, hl⟩ := hs
  obtain ⟨m, ht, hm⟩ := ht
  have hb : Lexes [c] [.byte c] := by
    rcases hc with rfl | rfl <;> exact Lexes.byte (by decide) rfl
  exact ⟨_, hs.append (hb.append ht), hl.join hm hc⟩

theorem Lexes.open_ (hc : c = 91 ∨ c = 123) : Lexes [c] [.byte c] := by
  rcases hc with rfl | rfl <;> exact Lexes.byte (by decide) rfl

theorem Lexes.close (hd : d = 93 ∨ d = 125) : Lexes [d] [.byte d] := by
  rcases hd with rfl | rfl <;> exact Lexes.byte (by decide) rfl

theorem FineText.empty (w : List Ws) (hc : c = 91 ∨ c = 123) (hd : d = 93 ∨ d = 125) :
    FineText (c :: (Json.ws w ++ [d])) :=
  ⟨_, (Lexes.open_ hc).append ((Lexes.ws w).append (Lexes.close hd)), Fine.empty hc hd⟩

theorem FineText.bracket (hs : FineText s) (hc : c = 91 ∨ c = 123) (hd : d = 93 ∨ d = 125) :
    FineText (c :: (s ++ [d])) := by
  obtain ⟨l, hs, hl⟩ := hs
  exact ⟨_, (Lexes.open_ hc).append (hs.append (Lexes.close hd)), hl.bracket hc hd⟩

theorem FineText.string {k : List Ch} (hk : StrOk k) : FineText (string k) :=
  ⟨_, Lexes.string hk, Fine.string hk⟩

theorem FineText.bytes (hne : s ≠ [])
    (h : ∀ c ∈ s, (c ≠ 34 ∧ isWs c = false) ∧ c ≠ 123 ∧ c ≠ 93 ∧ c ≠ 44) : FineText s :=
  ⟨_, Lexes.bytes fun c hc => (h c hc).1, Fine.bytes hne fun c hc => (h c hc).2⟩

end

mutual

theorem lex_text : ∀ t : Cst, t.Rfc → FineText t.text
  | .null, _ => FineText.bytes (List.cons_ne_nil _ _) (List.all_iff_forall_prop.1 rfl)
  | .true, _ => FineText.bytes (List.cons_ne_nil _ _) (List.all_iff_forall_prop.1 rfl)
  | .false, _ => FineText.bytes (List.cons_ne_nil _ _) (List.all_iff_forall_prop.1 rfl)
  | .num n, _ => FineText.bytes (number_ne n) fun c hc => isNum_ne (isNum_text n c hc)
  | .str _, h => FineText.string h
  | .arrEmpty w, _ => FineText.empty w (.inl rfl) (.inl rfl)
  | .arr xs, h => (lex_items xs h).bracket (.inl rfl) (.inl rfl)
  | .objEmpty w, _ => FineText.empty w (.inr rfl) (.inr rfl)
  | .obj ms, h => (lex_members ms h.2).bracket (.inr rfl) (.inr rfl)

theorem lex_items : ∀ xs : Items, xs.All StrOk (fun _ => True) (fun _ => True) → FineText xs.text
  | .last w v w', h => (lex_text v h).ws w w'
  | .cons w v w' xs, h => ((lex_text v h.1).ws w w').join (lex_items xs h.2) (.inl rfl)

theorem lex_members : ∀ ms : Members, ms.All StrOk (fun _ => True) (fun _ => True) →
    FineText ms.text
  | .last w k w₁ w₂ v w', h =>
    ((FineText.string h.1).ws w w₁).join ((lex_text v h.2).ws w₂ w') (.inr rfl)
  | .cons w k w₁ w₂ v w' ms, h => by
    have hjoin := (((FineText.string h.1).ws w w₁).join ((lex_text v h.2.1).ws w₂ w')
      (.inr rfl)).join (lex_members ms h.2.2) (.inl rfl)
    exact hjoin

end

end Json
