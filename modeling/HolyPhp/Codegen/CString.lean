import HolyPhp.Lexer.Template
import HolyPhp.Lib.CLiteral
import HolyPhp.Runtime.Codes

/-!
# String literals, from the source to C

* `emitCString`, `emitStrLit`  the literal that is written for a string;
* `sourceText`                 a string as it is written between double quotes;
* `lexToken_sourceText`        the lexer reads it back, up to its first NUL;
* `emitted`                    the emitted text behind its opening quote, with the trigraphs replaced;
* `Front`                      what a byte of the string becomes in it;
* `short`                      the compiler reads no more bytes than were written;
* `literal_survives`           **which strings come through unchanged.**
-/

set_option autoImplicit false

namespace HolyPhp
namespace Codegen
open Lexer CLiteral
open HolyPhp.Std (hexByte hexNibble)

/-! ## the functions -/

/-- a turn of the loop of `emit_c_string` -/
def emitByte (c : UInt8) : Bytes :=
  if c = 34 then [92, 34]
  else if c = 92 then [92, 92]
  else if c = 10 then [92, 110]
  else if c = 9 then [92, 116]
  else if c = 13 then [92, 114]
  else if c < 32 ∨ c = 127 then 92 :: 120 :: hexByte false c
  else [c]

def emitCString (s : Bytes) : Bytes := 34 :: (s.flatMap emitByte ++ [34])

def emitStrLit (s : Bytes) : Bytes := ascii "hp_str_lit(" ++ emitCString (cstr s) ++ ascii ")"

/-- a byte of a string in a literal of the source -/
def sourceByte (c : UInt8) : Bytes :=
  if c = 92 then [92, 92]
  else if c = 34 then [92, 34]
  else if c = 36 then [92, 36]
  else if c = 10 then [92, 110]
  else if c = 9 then [92, 116]
  else if c = 13 then [92, 114]
  else if c = 0 then [92, 48]
  else [c]

def sourceText (s : Bytes) : Bytes := s.flatMap sourceByte

variable {k : Compiler} {a : Place} {c d e x : UInt8} {r s t v w : Bytes}

/-! ## the lexer -/

/-- a byte is written as an escape, or as itself -/
theorem sourceByte_cases (c : UInt8) :
    (∃ e, sourceByte c = [92, e] ∧ escaped e = some c) ∨
      (sourceByte c = [c] ∧ c ≠ 34 ∧ c ≠ 92 ∧ c ≠ 36) := by
  by_cases h : c = 92 ∨ c = 34 ∨ c = 36 ∨ c = 10 ∨ c = 9 ∨ c = 13 ∨ c = 0
  · rcases h with rfl | rfl | rfl | rfl | rfl | rfl | rfl <;>
      exact .inl ⟨_, rfl, by decide⟩
  · simp only [not_or] at h
    exact .inr ⟨by simp [sourceByte, h], h.2.1, h.1, h.2.2.1⟩

theorem peek_sourceText (s r : Bytes) : peek (sourceText s ++ 34 :: r) 0 ≠ 36 := by
  cases s with
  | nil => exact (by decide : (34 : UInt8) ≠ 36)
  | cons c s =>
    rw [sourceText, List.flatMap_cons]
    rcases sourceByte_cases c with ⟨e, he, -⟩ | ⟨he, -, -, h36⟩
    · rw [he]
      exact (by decide : (92 : UInt8) ≠ 36)
    · rw [he]
      exact h36

theorem scanStr_sourceText (s r : Bytes) (a : Place) :
    ∃ b, scanStr .body false a (sourceText s ++ 34 :: r) = some (false, b, 34 :: r) := by
  induction s generalizing a with
  | nil => exact ⟨a, scanStr_quote⟩
  | cons c s ih =>
    have hcons : sourceText (c :: s) ++ 34 :: r = sourceByte c ++ (sourceText s ++ 34 :: r) := by
      rw [sourceText, List.flatMap_cons, List.append_assoc]
      rfl
    rw [hcons]
    rcases sourceByte_cases c with ⟨e, he, -⟩ | ⟨he, h34, h92, h36⟩
    · obtain ⟨b, hb⟩ := ih ((a.adv 92).adv e)
      rw [he]
      exact ⟨b, scanStr_escape.trans hb⟩
    · obtain ⟨b, hb⟩ := ih (a.adv c)
      rw [he]
      refine ⟨b, (scanStr_char h34 h92 fun h => peek_sourceText s r h.2).trans ?_⟩
      rw [beq_eq_false_iff_ne.2 h36]
      exact hb

theorem unescape_sourceText (s : Bytes) : unescape (sourceText s) = s := by
  rw [unescape_eq]
  induction s with
  | nil => rfl
  | cons c s ih =>
    rw [sourceText, List.flatMap_cons]
    change unescapeWith escaped (sourceByte c ++ sourceText s) = _
    rcases sourceByte_cases c with ⟨e, he, hc⟩ | ⟨he, -, h92, -⟩
    · rw [he]
      show unescapeWith escaped (92 :: e :: sourceText s) = _
      rw [unescapeWith_escape, hc, ih]
      rfl
    · rw [he]
      exact (unescapeWith_char h92).trans (congrArg (c :: ·) ih)

/-- **The lexer reads the string back**, up to its first NUL. -/
theorem lexToken_sourceText (strtod : Bytes → Double) (a : Place) (s r : Bytes) :
    ∃ n, lexToken strtod a 34 (sourceText s ++ 34 :: r) = .ok n ∧ n.tok.kind = .str ∧
      n.rest = r ∧ n.tok.text = cstr s := by
  obtain ⟨b, hb⟩ := scanStr_sourceText s r (a.adv 34)
  have ht : cstr (unescape (taken (sourceText s ++ 34 :: r) (34 :: r))) = cstr s := by
    rw [taken_append, unescape_sourceText]
  rw [lexToken, if_neg (by decide), if_neg (by simp [isDigit]), if_pos rfl, hb]
  exact ⟨_, rfl, rfl, rfl, ht⟩

/-! ## the emitted text -/

/-- `\xHH` is written -/
def hexEscaped (c : UInt8) : Bool := (c < 32 && c != 9 && c != 10 && c != 13) || c == 127

/-- what the compiler reads behind the opening quote -/
def emitted (s : Bytes) : Bytes := trigraphs (s.flatMap emitByte ++ [34])

/-- no trigraph, and no hexadecimal digit behind a byte that is written as `\xHH` -/
def Fine (s : Bytes) : Prop :=
  (∀ c, trigraph c ≠ none → ¬ [63, 63, c] <:+: s) ∧
    ∀ c d, hexEscaped c = true → isHex d = true → ¬ [c, d] <:+: s

/-- what a byte of the string becomes, with what is behind it -/
inductive Front (x : UInt8) (v : Bytes) : Prop
  | trigraph (d e : UInt8) (t : Bytes) (hx : x = 63) (hv : v = 63 :: e :: t)
      (hd : trigraph e = some d) (h : emitted (x :: v) = d :: emitted t)
  | raw (hx : x ≠ 34 ∧ x ≠ 10 ∧ x ≠ 92 ∧ hexEscaped x = false)
      (hv : ∀ e t, x = 63 → v = 63 :: e :: t → trigraph e = none)
      (h : emitted (x :: v) = x :: emitted v)
  | escape (e : UInt8) (hx : simple e = some x ∧ x ≠ 63 ∧ hexEscaped x = false)
      (he : e = 34 ∨ e = 92 ∨ (e ≠ 34 ∧ e ≠ 92 ∧ e ≠ 10))
      (h : emitted (x :: v) = 92 :: e :: emitted v)
  | hex (hx : hexEscaped x = true) (h63 : x ≠ 63)
      (h : emitted (x :: v) = 92 :: 120 :: (hexByte false x ++ emitted v))

theorem emitted_nil : emitted [] = [34] := rfl

theorem hexNibble_hex : ∀ n < 16, isHex (hexNibble false n) = true ∧
    digitValue (hexNibble false n) = n := by decide

theorem hexByte_hex (c : UInt8) : ∀ d ∈ hexByte false c, isHex d = true := by
  have hlt := c.toNat_lt
  intro d hd
  simp only [hexByte, List.mem_cons, List.not_mem_nil, or_false] at hd
  rcases hd with rfl | rfl
  · exact (hexNibble_hex _ (by omega)).1
  · exact (hexNibble_hex _ (by omega)).1

theorem number_hexByte (c : UInt8) : number 16 (hexByte false c) = c.toNat := by
  have hlt := c.toNat_lt
  simp only [number, hexByte, List.foldl_cons, List.foldl_nil,
    (hexNibble_hex (c.toNat / 16) (by omega)).2, (hexNibble_hex (c.toNat % 16) (by omega)).2]
  omega

theorem isHex_ne (h : isHex c = true) : c ≠ 63 ∧ c ≠ 34 ∧ c ≠ 92 ∧ c ≠ 10 := by
  refine ⟨?_, ?_, ?_, ?_⟩ <;>
    · rintro rfl
      exact absurd h (by decide)

/-- the bytes, by how they are written -/
theorem emitByte_cases (c : UInt8) :
    (∃ e, emitByte c = [92, e] ∧ simple e = some c ∧ c ≠ 63 ∧ hexEscaped c = false ∧ e ≠ 63 ∧
        (e = 34 ∨ e = 92 ∨ (e ≠ 34 ∧ e ≠ 92 ∧ e ≠ 10))) ∨
      (emitByte c = 92 :: 120 :: hexByte false c ∧ hexEscaped c = true ∧ c ≠ 63) ∨
      (emitByte c = [c] ∧ c ≠ 34 ∧ c ≠ 10 ∧ c ≠ 92 ∧ hexEscaped c = false) := by
  by_cases h : c = 34 ∨ c = 92 ∨ c = 10 ∨ c = 9 ∨ c = 13
  · rcases h with rfl | rfl | rfl | rfl | rfl <;>
      exact .inl ⟨_, rfl, by decide⟩
  · simp only [not_or] at h
    obtain ⟨h34, h92, h10, h9, h13⟩ := h
    by_cases hc : c < 32 ∨ c = 127
    · refine .inr (.inl ⟨by simp [emitByte, h34, h92, h10, h9, h13, hc], ?_, ?_⟩)
      · simp [hexEscaped, h9, h10, h13, hc]
      · rintro rfl
        exact absurd hc (by decide)
    · refine .inr (.inr ⟨by simp [emitByte, h34, h92, h10, h9, h13, hc], h34, h10, h92, ?_⟩)
      rw [not_or] at hc
      simp [hexEscaped, hc]

theorem flatMap_cons_append (x : UInt8) (v : Bytes) : (x :: v).flatMap emitByte ++ [34]
    = emitByte x ++ (v.flatMap emitByte ++ [34]) := by
  rw [List.flatMap_cons, List.append_assoc]

/-- a character that ends a trigraph is written as itself -/
theorem emitByte_trigraph (h : trigraph c = some d) : emitByte c = [c] := by
  unfold trigraph at h
  split_ifs at h with h1 h2 h3 h4 h5 h6 h7 h8 h9 <;> subst_vars <;> rfl

/-- only a byte that is written as itself has something else than a backslash in front -/
theorem emit_head (h : v.flatMap emitByte ++ [34] = c :: t) (h34 : c ≠ 34) (h92 : c ≠ 92) :
    ∃ w, v = c :: w ∧ w.flatMap emitByte ++ [34] = t := by
  cases v with
  | nil => exact absurd (List.cons.inj h).1.symm h34
  | cons x v =>
    rw [flatMap_cons_append] at h
    rcases emitByte_cases x with ⟨e, he, -⟩ | ⟨he, -⟩ | ⟨he, -⟩ <;> rw [he] at h
    · exact absurd (List.cons.inj h).1.symm h92
    · exact absurd (List.cons.inj h).1.symm h92
    · obtain ⟨rfl, ht⟩ := List.cons.inj h
      exact ⟨v, rfl, ht⟩

theorem front (x : UInt8) (v : Bytes) : Front x v := by
  have hE : emitted (x :: v) = trigraphs (emitByte x ++ (v.flatMap emitByte ++ [34])) := by
    rw [emitted, flatMap_cons_append]
  rcases emitByte_cases x with ⟨e, he, hs, h63, hh, he63, hq⟩ | ⟨he, hh, h63⟩ | ⟨he, hx⟩
  · refine .escape e ⟨hs, h63, hh⟩ hq ?_
    rw [hE, he, trigraphs_append (by simp [he63])]
    rfl
  · refine .hex hh h63 ?_
    rw [hE, he, trigraphs_append]
    · rfl
    · intro d hd
      simp only [List.mem_cons] at hd
      rcases hd with rfl | rfl | hd
      · decide
      · decide
      · exact (isHex_ne (hexByte_hex x d hd)).1
  · rw [he] at hE
    by_cases ht : ∃ e t, x = 63 ∧ v = 63 :: e :: t ∧ trigraph e ≠ none
    · obtain ⟨e, t, rfl, rfl, hne⟩ := ht
      obtain ⟨d, hd⟩ := Option.ne_none_iff_exists'.1 hne
      refine .trigraph d e t rfl rfl hd ?_
      rw [hE, flatMap_cons_append, flatMap_cons_append, emitByte_trigraph hd]
      exact trigraphs_some hd
    · have hv : ∀ e t, x = 63 → v = 63 :: e :: t → trigraph e = none := by
        intro e t hx hv
        by_contra hne
        exact ht ⟨e, t, hx, hv, hne⟩
      refine .raw hx hv (hE.trans (trigraphs_char fun c t hx63 h => ?_))
      by_contra hne
      obtain ⟨w, rfl, hw⟩ := emit_head h (by decide) (by decide)
      obtain ⟨u, rfl, -⟩ := emit_head hw (by rintro rfl; exact hne rfl) (by rintro rfl; exact hne rfl)
      exact hne (hv c u hx63 rfl)

theorem emitted_hex (h : isHex c = true) : emitted (c :: t) = c :: emitted t := by
  have hc : ¬ (c < 32 ∨ c = 127) := by
    simp only [isHex, Bool.or_eq_true, Bool.and_eq_true, decide_eq_true_eq, UInt8.le_iff_toNat_le,
      UInt8.reduceToNat] at h
    simp only [UInt8.lt_iff_toNat_lt, ← UInt8.toNat_inj, UInt8.reduceToNat]
    omega
  have hne : c ≠ 9 ∧ c ≠ 13 := by
    constructor <;>
      · rintro rfl
        exact hc (by decide)
  obtain ⟨h63, h34, h92, h10⟩ := isHex_ne h
  have he : emitByte c = [c] := by simp [emitByte, h34, h92, h10, hne, hc]
  rw [emitted, flatMap_cons_append, he]
  exact trigraphs_ne h63

/-- hexadecimal digits in the emitted text are bytes of the string -/
theorem emitted_run (h : w <+: emitted v) (hw : ∀ c ∈ w, isHex c = true) :
    ∃ u, v = w ++ u ∧ emitted v = w ++ emitted u := by
  induction w generalizing v with
  | nil => exact ⟨v, rfl, rfl⟩
  | cons c w ih =>
    have hc := hw c List.mem_cons_self
    obtain ⟨h63, h34, h92, -⟩ := isHex_ne hc
    cases v with
    | nil => exact absurd (List.cons_prefix_cons.1 h).1 h34
    | cons x v =>
      cases front x v with
      | trigraph d e t hx hv hd he =>
        rw [he] at h
        have hcd := (List.cons_prefix_cons.1 h).1
        rw [hcd, (trigraph_plain hd).1] at hc
        cases hc
      | raw hx hv he =>
        rw [he] at h ⊢
        obtain ⟨rfl, hp⟩ := List.cons_prefix_cons.1 h
        obtain ⟨u, rfl, hu⟩ := ih hp fun d hd => hw d (List.mem_cons_of_mem c hd)
        exact ⟨u, rfl, by rw [hu]; rfl⟩
      | escape e hx hq he =>
        rw [he] at h
        exact absurd (List.cons_prefix_cons.1 h).1 h92
      | hex hx h63 he =>
        rw [he] at h
        exact absurd (List.cons_prefix_cons.1 h).1 h92

theorem emitted_drop (h : w <+: emitted v) (hw : ∀ c ∈ w, isHex c = true) :
    (emitted v).drop w.length = emitted (v.drop w.length) := by
  obtain ⟨u, rfl, hu⟩ := emitted_run h hw
  rw [hu, List.drop_left, List.drop_left]

/-- all hexadecimal digits in front -/
theorem emitted_split (v : Bytes) : ∃ w u, v = w ++ u ∧ emitted v = w ++ emitted u ∧
    (∀ c ∈ w, isHex c = true) ∧ ∀ c t, emitted u = c :: t → isHex c = false := by
  have hw : ∀ c ∈ (emitted v).takeWhile isHex, isHex c = true := fun c => List.mem_takeWhile_imp
  obtain ⟨u, hv, hu⟩ := emitted_run (List.takeWhile_prefix _) hw
  refine ⟨_, u, hv, hu, hw, fun c t hc => ?_⟩
  have hd : (emitted v).dropWhile isHex = emitted u :=
    List.append_cancel_left (List.takeWhile_append_dropWhile.trans hu)
  have hne := List.head?_dropWhile_not isHex (emitted v)
  rw [hd, hc] at hne
  simpa using hne

/-! ## what the compiler reads -/

theorem hexByte_split (x : UInt8) (v : Bytes) : ∃ w u, v = w ++ u ∧
    (∀ c ∈ w, isHex c = true) ∧ (w = [] → ∀ c t, v = c :: t → isHex c = false) ∧
    CLiteral.escape k (120 :: (hexByte false x ++ emitted v))
      = (byteOf k (number 16 (hexByte false x ++ w))).map fun b => ([b], emitted u) := by
  obtain ⟨w, u, hv, hu, hw, hend⟩ := emitted_split v
  refine ⟨w, u, hv, hw, ?_, ?_⟩
  · rintro rfl c t hc
    by_contra hh
    rw [Bool.not_eq_false] at hh
    rw [hend c (emitted t) (by rw [← emitted_hex hh, ← hc, hu]; rfl)] at hh
    cases hh
  · rw [hu, ← List.append_assoc, escape_hex (by simp [hexByte]) _ hend]
    intro c hc
    exact (List.mem_append.1 hc).elim (hexByte_hex x c) (hw c)

theorem isHex_of_isOct (h : isOct c = true) : isHex c = true := by
  simp only [isOct, Bool.and_eq_true, decide_eq_true_eq, UInt8.le_iff_toNat_le,
    UInt8.reduceToNat] at h
  simp only [isHex, Bool.or_eq_true, Bool.and_eq_true, decide_eq_true_eq, UInt8.le_iff_toNat_le,
    UInt8.reduceToNat]
  omega

/-- an escape in front of emitted text gives no more bytes than it takes -/
theorem escape_emitted {b : Bytes} (h : CLiteral.escape k (x :: emitted v) = some (b, r)) :
    ∃ u, r = emitted u ∧ b.length + u.length ≤ v.length + 1 ∧ u.length ≤ v.length := by
  have hone : ∀ {y : UInt8}, some ([y], emitted v) = some (b, r) →
      ∃ u, r = emitted u ∧ b.length + u.length ≤ v.length + 1 ∧ u.length ≤ v.length := by
    intro y h
    cases h
    exact ⟨v, rfl, by simp; omega, Nat.le_refl _⟩
  have hdigits : ∀ {y : UInt8} {w : Bytes}, w <+: emitted v → (∀ c ∈ w, isHex c = true) →
      ([y], (emitted v).drop w.length) = (b, r) →
      ∃ u, r = emitted u ∧ b.length + u.length ≤ v.length + 1 ∧ u.length ≤ v.length := by
    intro y w hp hw h
    cases h
    refine ⟨v.drop w.length, emitted_drop hp hw, ?_, ?_⟩ <;> simp
    omega
  have hucn : ∀ {n}, 4 ≤ n → ucn n (emitted v) = some (b, r) →
      ∃ u, r = emitted u ∧ b.length + u.length ≤ v.length + 1 ∧ u.length ≤ v.length := by
    intro n hn h
    unfold ucn at h
    dsimp only at h
    split at h
    next hl =>
      obtain ⟨y, hy, he⟩ := Option.map_eq_some_iff.1 h
      cases he
      obtain ⟨u, hv, hu⟩ := emitted_run
        ((List.takeWhile_prefix isHex).trans (List.take_prefix n (emitted v)))
        fun c => List.mem_takeWhile_imp
      have hb : b.length ≤ 4 := by
        unfold universal at hy
        split at hy
        · cases hy
          rw [String.length_utf8EncodeChar]
          exact Char.utf8Size_le_four _
        · cases hy
      have hvl := congrArg List.length hv
      rw [List.length_append, hl] at hvl
      refine ⟨u, ?_, by omega, by omega⟩
      rw [hu]
      nth_rewrite 1 [← hl]
      exact List.drop_left
    · cases h
  rw [CLiteral.escape] at h
  split at h
  · exact hone h
  split at h
  next ho =>
    obtain ⟨y, -, he⟩ := Option.map_eq_some_iff.1 h
    rw [List.take_succ_cons, List.takeWhile_cons, if_pos ho, List.length_cons,
      List.drop_succ_cons] at he
    exact hdigits ((List.takeWhile_prefix isOct).trans (List.take_prefix 2 _))
      (fun c hc => isHex_of_isOct (List.mem_takeWhile_imp hc)) he
  split at h
  · dsimp only at h
    split at h
    · cases h
    · obtain ⟨y, -, he⟩ := Option.map_eq_some_iff.1 h
      exact hdigits (List.takeWhile_prefix isHex) (fun c => List.mem_takeWhile_imp) he
  split at h
  · exact hucn (Nat.le_refl 4) h
  split at h
  · exact hucn (by decide) h
  split at h
  · cases h
  · obtain ⟨y, -, he⟩ := Option.map_eq_some_iff.1 h
    exact hone (congrArg some he)

/-- **The compiler reads no more bytes than were written.**  Behind a pending backslash, which is
what `??/` leaves, it may read up to three more, but then the first one is a backslash. -/
theorem short (v : Bytes) :
    (∀ val r, body k (emitted v) = some (val, r) → val.length ≤ v.length) ∧
    ∀ val r, body k (92 :: emitted v) = some (val, r) →
      val.length ≤ v.length ∨ (val.head? = some 92 ∧ val.length ≤ v.length + 3) := by
  induction hn : v.length using Nat.strongRecOn generalizing v with
  | ind n ih =>
    subst hn
    have hmap : ∀ {w s : Bytes} {val r : Bytes}, ((body k s).map fun p => (w ++ p.1, p.2))
        = some (val, r) → ∃ u, body k s = some (u, r) ∧ val = w ++ u := by
      intro w s val r h
      obtain ⟨⟨u, q⟩, hu, he⟩ := Option.map_eq_some_iff.1 h
      cases he
      exact ⟨u, hu, rfl⟩
    cases v with
    | nil =>
      constructor
      · intro val r h
        rw [emitted_nil, CLiteral.body_quote] at h
        cases h
        exact Nat.le_refl 0
      · intro val r h
        rw [emitted_nil, body_escape (escape_simple (show simple 34 = some 34 from rfl)),
          body] at h
        cases h
    | cons x v =>
      have hv := ih v.length (Nat.lt_succ_self _) v rfl
      -- a backslash in front of what is no trigraph and no escape
      have hpend : ∀ {y : UInt8} {t : Bytes}, t.length ≤ v.length → ∀ val r,
          body k (92 :: y :: emitted t) = some (val, r) → val.length ≤ v.length + 1 := by
        intro y t ht val r h
        cases he : CLiteral.escape k (y :: emitted t) with
        | none =>
          rw [body_escape_none he] at h
          cases h
        | some p =>
          obtain ⟨b, q⟩ := p
          obtain ⟨u, rfl, hl, hu⟩ := escape_emitted he
          rw [body_escape he] at h
          obtain ⟨z, hz, rfl⟩ := hmap h
          have hzl := (ih u.length (by rw [List.length_cons]; omega) u rfl).1 z r hz
          rw [List.length_append]
          omega
      cases front x v with
      | trigraph d e t hx hvt hd he =>
        subst hvt
        obtain ⟨-, h34, h10, -⟩ := trigraph_plain hd
        have ht := ih t.length (by simp only [List.length_cons]; omega) t rfl
        rw [he]
        constructor
        · intro val r h
          by_cases h92 : d = 92
          · subst h92
            have hl := ht.2 val r h
            simp only [List.length_cons]
            omega
          · rw [CLiteral.body_char h34 h10 h92] at h
            obtain ⟨u, hu, rfl⟩ := hmap (w := [d]) h
            have hl := ht.1 u r hu
            simp only [List.length_append, List.length_cons, List.length_nil]
            omega
        · intro val r h
          left
          have hl := hpend (by simp; omega) val r h
          simpa using hl
      | raw hx hvt he =>
        rw [he]
        constructor
        · intro val r h
          rw [CLiteral.body_char hx.1 hx.2.1 hx.2.2.1] at h
          obtain ⟨u, hu, rfl⟩ := hmap (w := [x]) h
          have hl := hv.1 u r hu
          simpa using hl
        · intro val r h
          exact .inl (hpend (Nat.le_refl _) val r h)
      | escape e hx hq he =>
        rw [he]
        constructor
        · intro val r h
          rw [body_escape (escape_simple hx.1)] at h
          obtain ⟨u, hu, rfl⟩ := hmap h
          have hl := hv.1 u r hu
          simpa using hl
        · intro val r h
          rw [body_escape (escape_simple (show simple 92 = some 92 from rfl))] at h
          obtain ⟨u, hu, rfl⟩ := hmap h
          refine .inr ⟨rfl, ?_⟩
          rcases hq with rfl | rfl | ⟨h34, h92, h10⟩
          · rw [CLiteral.body_quote] at hu
            cases hu
            simp
          · have hl := hv.2 u r hu
            simp only [List.length_append, List.length_cons, List.length_nil]
            omega
          · rw [CLiteral.body_char h34 h10 h92] at hu
            obtain ⟨z, hz, rfl⟩ := hmap (w := [e]) hu
            have hl := hv.1 z r hz
            simp only [List.length_append, List.length_cons, List.length_nil]
            omega
      | hex hx h63 he =>
        rw [he]
        constructor
        · intro val r h
          obtain ⟨w, u, hvw, -, -, hesc⟩ := hexByte_split (k := k) x v
          have hul : u.length ≤ v.length := by
            rw [hvw, List.length_append]
            exact Nat.le_add_left _ _
          cases hb : byteOf k (number 16 (hexByte false x ++ w)) with
          | none =>
            rw [hb] at hesc
            rw [body_escape_none hesc] at h
            cases h
          | some b =>
            rw [hb] at hesc
            rw [body_escape hesc] at h
            obtain ⟨z, hz, rfl⟩ := hmap h
            have hl := (ih u.length (Nat.lt_succ_of_le hul) u rfl).1 z r hz
            simp only [List.length_append, List.length_cons, List.length_nil]
            omega
        · intro val r h
          rw [body_escape (escape_simple (show simple 92 = some 92 from rfl))] at h
          obtain ⟨u, hu, rfl⟩ := hmap h
          refine .inr ⟨rfl, ?_⟩
          have hhex : ∀ {y : UInt8} {s u : Bytes}, isHex y = true → body k (y :: s) = some (u, r) →
              ∃ z, body k s = some (z, r) ∧ u = y :: z := by
            intro y s u hy h
            obtain ⟨-, h34, h92, h10⟩ := isHex_ne hy
            rw [CLiteral.body_char h34 h10 h92] at h
            exact hmap (w := [y]) h
          rw [CLiteral.body_char (by decide) (by decide) (by decide)] at hu
          obtain ⟨z, hz, rfl⟩ := hmap (w := [120]) hu
          have hlt := x.toNat_lt
          obtain ⟨z1, hz1, rfl⟩ := hhex (hexNibble_hex (x.toNat / 16) (by omega)).1 hz
          obtain ⟨z2, hz2, rfl⟩ := hhex (hexNibble_hex (x.toNat % 16) (by omega)).1 hz1
          have hl := hv.1 z2 r hz2
          simp only [List.length_append, List.length_cons, List.length_nil]
          omega

/-! ## which strings come through -/

theorem fine_cons : Fine (x :: v) ↔ (∀ e t, x = 63 → v = 63 :: e :: t → trigraph e = none) ∧
    (∀ d t, hexEscaped x = true → v = d :: t → isHex d = false) ∧ Fine v := by
  constructor
  · intro h
    refine ⟨?_, ?_, ?_, ?_⟩
    · rintro e t rfl rfl
      by_contra hne
      exact h.1 e hne (List.IsPrefix.isInfix ⟨t, rfl⟩)
    · rintro d t hx rfl
      by_contra hd
      exact h.2 x d hx (by simpa using hd) (List.IsPrefix.isInfix ⟨t, rfl⟩)
    · exact fun c hc hi => h.1 c hc (List.infix_cons hi)
    · exact fun c d hc hd hi => h.2 c d hc hd (List.infix_cons hi)
  · rintro ⟨ht, hx, hv⟩
    constructor
    · intro c hc hi
      rcases List.infix_cons_iff.1 hi with ⟨t, hp⟩ | hi
      · obtain ⟨rfl, hvt⟩ := List.cons.inj hp
        exact hc (ht c t rfl hvt.symm)
      · exact hv.1 c hc hi
    · intro c d hc hd hi
      rcases List.infix_cons_iff.1 hi with ⟨t, hp⟩ | hi
      · obtain ⟨rfl, hvt⟩ := List.cons.inj hp
        have hd' := hx d t hc hvt.symm
        rw [hd] at hd'
        cases hd'
      · exact hv.2 c d hc hd hi

theorem fine_nil : Fine [] := ⟨fun _ _ h => by simp at h, fun _ _ _ _ h => by simp at h⟩

/-- **The compiler reads the string** exactly if it is `Fine`. -/
theorem body_emitted (v : Bytes) : body k (emitted v) = some (v, []) ↔ Fine v := by
  induction v with
  | nil => exact iff_of_true CLiteral.body_quote fine_nil
  | cons x v ih =>
    have hmap : (body k (emitted v)).map (fun p => (x :: p.1, p.2)) = some (x :: v, []) ↔
        body k (emitted v) = some (v, []) := by
      cases body k (emitted v) with
      | none => simp
      | some p => simp [Prod.ext_iff]
    rw [fine_cons]
    cases front x v with
    | trigraph d e t hx hvt hd he =>
      refine iff_of_false (fun h => ?_) fun h => ?_
      · subst hvt hx
        rw [he] at h
        obtain ⟨-, h34, h10, h63, -⟩ := trigraph_plain hd
        by_cases h92 : d = 92
        · subst h92
          rcases (short t).2 _ _ h with hl | ⟨hh, -⟩
          · simp only [List.length_cons] at hl
            omega
          · exact absurd (Option.some.inj hh) (by decide)
        · rw [CLiteral.body_char h34 h10 h92] at h
          obtain ⟨p, -, hp⟩ := Option.map_eq_some_iff.1 h
          exact h63 (List.cons.inj (Prod.ext_iff.1 hp).1).1
      · have hnone := h.1 e t hx hvt
        rw [hd] at hnone
        cases hnone
    | raw hx hvt he =>
      rw [he, CLiteral.body_char hx.1 hx.2.1 hx.2.2.1, hmap, ih]
      exact ⟨fun h => ⟨hvt, fun d t hc => absurd hc (by simp [hx.2.2.2]), h⟩, fun h => h.2.2⟩
    | escape e hx hq he =>
      rw [he, body_escape (escape_simple hx.1)]
      refine hmap.trans (ih.trans ⟨fun h => ⟨?_, ?_, h⟩, fun h => h.2.2⟩)
      · exact fun _ _ hc => absurd hc hx.2.1
      · exact fun _ _ hc => absurd hc (by simp [hx.2.2])
    | hex hx h63 he =>
      obtain ⟨w, u, hvw, hhex, hnil, hesc⟩ := hexByte_split (k := k) x v
      rw [he]
      by_cases hw : w = []
      · have huv : u = v := by rw [hvw, hw]; rfl
        rw [hw, List.append_nil, number_hexByte, byteOf, if_pos x.toNat_lt,
          UInt8.ofNat_toNat] at hesc
        rw [body_escape hesc, huv]
        refine hmap.trans (ih.trans ⟨fun h => ⟨?_, ?_, h⟩, fun h => h.2.2⟩)
        · exact fun _ _ hc => absurd hc h63
        · exact fun c t _ hc => hnil hw c t hc
      · -- the digits of the escape go on into the string
        refine iff_of_false (fun h => ?_) fun h => ?_
        · cases hb : byteOf k (number 16 (hexByte false x ++ w)) with
          | none =>
            rw [hb] at hesc
            rw [body_escape_none hesc] at h
            cases h
          | some b =>
            rw [hb] at hesc
            rw [body_escape hesc] at h
            obtain ⟨⟨z, q⟩, hz, hp⟩ := Option.map_eq_some_iff.1 h
            have hl := (short u).1 z q hz
            have hzv := (List.cons.inj (Prod.ext_iff.1 hp).1).2
            have hwl := List.length_pos_iff.2 hw
            have hvl := congrArg List.length hvw
            rw [List.length_append] at hvl
            change z = v at hzv
            rw [hzv] at hl
            omega
        · obtain ⟨c, w', rfl⟩ := List.exists_cons_of_ne_nil hw
          have hc := h.2.1 c (w' ++ u) hx hvw
          rw [hhex c List.mem_cons_self] at hc
          cases hc

theorem not_mem_emitted (v : Bytes) : 10 ∉ emitted v := by
  induction hn : v.length using Nat.strongRecOn generalizing v with
  | ind n ih =>
    subst hn
    cases v with
    | nil => decide
    | cons x v =>
      have hv := ih v.length (Nat.lt_succ_self _) v rfl
      cases front x v with
      | trigraph d e t hx hvt hd he =>
        subst hvt
        have ht := ih t.length (by simp only [List.length_cons]; omega) t rfl
        simp [he, ht, (trigraph_plain hd).2.2.1.symm]
      | raw hx _ he => simp [he, hv, hx.2.1.symm]
      | escape e hx hq he =>
        have h10 : e ≠ 10 := by
          rcases hq with rfl | rfl | h
          · decide
          · decide
          · exact h.2.2
        simp [he, hv, h10.symm]
      | hex hx h63 he =>
        have hb : 10 ∉ hexByte false x := fun h => (isHex_ne (hexByte_hex x 10 h)).2.2.2 rfl
        simp [he, hv, hb]

theorem literal_emitCString (k : Compiler) (s : Bytes) : literal k (emitCString s)
    = match body k (emitted s) with
      | some (v, []) => some v
      | _ => none := by
  have ht : splices (trigraphs (emitCString s)) = 34 :: emitted s := by
    rw [emitCString, trigraphs_ne (by decide)]
    exact splices_id (show 10 ∉ 34 :: emitted s by simp [not_mem_emitted s])
  rw [literal, ht]
  exact if_pos rfl

theorem literal_eq_some {s v : Bytes} :
    literal k (emitCString s) = some v ↔ body k (emitted s) = some (v, []) := by
  rw [literal_emitCString]
  split
  next h =>
    rw [h]
    simp
  next h =>
    refine iff_of_false nofun fun h' => h _ h'

/-- what comes through unchanged: a string without a NUL, without a trigraph, and without a
hexadecimal digit behind a byte that is written as `\xHH` -/
def Survives (s : Bytes) : Prop := 0 ∉ s ∧ Fine s

theorem cstr_eq_self : cstr s = s ↔ 0 ∉ s := by
  rw [cstr, List.takeWhile_eq_self_iff]
  constructor
  · intro h h0
    exact absurd (h 0 h0) (by decide)
  · intro h c hc
    simp only [bne_iff_ne]
    rintro rfl
    exact h hc

/-- **String literals.**  A string that is written between double quotes is one token with the
string up to its first NUL, and the compiler reads the whole string in what `emit_c_string` makes
of the token exactly if the string `Survives`, whatever else the compiler does. -/
theorem literal_survives (strtod : Bytes → Double) (k : Compiler) (a : Place) (s r : Bytes) :
    ∃ n, lexToken strtod a 34 (sourceText s ++ 34 :: r) = .ok n ∧ n.tok.kind = .str ∧
      n.rest = r ∧ n.tok.text = cstr s ∧
      (literal k (emitCString n.tok.text) = some s ↔ Survives s) := by
  obtain ⟨n, hn, hk, hr, ht⟩ := lexToken_sourceText strtod a s r
  refine ⟨n, hn, hk, hr, ht, ?_⟩
  rw [ht, literal_eq_some]
  by_cases h0 : 0 ∈ s
  · refine iff_of_false (fun h => ?_) fun h => h.1 h0
    have hl := (short (cstr s)).1 s [] h
    have hp : cstr s <+: s := List.takeWhile_prefix _
    exact absurd h0 (cstr_eq_self.1 (hp.eq_of_length_le hl))
  · rw [cstr_eq_self.2 h0, body_emitted]
    exact ⟨fun h => ⟨h0, h⟩, fun h => h.2⟩

/-- a byte 1 and the letter `a` -/
theorem literal_hex_run : ¬ ∀ (strtod : Bytes → Double) (k : Compiler) (a : Place) (s : Bytes)
    (n : Next), lexToken strtod a 34 (sourceText s ++ [34]) = .ok n →
      literal k (emitCString n.tok.text) = some s := by
  intro h
  obtain ⟨n, hn, -, -, ht⟩ := lexToken_sourceText (fun _ => ⟨0⟩) .start [1, 97] []
  have hs := h _ ⟨fun _ => none, fun _ => none⟩ _ _ n hn
  rw [ht, literal_eq_some, cstr_eq_self.2 (by decide), body_emitted] at hs
  exact hs.2 1 97 rfl rfl (List.infix_refl _)

end Codegen
end HolyPhp
