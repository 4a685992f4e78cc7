import HolyPhp.Lexer.Template
import HolyPhp.Parser.Types
import Mathlib.Data.List.Chain

/-!
# The text of a type as tokens

* `Lexeme`       the words and marks that `type_to_string` writes, with the blanks;
* `munch`        the tokens of lexemes: two equal marks that meet are one token;
* `lexRaw_munch` the lexer makes these tokens;
* `Bad`          lexemes with two marks that meet, or with `mut`: `munch_bad` finds a token that no
  type has.
-/

set_option autoImplicit false

namespace HolyPhp
namespace Parser
open Lexer Sema

/-! ## lexemes -/

inductive Lexeme where
  | word (w : Bytes)
  | sym (c : UInt8)
  | arrow
  | space

def Lexeme.bytes : Lexeme → Bytes
  | .word w => w
  | .sym c => [c]
  | .arrow => [45, 62]
  | .space => [32]

def flat (ls : List Lexeme) : Bytes := ls.flatMap Lexeme.bytes

/-- the marks that `type_to_string` writes, but for the arrow -/
def symKind (c : UInt8) : TokKind :=
  if c = 60 then .lt
  else if c = 62 then .gt
  else if c = 38 then .amp
  else if c = 42 then .star
  else if c = 91 then .lbracket
  else if c = 93 then .rbracket
  else if c = 40 then .lparen
  else if c = 41 then .rparen
  else .comma

/-- what two of the mark are -/
def doubleKind (c : UInt8) : Option TokKind :=
  if c = 62 then some .shr
  else if c = 38 then some .andand
  else if c = 42 then some .pow
  else none

/-- the tokens of the lexemes, as kinds and texts -/
def munch : List Lexeme → List (TokKind × Bytes)
  | [] => []
  | .space :: ls => munch ls
  | .word w :: ls => (kwLookup w, w) :: munch ls
  | .arrow :: ls => (.arrow, [45, 62]) :: munch ls
  | .sym c :: ls =>
    match ls with
    | .sym d :: ls' =>
      match if c = d then doubleKind c else none with
      | some k => (k, [c, c]) :: munch ls'
      | none => (symKind c, [c]) :: munch (.sym d :: ls')
    | ls => (symKind c, [c]) :: munch ls

/-- a word is a name, a mark is one of the table -/
def Lexeme.Valid : Lexeme → Prop
  | .word w => ∃ c v, w = c :: v ∧ startsName c = true ∧ ∀ x ∈ v, inName x = true
  | .sym c => c ∈ [60, 62, 38, 42, 91, 93, 40, 41, 44]
  | _ => True

/-- no two words meet, and nothing makes one token with `<` -/
def Apart : Lexeme → Lexeme → Prop
  | .word _, .word _ => False
  | .sym c, .sym d => c = 60 → d ≠ 60 ∧ d ≠ 62
  | _, _ => True

variable {ls ms : List Lexeme} {l : Lexeme} {c d : UInt8} {s w : Bytes} {a : Place}
  {strtod : Bytes → Double}

theorem flat_cons : flat (l :: ls) = l.bytes ++ flat ls := rfl

/-! ## the lexer -/

theorem startsName_range (h : startsName c = true) : c ≠ 32 ∧ c ≠ 9 ∧ c ≠ 13 ∧ c ≠ 47 ∧ c ≠ 35 := by
  refine ⟨?_, ?_, ?_, ?_, ?_⟩ <;>
    · rintro rfl
      exact absurd h (by decide)

/-- what begins no blank and no comment -/
theorem skipTrivia_stop (h : c ≠ 32 ∧ c ≠ 9 ∧ c ≠ 13 ∧ c ≠ 47 ∧ c ≠ 35) :
    skipTrivia .code a (c :: s) = some (a, c :: s) := by
  obtain ⟨h32, h9, h13, h47, h35⟩ := h
  rw [skipTrivia.eq_def]
  simp only [h32, h9, h13, h47, h35, false_or, false_and, if_false]
  cases s <;> rfl

theorem lexNext_space : lexNext strtod a (32 :: s) = lexNext strtod (a.adv 32) s := by
  rw [lexNext, lexNext, skipTrivia_blank (.inl rfl)]

theorem lexNext_word (strtod : Bytes → Double) (h : (Lexeme.word w).Valid) (a : Place) (hs : inName (peek s 0) = false) :
    ∃ n, lexNext strtod a (w ++ s) = .ok n ∧ n.more = true ∧ n.tok.kind = kwLookup w ∧
      n.tok.text = w ∧ n.rest = s := by
  obtain ⟨c, v, rfl, hc, hv⟩ := h
  have hall : ∀ x ∈ c :: v, inName x = true := by
    intro x hx
    rcases List.mem_cons.1 hx with rfl | hx
    · exact inName_of_startsName hc
    · exact hv x hx
  obtain ⟨b, hb⟩ := advWhile_append hall hs a
  have ht : taken (c :: (v ++ s)) s = c :: v := taken_append (c :: v) s
  rw [List.cons_append] at hb ⊢
  rw [lexNext, skipTrivia_stop (startsName_range hc)]
  dsimp only
  rw [lexToken, if_pos hc]
  simp only [hb, ht]
  exact ⟨_, rfl, rfl, rfl, rfl, rfl⟩

theorem lexNext_punct (strtod : Bytes → Double) (a : Place) {k : TokKind} {n : Nat} (hp : punct c s = some (k, n))
    (hc : c ∈ [60, 62, 38, 42, 91, 93, 40, 41, 44, 45]) :
    ∃ m, lexNext strtod a (c :: s) = .ok m ∧ m.more = true ∧ m.tok.kind = k ∧
      m.tok.text = c :: s.take n ∧ m.rest = s.drop n := by
  have hplain : (c ≠ 32 ∧ c ≠ 9 ∧ c ≠ 13 ∧ c ≠ 47 ∧ c ≠ 35) ∧ startsName c = false ∧
      isDigit c = false ∧ c ≠ 46 ∧ c ≠ 34 ∧ c ≠ 39 ∧ c ≠ 36 := by
    simp only [List.mem_cons, List.not_mem_nil, or_false] at hc
    rcases hc with rfl | rfl | rfl | rfl | rfl | rfl | rfl | rfl | rfl | rfl <;> decide
  obtain ⟨hstop, hn, hd, h46, h34, h39, h36⟩ := hplain
  rw [lexNext, skipTrivia_stop hstop]
  dsimp only
  rw [lexToken, if_neg (by rw [hn]; decide), if_neg (by simp [hd, h46]), if_neg h34, if_neg h39,
    if_neg h36, hp]
  exact ⟨_, rfl, rfl, rfl, rfl, rfl⟩

/-- the kinds and texts of tokens -/
def kt (t : Token) : TokKind × Bytes := (t.kind, t.text)

theorem lexRaw_token {n : Next} {f : Nat} (h : lexNext strtod a s = .ok n) (hm : n.more = true)
    {q : List (TokKind × Bytes)} (hr : ∃ toks e, lexRaw strtod f n.place n.rest
      = some (.ok (toks ++ [e])) ∧ e.kind = .eof ∧ toks.map kt = q) :
    ∃ toks e, lexRaw strtod (f + 1) a s = some (.ok (toks ++ [e])) ∧ e.kind = .eof ∧
      toks.map kt = kt n.tok :: q := by
  obtain ⟨toks, e, hr, he, hq⟩ := hr
  exact ⟨n.tok :: toks, e, by rw [lexRaw_step h hm, hr]; rfl, he, by rw [List.map_cons, hq]⟩

theorem inName_ne (h : inName c = false) (hv : startsName d = true) : c ≠ d := by
  rintro rfl
  rw [inName_of_startsName hv] at h
  cases h

/-- what is in front of a text of lexemes -/
theorem peek_flat (hv : ∀ l ∈ ls, l.Valid) :
    peek (flat ls) 0 ≠ 61 ∧
    (∀ c, c ∈ [60, 62, 38, 42] → (peek (flat ls) 0 = c ↔ ∃ ms, ls = .sym c :: ms)) ∧
    (inName (peek (flat ls) 0) = false ∨ ∃ w ms, ls = .word w :: ms) := by
  cases ls with
  | nil =>
    refine ⟨by decide, fun c hc => ?_, .inl (by decide)⟩
    refine iff_of_false (fun h => ?_) (by simp)
    rw [← show (0 : UInt8) = c from h] at hc
    exact absurd hc (by decide)
  | cons l ls =>
    have hl := hv l List.mem_cons_self
    cases l with
    | word w =>
      obtain ⟨x, v, rfl, hx, -⟩ := hl
      have hne : ∀ c : UInt8, startsName c = false → x ≠ c := by
        rintro c hc rfl
        rw [hx] at hc
        cases hc
      refine ⟨hne 61 (by decide), fun c hc => ?_, .inr ⟨_, _, rfl⟩⟩
      refine iff_of_false (hne c ?_) (by simp)
      simp only [List.mem_cons, List.not_mem_nil, or_false] at hc
      rcases hc with rfl | rfl | rfl | rfl <;> decide
    | sym d =>
      have hd : d ≠ 61 ∧ inName d = false := by
        simp only [Lexeme.Valid, List.mem_cons, List.not_mem_nil, or_false] at hl
        rcases hl with rfl | rfl | rfl | rfl | rfl | rfl | rfl | rfl | rfl <;> decide
      refine ⟨hd.1, fun c _ => ?_, .inl hd.2⟩
      constructor
      · rintro h
        exact ⟨ls, by rw [show d = c from h]⟩
      · rintro ⟨ms, h⟩
        cases h
        rfl
    | arrow =>
      refine ⟨(by decide : (45 : UInt8) ≠ 61), fun c hc => ?_, .inl (by decide : inName 45 = false)⟩
      refine iff_of_false (fun h => ?_) (by simp)
      rw [← show (45 : UInt8) = c from h] at hc
      exact absurd hc (by decide)
    | space =>
      refine ⟨(by decide : (32 : UInt8) ≠ 61), fun c hc => ?_, .inl (by decide : inName 32 = false)⟩
      refine iff_of_false (fun h => ?_) (by simp)
      rw [← show (32 : UInt8) = c from h] at hc
      exact absurd hc (by decide)

/-- a mark in front of the text `s` -/
theorem punct_sym (hc : c ∈ [60, 62, 38, 42, 91, 93, 40, 41, 44]) (h61 : peek s 0 ≠ 61)
    (h60 : c = 60 → peek s 0 ≠ 60 ∧ peek s 0 ≠ 62) (hd : peek s 0 = c → doubleKind c = none) :
    punct c s = some (symKind c, 0) := by
  simp only [List.mem_cons, List.not_mem_nil, or_false] at hc
  rcases hc with rfl | rfl | rfl | rfl | rfl | rfl | rfl | rfl | rfl
  · obtain ⟨h1, h2⟩ := h60 rfl
    simp [punct, symKind, h61, h1, h2]
  · have h1 : peek s 0 ≠ 62 := fun h => absurd (hd h) (by decide)
    simp [punct, symKind, h61, h1]
  · have h1 : peek s 0 ≠ 38 := fun h => absurd (hd h) (by decide)
    simp [punct, symKind, h1]
  · have h1 : peek s 0 ≠ 42 := fun h => absurd (hd h) (by decide)
    simp [punct, symKind, h61, h1]
  all_goals rfl

/-- two marks that are one token -/
theorem punct_double {k : TokKind} (h : doubleKind c = some k) (h61 : peek s 0 ≠ 61) :
    punct c (c :: s) = some (k, 1) := by
  unfold doubleKind at h
  split_ifs at h with h1 h2 h3
  · cases h
    subst h1
    show (if peek s 0 = 61 then some (TokKind.shrassign, 2) else some (TokKind.shr, 1)) = _
    exact if_neg h61
  · cases h
    subst h2
    rfl
  · cases h
    subst h3
    rfl

theorem munch_sym (h : ∀ ms, ls = .sym c :: ms → doubleKind c = none) :
    munch (.sym c :: ls) = (symKind c, [c]) :: munch ls := by
  cases ls with
  | nil => rfl
  | cons l ls =>
    cases l with
    | sym d =>
      have hn : (if c = d then doubleKind c else none) = none := by
        split
        next hcd =>
          subst hcd
          exact h ls rfl
        · rfl
      rw [munch, hn]
    | word w => rfl
    | arrow => rfl
    | space => rfl

/-- a mark makes one token with the next one, or it does not -/
theorem sym_cases (c : UInt8) (ls : List Lexeme) :
    (∃ k ms, doubleKind c = some k ∧ ls = .sym c :: ms) ∨
      ∀ ms, ls = .sym c :: ms → doubleKind c = none := by
  refine or_iff_not_imp_left.2 fun hd ms hms => ?_
  by_contra hne
  obtain ⟨k, hk⟩ := Option.ne_none_iff_exists'.1 hne
  exact hd ⟨k, ms, hk, hms⟩

theorem munch_double {k : TokKind} (h : doubleKind c = some k) :
    munch (.sym c :: .sym c :: ls) = (k, [c, c]) :: munch ls := by
  rw [munch, if_pos rfl, h]

/-- **The lexer makes the tokens of the lexemes.** -/
theorem lexRaw_munch (strtod : Bytes → Double) (hv : ∀ l ∈ ls, l.Valid) (hc : ls.IsChain Apart)
    (a : Place) {f : Nat} (hf : (flat ls).length < f) :
    ∃ toks e, lexRaw strtod f a (flat ls) = some (.ok (toks ++ [e])) ∧ e.kind = .eof ∧
      toks.map kt = munch ls := by
  induction hn : ls.length using Nat.strongRecOn generalizing ls a f with
  | ind n ih =>
    subst hn
    obtain ⟨f, rfl⟩ : ∃ f', f = f' + 1 := ⟨f - 1, by omega⟩
    cases ls with
    | nil => exact ⟨[], _, rfl, rfl, rfl⟩
    | cons l ls =>
      obtain ⟨hl, hvs⟩ := List.forall_mem_cons.1 hv
      obtain ⟨h61, hsym, hword⟩ := peek_flat hvs
      rw [flat_cons, List.length_append] at hf
      have hlen : 0 < l.bytes.length := by
        cases l with
        | word w =>
          obtain ⟨x, v, rfl, -⟩ := hl
          exact Nat.succ_pos _
        | _ => exact Nat.succ_pos _
      have hrest : ∀ b, ∃ toks e, lexRaw strtod f b (flat ls) = some (.ok (toks ++ [e])) ∧
          e.kind = .eof ∧ toks.map kt = munch ls :=
        fun b => ih ls.length (Nat.lt_succ_self _) hvs hc.tail b (by omega) rfl
      cases l with
      | word w =>
        have hs : inName (peek (flat ls) 0) = false := by
          refine hword.resolve_right ?_
          rintro ⟨v, ms, rfl⟩
          exact (List.isChain_cons_cons.1 hc).1
        obtain ⟨m, hm, hmore, hk, ht, hr⟩ := lexNext_word strtod hl a hs
        have h := lexRaw_token hm hmore (by rw [hr]; exact hrest m.place)
        rw [kt, hk, ht] at h
        exact h
      | arrow =>
        obtain ⟨m, hm, hmore, hk, ht, hr⟩ := lexNext_punct strtod a
          (s := 62 :: flat ls) (show punct 45 (62 :: flat ls) = some (.arrow, 1) from rfl)
          (by decide)
        have h := lexRaw_token hm hmore (by rw [hr]; exact hrest m.place)
        rw [kt, hk, ht] at h
        exact h
      | space =>
        obtain ⟨toks, e, h, he, hq⟩ :=
          ih ls.length (Nat.lt_succ_self _) hvs hc.tail (a.adv 32) (f := f + 1) (by omega) rfl
        refine ⟨toks, e, ?_, he, hq⟩
        show lexRaw strtod (f + 1) a (32 :: flat ls) = _
        rw [lexRaw, lexNext_space, ← h, lexRaw]
      | sym c =>
        have hc10 : c ∈ [60, 62, 38, 42, 91, 93, 40, 41, 44, 45] := by
          simp only [Lexeme.Valid, List.mem_cons] at hl ⊢
          tauto
        rcases sym_cases c ls with ⟨k, ms, hk, rfl⟩ | hnone
        · obtain ⟨-, hvm⟩ := List.forall_mem_cons.1 hvs
          obtain ⟨m, hm, hmore, hkind, ht, hr⟩ := lexNext_punct strtod a
            (punct_double hk (peek_flat hvm).1) hc10
          have hlt : (flat ms).length < f := by
            have hle : (flat ms).length ≤ (flat (.sym c :: ms)).length := by
              rw [flat_cons, List.length_append]
              exact Nat.le_add_left _ _
            omega
          have h := lexRaw_token hm hmore
            (by rw [hr]; exact ih ms.length (by simp) hvm hc.tail.tail m.place hlt rfl)
          rw [kt, hkind, ht] at h
          rw [munch_double hk]
          exact h
        · have h60 : c = 60 → peek (flat ls) 0 ≠ 60 ∧ peek (flat ls) 0 ≠ 62 := by
            rintro rfl
            constructor
            · rw [ne_eq, hsym 60 (by decide)]
              rintro ⟨ms, rfl⟩
              exact ((List.isChain_cons_cons.1 hc).1 rfl).1 rfl
            · rw [ne_eq, hsym 62 (by decide)]
              rintro ⟨ms, rfl⟩
              exact ((List.isChain_cons_cons.1 hc).1 rfl).2 rfl
          have hdbl : peek (flat ls) 0 = c → doubleKind c = none := by
            intro hp
            by_cases hm : c ∈ [60, 62, 38, 42]
            · obtain ⟨ms, hms⟩ := (hsym c hm).1 hp
              exact hnone ms hms
            · simp only [List.mem_cons, List.not_mem_nil, or_false, not_or] at hm
              simp [doubleKind, hm]
          obtain ⟨m, hm, hmore, hkind, ht, hr⟩ := lexNext_punct strtod a
            (punct_sym hl h61 h60 hdbl) hc10
          have h := lexRaw_token hm hmore (by rw [hr]; exact hrest m.place)
          rw [kt, hkind, ht] at h
          rw [munch_sym hnone]
          exact h

/-! ## what no type has -/

/-- two marks meet, or the word is `mut` -/
inductive Bad : List Lexeme → Prop
  | double {c : UInt8} {k : TokKind} {ls : List Lexeme} :
      doubleKind c = some k → Bad (.sym c :: .sym c :: ls)
  | mutWord {ls : List Lexeme} : Bad (.word (ascii "mut") :: ls)
  | cons {l : Lexeme} {ls : List Lexeme} : Bad ls → Bad (l :: ls)

theorem Bad.append_left (h : Bad ms) (ls : List Lexeme) : Bad (ls ++ ms) := by
  induction ls with
  | nil => exact h
  | cons l ls ih => exact .cons ih

theorem Bad.append_right (h : Bad ls) (ms : List Lexeme) : Bad (ls ++ ms) := by
  induction h with
  | double h => exact .double h
  | mutWord => exact .mutWord
  | cons _ ih => exact .cons ih

theorem doubleKind_passKind {k : TokKind} (h : doubleKind c = some k) : passKind k = false := by
  unfold doubleKind at h
  split_ifs at h <;> cases h <;> rfl

theorem munch_bad (h : Bad ls) : ∃ q ∈ munch ls, passKind q.1 = false := by
  induction h with
  | @double c k ls h =>
    rw [munch_double h]
    exact ⟨_, List.mem_cons_self, doubleKind_passKind h⟩
  | mutWord => exact ⟨_, List.mem_cons_self, by decide⟩
  | @cons l ls h ih =>
    obtain ⟨q, hq, hp⟩ := ih
    cases l with
    | space => exact ⟨q, hq, hp⟩
    | word w => exact ⟨q, List.mem_cons_of_mem _ hq, hp⟩
    | arrow => exact ⟨q, List.mem_cons_of_mem _ hq, hp⟩
    | sym c =>
      rcases sym_cases c ls with ⟨k, ms, hk, rfl⟩ | hnone
      · rw [munch_double hk]
        exact ⟨_, List.mem_cons_self, doubleKind_passKind hk⟩
      · rw [munch_sym hnone]
        exact ⟨q, List.mem_cons_of_mem _ hq, hp⟩

end Parser
end HolyPhp
