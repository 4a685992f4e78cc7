import HolyPhp.Lexer.Lex

/-!
# What the loops over blanks and literals pass over

Each relation says of a loop that it leads from a text to what is behind a part of it.

* `Gap`     blanks and comments that are closed;
* `Chars q` characters of a literal in `q`, with escapes;
* `Nested`  balanced braces and literals, `Closes` with the brace that closes a group;
* `Body`    the body of a literal in double quotes, with the groups `{$..}` that are in it.

`skipTrivia_cases`, `scanRaw_cases`, `scanStr_cases`: **what the loops come to**, and when they call
`adv` at the terminator.
-/

set_option autoImplicit false

namespace HolyPhp
namespace Lexer

/-! ## the relations -/

/-- `*/` is in the text -/
def Closed (s : Bytes) : Prop := [42, 47] <:+: s

inductive Gap : Bytes → Bytes → Prop
  | nil {s : Bytes} : Gap s s
  | blank {c : UInt8} {s u : Bytes} : c = 32 ∨ c = 9 ∨ c = 13 → Gap s u → Gap (c :: s) u
  | comment {w s u : Bytes} : ¬ Closed (w ++ [42]) → Gap s u →
      Gap (47 :: 42 :: (w ++ 42 :: 47 :: s)) u

inductive Chars (q : UInt8) : Bytes → Bytes → Prop
  | nil {s : Bytes} : Chars q s s
  | char {c : UInt8} {s u : Bytes} : c ≠ q → c ≠ 92 → Chars q s u → Chars q (c :: s) u
  | escape {d : UInt8} {s u : Bytes} : Chars q s u → Chars q (92 :: d :: s) u

inductive Nested : Bytes → Bytes → Prop
  | nil {s : Bytes} : Nested s s
  | char {c : UInt8} {s u : Bytes} : c ≠ 34 → c ≠ 39 → c ≠ 123 → c ≠ 125 → Nested s u →
      Nested (c :: s) u
  | quote {q : UInt8} {s t u : Bytes} : q = 34 ∨ q = 39 → Chars q s (q :: t) → Nested t u →
      Nested (q :: s) u
  | braces {s t u : Bytes} : Nested s (125 :: t) → Nested t u → Nested (123 :: s) u

/-- a brace behind the inside of a group closes it -/
def Closes (s u : Bytes) : Prop := Nested s (125 :: u)

inductive Body : Bytes → List Bytes → Bytes → Prop
  | nil {s : Bytes} : Body s [] s
  | char {c : UInt8} {s u : Bytes} {gs : List Bytes} : c ≠ 34 → c ≠ 92 →
      ¬ (c = 123 ∧ peek s 0 = 36) → Body s gs u → Body (c :: s) gs u
  | escape {d : UInt8} {s u : Bytes} {gs : List Bytes} : Body s gs u → Body (92 :: d :: s) gs u
  | group {e s u : Bytes} {gs : List Bytes} : peek e 0 = 36 → Closes (e ++ 125 :: s) s →
      Body s gs u → Body (123 :: (e ++ 125 :: s)) (e :: gs) u

/-- a group in the body is not closed -/
def OpenGroup (s : Bytes) : Prop :=
  ∃ gs t, Body s gs (123 :: t) ∧ peek t 0 = 36 ∧ ¬ ∃ u, Closes t u

/-! ## blanks and comments -/

section
variable {a : Place} {c d q : UInt8} {s t u w : Bytes}

theorem closed_cons : Closed (c :: d :: s) ↔ (c = 42 ∧ d = 47) ∨ Closed (d :: s) := by
  unfold Closed
  rw [List.infix_cons_iff]
  simp [eq_comm]

theorem not_closed_short : ¬ Closed [c] := by
  rintro ⟨x, y, h⟩
  have := congrArg List.length h
  simp at this
  omega

theorem skipTrivia_block_cons : skipTrivia .block a (c :: d :: s)
    = if c = 42 ∧ d = 47 then skipTrivia .code ((a.adv c).adv d) s
      else skipTrivia .block (a.adv c) (d :: s) := rfl

theorem skipTrivia_line_cons : skipTrivia .line a (c :: s)
    = if c = 10 then some (a, c :: s) else skipTrivia .line (a.adv c) s := rfl

theorem skipTrivia_block_none (h : ¬ Closed s) (a : Place) : skipTrivia .block a s = none := by
  induction s generalizing a with
  | nil => rfl
  | cons c s ih =>
    cases s with
    | nil => rfl
    | cons d s =>
      rw [closed_cons, not_or] at h
      rw [skipTrivia_block_cons, if_neg h.1]
      exact ih h.2 _

/-- **A comment** that is closed -/
theorem skipTrivia_block (h : ¬ Closed (w ++ [42])) (a : Place) :
    ∃ b, skipTrivia .block a (w ++ 42 :: 47 :: s) = skipTrivia .code b s := by
  induction w generalizing a with
  | nil => exact ⟨_, by rw [List.nil_append, skipTrivia_block_cons, if_pos ⟨rfl, rfl⟩]⟩
  | cons c w ih =>
    obtain ⟨d, v, hv⟩ := List.exists_cons_of_ne_nil (List.append_ne_nil_of_right_ne_nil w
      (List.cons_ne_nil 42 (47 :: s)))
    have hd : ∃ v', w ++ [42] = d :: v' := by
      cases w with
      | nil => exact ⟨[], by rw [List.nil_append] at hv ⊢; rw [(List.cons.inj hv).1]⟩
      | cons x w => exact ⟨w ++ [42], by rw [← (List.cons.inj hv).1]; rfl⟩
    obtain ⟨v', hv'⟩ := hd
    rw [List.cons_append, hv', closed_cons, not_or] at h
    obtain ⟨b, hb⟩ := ih (hv' ▸ h.2) (a.adv c)
    refine ⟨b, ?_⟩
    rw [List.cons_append, hv, skipTrivia_block_cons, if_neg h.1, ← hv, hb]

theorem skipTrivia_open : skipTrivia .code a (47 :: 42 :: s)
    = skipTrivia .block ((a.adv 47).adv 42) s :=
  (if_neg (by decide)).trans ((if_neg fun h => absurd h.2 (by decide : (42 : UInt8) ≠ 47)).trans
    ((if_neg fun h => absurd h.1 (by decide)).trans (if_pos ⟨rfl, rfl⟩)))

theorem skipTrivia_blank (hc : c = 32 ∨ c = 9 ∨ c = 13) :
    skipTrivia .code a (c :: s) = skipTrivia .code (a.adv c) s := by
  rw [skipTrivia.eq_def]
  exact if_pos hc

theorem Gap.skip (h : Gap s u) (a : Place) :
    ∃ b, skipTrivia .code a s = skipTrivia .code b u := by
  induction h generalizing a with
  | nil => exact ⟨a, rfl⟩
  | blank hc _ ih =>
    obtain ⟨b, hb⟩ := ih (a.adv _)
    exact ⟨b, by rw [skipTrivia_blank hc, hb]⟩
  | comment hw _ ih =>
    obtain ⟨b, hb⟩ := skipTrivia_block hw ((a.adv 47).adv 42)
    obtain ⟨b', hb'⟩ := ih b
    exact ⟨b', by rw [skipTrivia_open, hb, hb']⟩

/-- a line comment goes on to the newline, which is no blank -/
theorem skipTrivia_line (a : Place) (s : Bytes) :
    ∃ b r, skipTrivia .line a s = some (b, r) ∧ (r = [] ∨ peek r 0 = 10) := by
  induction s generalizing a with
  | nil => exact ⟨a, [], rfl, .inl rfl⟩
  | cons c s ih =>
    by_cases hc : c = 10
    · exact ⟨a, c :: s, by rw [skipTrivia_line_cons, if_pos hc], .inr hc⟩
    · obtain ⟨b, r, hb, hr⟩ := ih (a.adv c)
      exact ⟨b, r, by rw [skipTrivia_line_cons, if_neg hc, hb], hr⟩

/-- the first `*/` of a text -/
theorem Closed.split (h : Closed s) :
    ∃ w r, s = w ++ 42 :: 47 :: r ∧ ¬ Closed (w ++ [42]) := by
  induction s with
  | nil => simp [Closed] at h
  | cons c s ih =>
    cases s with
    | nil => exact absurd h not_closed_short
    | cons d s =>
      by_cases hcd : c = 42 ∧ d = 47
      · exact ⟨[], s, by rw [hcd.1, hcd.2]; rfl, not_closed_short⟩
      · obtain ⟨w, r, hw, hn⟩ := ih ((closed_cons.1 h).resolve_left hcd)
        refine ⟨c :: w, r, by rw [hw]; rfl, ?_⟩
        cases w with
        | nil =>
          rw [List.cons_append, List.nil_append, closed_cons]
          simp [not_closed_short]
        | cons x w =>
          rw [List.cons_append] at hw
          rw [List.cons_append, List.cons_append, closed_cons, not_or]
          exact ⟨(List.cons.inj hw).1 ▸ hcd, hn⟩

/-- **What the loops over blanks and comments do**: they come to a comment that is not closed, to
a newline or the end behind a line comment, or to what is neither blank nor comment. -/
theorem skipTrivia_cases (a : Place) (s : Bytes) :
    (∃ w, Gap s (47 :: 42 :: w) ∧ ¬ Closed w) ∨
    (∃ b r, skipTrivia .code a s = some (b, r) ∧ (r = [] ∨ peek r 0 = 10 ∨ Gap s r)) := by
  induction hn : s.length using Nat.strongRecOn generalizing a s with
  | ind n ih =>
    cases s with
    | nil => exact .inr ⟨a, [], rfl, .inl rfl⟩
    | cons c s =>
      by_cases hc : c = 32 ∨ c = 9 ∨ c = 13
      · rw [skipTrivia_blank hc]
        rcases ih s.length (by rw [← hn]; exact Nat.lt_succ_self _) (a.adv c) s rfl with
          ⟨w, hw, hcl⟩ | ⟨b, r, hb, hr⟩
        · exact .inl ⟨w, .blank hc hw, hcl⟩
        · exact .inr ⟨b, r, hb, hr.imp_right (Or.imp_right (.blank hc))⟩
      by_cases hl : (c = 47 ∧ peek s 0 = 47) ∨ (c = 35 ∧ peek s 0 ≠ 91)
      · have hline : skipTrivia .code a (c :: s) = skipTrivia .line (a.adv c) s := by
          rw [skipTrivia.eq_def]
          simp only [if_neg hc]
          rcases hl with h | h
          · exact if_pos h
          · rw [if_neg (by simp [h.1]), if_pos h]
        obtain ⟨b, r, hb, hr⟩ := skipTrivia_line (a.adv c) s
        exact .inr ⟨b, r, hline.trans hb, hr.imp_right Or.inl⟩
      rw [not_or] at hl
      have hrest : ¬ (c = 47 ∧ peek s 0 = 42) → skipTrivia .code a (c :: s) = some (a, c :: s) := by
        intro hb
        rw [skipTrivia.eq_def]
        simp only [if_neg hc, if_neg hl.1, if_neg hl.2]
        cases s with
        | nil => rfl
        | cons d t => exact if_neg hb
      by_cases hb : c = 47 ∧ peek s 0 = 42
      · cases s with
        | nil => exact absurd hb.2 (by decide)
        | cons d t =>
          obtain ⟨rfl, hd⟩ := hb
          change d = 42 at hd
          subst hd
          by_cases ht : Closed t
          · obtain ⟨w, r, rfl, hw⟩ := ht.split
            obtain ⟨b, hb⟩ := skipTrivia_block (s := r) hw ((a.adv 47).adv 42)
            rw [skipTrivia_open, hb]
            have hlt : r.length < n := by
              rw [← hn]
              simp
              omega
            rcases ih r.length hlt b r rfl with ⟨v, hv, hcl⟩ | ⟨b', r', hb', hr'⟩
            · exact .inl ⟨v, .comment hw hv, hcl⟩
            · exact .inr ⟨b', r', hb', hr'.imp_right (Or.imp_right (.comment hw))⟩
          · exact .inl ⟨t, .nil, ht⟩
      · exact .inr ⟨a, c :: s, hrest hb, .inr (.inr .nil)⟩

theorem skipTrivia_comment_none (h : ¬ Closed w) (a : Place) :
    skipTrivia .code a (47 :: 42 :: w) = none := by
  rw [skipTrivia_open, skipTrivia_block_none h]

/-! ## literals in one kind of quotes -/

section
variable (hq : q ≠ 92)
include hq

theorem chars_quote : Chars q (q :: s) (q :: t) ↔ s = t := by
  constructor
  · intro h
    cases h with
    | nil => rfl
    | char hc _ _ => exact absurd rfl hc
    | escape _ => exact absurd rfl hq
  · rintro rfl
    exact .nil

theorem chars_escape : Chars q (92 :: d :: s) (q :: t) ↔ Chars q s (q :: t) := by
  constructor
  · intro h
    cases h with
    | nil => exact absurd rfl hq
    | char _ hc _ => exact absurd rfl hc
    | escape h => exact h
  · exact .escape

theorem not_chars_backslash : ¬ Chars q [92] (q :: t) := by
  intro h
  cases h with
  | nil => exact absurd rfl hq
  | char _ hc _ => exact absurd rfl hc

end

theorem chars_char (hc : c ≠ q) (hb : c ≠ 92) :
    Chars q (c :: s) (q :: t) ↔ Chars q s (q :: t) := by
  constructor
  · intro h
    cases h with
    | nil => exact absurd rfl hc
    | char _ _ h => exact h
    | escape _ => exact absurd rfl hb
  · exact .char hc hb

theorem not_chars_nil : ¬ Chars q [] (q :: t) := by
  intro h
  cases h

/-- a literal ends in one way at most, and at its closing quote the loop is done -/
theorem quote_cases (hq : q ≠ 92) (s : Bytes) :
    (∃ t, (∀ t', Chars q s (q :: t') ↔ t = t') ∧ t.length < s.length ∧
      ∀ n i a, ∃ b, scanStr (.quote q n) i a s = scanStr (.group n) i b t) ∨
    ((∀ t', ¬ Chars q s (q :: t')) ∧ ∀ n i a, scanStr (.quote q n) i a s = none) := by
  induction hn : s.length using Nat.strongRecOn generalizing s with
  | ind n ih =>
    subst hn
    cases s with
    | nil => exact .inr ⟨fun _ => not_chars_nil, fun _ _ _ => rfl⟩
    | cons c s =>
      by_cases hc : c = q
      · subst hc
        exact .inl ⟨s, fun _ => chars_quote hq, Nat.lt_succ_self _,
          fun n i a => ⟨a.adv c, by rw [scanStr.eq_def]; exact if_pos rfl⟩⟩
      by_cases hb : c = 92
      · subst hb
        cases s with
        | nil =>
          exact .inr ⟨fun _ => not_chars_backslash hq,
            fun n i a => by rw [scanStr.eq_def]; exact (if_neg hc).trans (if_pos rfl)⟩
        | cons d s =>
          have hstep : ∀ n i a, scanStr (.quote q n) i a (92 :: d :: s)
              = scanStr (.quote q n) i ((a.adv 92).adv d) s := by
            intro n i a
            rw [scanStr.eq_def]
            exact (if_neg hc).trans (if_pos rfl)
          simp only [chars_escape hq, hstep]
          have hlt : s.length < (92 :: d :: s).length := by simp
          rcases ih _ hlt s rfl with ⟨t, ht, hl, h⟩ | ⟨ht, h⟩
          · exact .inl ⟨t, ht, hl.trans hlt, fun n i a => h n i _⟩
          · exact .inr ⟨ht, fun n i a => h n i _⟩
      · have hstep : ∀ n i a, scanStr (.quote q n) i a (c :: s)
            = scanStr (.quote q n) i (a.adv c) s := by
          intro n i a
          rw [scanStr.eq_def]
          exact (if_neg hc).trans (if_neg hb)
        simp only [chars_char hc hb, hstep]
        have hlt : s.length < (c :: s).length := Nat.lt_succ_self _
        rcases ih _ hlt s rfl with ⟨t, ht, hl, h⟩ | ⟨ht, h⟩
        · exact .inl ⟨t, ht, hl.trans hlt, fun n i a => h n i _⟩
        · exact .inr ⟨ht, fun n i a => h n i _⟩

/-- a literal in single quotes: the loop is over at a backslash that is the last character, at the
end or at the closing quote -/
theorem scanRaw_cases (a : Place) (s : Bytes) :
    (Chars 39 s [92] ∧ scanRaw a s = none) ∨
    (∃ b t, Chars 39 s t ∧ (t = [] ∨ ∃ r, t = 39 :: r) ∧ scanRaw a s = some (b, t)) := by
  induction hn : s.length using Nat.strongRecOn generalizing a s with
  | ind n ih =>
    subst hn
    cases s with
    | nil => exact .inr ⟨a, [], .nil, .inl rfl, rfl⟩
    | cons c s =>
      by_cases hc : c = 39
      · subst hc
        exact .inr ⟨a, 39 :: s, .nil, .inr ⟨s, rfl⟩, by rw [scanRaw.eq_def]; rfl⟩
      by_cases hb : c = 92
      · subst hb
        cases s with
        | nil => exact .inl ⟨.nil, rfl⟩
        | cons d s =>
          have hstep : scanRaw a (92 :: d :: s) = scanRaw ((a.adv 92).adv d) s := by
            rw [scanRaw.eq_def]
            rfl
          rw [hstep]
          rcases ih _ (by simp) ((a.adv 92).adv d) s rfl with ⟨h, h'⟩ | ⟨b, t, h, h'⟩
          · exact .inl ⟨.escape h, h'⟩
          · exact .inr ⟨b, t, .escape h, h'⟩
      · have hstep : scanRaw a (c :: s) = scanRaw (a.adv c) s := by
          rw [scanRaw.eq_def]
          exact (if_neg hc).trans (if_neg hb)
        rw [hstep]
        rcases ih _ (Nat.lt_succ_self _) (a.adv c) s rfl with ⟨h, h'⟩ | ⟨b, t, h, h'⟩
        · exact .inl ⟨.char hc hb h, h'⟩
        · exact .inr ⟨b, t, .char hc hb h, h'⟩

theorem Chars.raw (h : Chars 39 s u) (a : Place) : ∃ b, scanRaw a s = scanRaw b u := by
  induction h generalizing a with
  | nil => exact ⟨a, rfl⟩
  | char hc hb _ ih =>
    obtain ⟨b, h⟩ := ih (a.adv _)
    exact ⟨b, by rw [← h, scanRaw.eq_def]; exact (if_neg hc).trans (if_neg hb)⟩
  | @escape d _ _ _ ih =>
    obtain ⟨b, h⟩ := ih ((a.adv 92).adv d)
    exact ⟨b, by rw [← h, scanRaw.eq_def]; rfl⟩

/-! ## groups -/

/-- so many groups are closed, one after the other -/
def ClosesN : Nat → Bytes → Bytes → Prop
  | 0, s, u => s = u
  | n + 1, s, u => ∃ t, Closes s t ∧ ClosesN n t u

section
variable {n : Nat}

theorem not_closesN_nil : ¬ ClosesN (n + 1) [] u := by
  rintro ⟨_, h, _⟩
  cases h

theorem closesN_close : ClosesN (n + 1) (125 :: s) u ↔ ClosesN n s u := by
  constructor
  · rintro ⟨t, h, ht⟩
    cases h with
    | nil => exact ht
    | char _ _ _ hc _ => exact absurd rfl hc
    | quote hq _ _ => exact absurd hq (by decide)
  · exact fun h => ⟨s, .nil, h⟩

theorem closesN_open : ClosesN (n + 1) (123 :: s) u ↔ ClosesN (n + 2) s u := by
  constructor
  · rintro ⟨t, h, ht⟩
    cases h with
    | char _ _ hc _ _ => exact absurd rfl hc
    | quote hq _ _ => exact absurd hq (by decide)
    | braces h h' => exact ⟨_, h, t, h', ht⟩
  · rintro ⟨t, h, t', h', ht⟩
    exact ⟨t', .braces h h', ht⟩

theorem closesN_char (h34 : c ≠ 34) (h39 : c ≠ 39) (h123 : c ≠ 123) (h125 : c ≠ 125) :
    ClosesN (n + 1) (c :: s) u ↔ ClosesN (n + 1) s u := by
  constructor
  · rintro ⟨t, h, ht⟩
    cases h with
    | nil => exact absurd rfl h125
    | char _ _ _ _ h => exact ⟨t, h, ht⟩
    | quote hq _ _ => exact absurd hq (by simp [h34, h39])
    | braces _ _ => exact absurd rfl h123
  · rintro ⟨t, h, ht⟩
    exact ⟨t, .char h34 h39 h123 h125 h, ht⟩

theorem closesN_quote (hq : q = 34 ∨ q = 39) :
    ClosesN (n + 1) (q :: s) u ↔ ∃ v, Chars q s (q :: v) ∧ ClosesN (n + 1) v u := by
  constructor
  · rintro ⟨t, h, ht⟩
    cases h with
    | nil => exact absurd hq (by decide)
    | char h34 h39 _ _ _ => exact absurd hq (by simp [h34, h39])
    | quote _ hv h => exact ⟨_, hv, t, h, ht⟩
    | braces _ _ => exact absurd hq (by decide)
  · rintro ⟨v, hv, t, h, ht⟩
    exact ⟨t, .quote hq hv h, ht⟩

/-- **The loop over a group**: it is left behind the brace that closes the group, or it comes to
the end and `adv` is called there. -/
theorem group_cases (n : Nat) (s : Bytes) :
    (∃ t, (∀ t', ClosesN (n + 1) s t' ↔ t = t') ∧ t.length < s.length ∧
      ∀ i a, ∃ b, scanStr (.group (n + 1)) i a s = scanStr .body i b t) ∨
    ((∀ t', ¬ ClosesN (n + 1) s t') ∧ ∀ i a, scanStr (.group (n + 1)) i a s = none) := by
  induction hl : s.length using Nat.strongRecOn generalizing n s with
  | ind l ih =>
    subst hl
    cases s with
    | nil => exact .inr ⟨fun _ => not_closesN_nil, fun _ _ => rfl⟩
    | cons c s =>
      have hlt : s.length < (c :: s).length := Nat.lt_succ_self _
      by_cases hq : c = 34 ∨ c = 39
      · have hstep : ∀ i a, scanStr (.group (n + 1)) i a (c :: s)
            = scanStr (.quote c (n + 1)) i (a.adv c) s := by
          intro i a
          rw [scanStr.eq_def]
          exact if_pos hq
        simp only [closesN_quote hq, hstep]
        have h92 : c ≠ 92 := by rcases hq with rfl | rfl <;> decide
        rcases quote_cases h92 s with ⟨v, hv, hvl, h⟩ | ⟨hv, h⟩
        · have hex : ∀ t', (∃ v, Chars c s (c :: v) ∧ ClosesN (n + 1) v t') ↔
              ClosesN (n + 1) v t' := by
            intro t'
            simp only [hv]
            simp
          simp only [hex]
          rcases ih _ (hvl.trans hlt) n v rfl with ⟨t, ht, htl, h'⟩ | ⟨ht, h'⟩
          · refine .inl ⟨t, ht, htl.trans (hvl.trans hlt), fun i a => ?_⟩
            obtain ⟨b, hb⟩ := h (n + 1) i (a.adv c)
            obtain ⟨b', hb'⟩ := h' i b
            exact ⟨b', hb.trans hb'⟩
          · refine .inr ⟨ht, fun i a => ?_⟩
            obtain ⟨b, hb⟩ := h (n + 1) i (a.adv c)
            exact hb.trans (h' i b)
        · exact .inr ⟨fun t' ⟨v, hv', _⟩ => hv v hv', fun i a => h _ i _⟩
      by_cases h123 : c = 123
      · subst h123
        have hstep : ∀ i a, scanStr (.group (n + 1)) i a (123 :: s)
            = scanStr (.group (n + 2)) i (a.adv 123) s := by
          intro i a
          rw [scanStr.eq_def]
          exact (if_neg hq).trans (if_pos rfl)
        simp only [closesN_open, hstep]
        rcases ih _ hlt (n + 1) s rfl with ⟨t, ht, htl, h⟩ | ⟨ht, h⟩
        · exact .inl ⟨t, ht, htl.trans hlt, fun i a => h i _⟩
        · exact .inr ⟨ht, fun i a => h i _⟩
      by_cases h125 : c = 125
      · subst h125
        simp only [closesN_close]
        cases n with
        | zero =>
          exact .inl ⟨s, fun _ => Iff.rfl, hlt, fun i a => ⟨a.adv 125, by
            rw [scanStr.eq_def]
            exact (if_neg hq).trans ((if_neg h123).trans ((if_pos rfl).trans (if_pos rfl)))⟩⟩
        | succ n =>
          have hstep : ∀ i a, scanStr (.group (n + 1 + 1)) i a (125 :: s)
              = scanStr (.group (n + 1)) i (a.adv 125) s := by
            intro i a
            rw [scanStr.eq_def]
            exact (if_neg hq).trans ((if_neg h123).trans ((if_pos rfl).trans (if_neg (by omega))))
          simp only [hstep]
          rcases ih _ hlt n s rfl with ⟨t, ht, htl, h⟩ | ⟨ht, h⟩
          · exact .inl ⟨t, ht, htl.trans hlt, fun i a => h i _⟩
          · exact .inr ⟨ht, fun i a => h i _⟩
      · have hstep : ∀ i a, scanStr (.group (n + 1)) i a (c :: s)
            = scanStr (.group (n + 1)) i (a.adv c) s := by
          intro i a
          rw [scanStr.eq_def]
          exact (if_neg hq).trans ((if_neg h123).trans (if_neg h125))
        rw [not_or] at hq
        simp only [closesN_char hq.1 hq.2 h123 h125, hstep]
        rcases ih _ hlt n s rfl with ⟨t, ht, htl, h⟩ | ⟨ht, h⟩
        · exact .inl ⟨t, ht, htl.trans hlt, fun i a => h i _⟩
        · exact .inr ⟨ht, fun i a => h i _⟩

theorem closesN_one : ClosesN 1 s u ↔ Closes s u := by
  constructor
  · rintro ⟨t, h, rfl⟩
    exact h
  · exact fun h => ⟨u, h, rfl⟩

end

/-! ## the body -/

theorem scanStr_escape {i : Bool} :
    scanStr .body i a (92 :: d :: s) = scanStr .body i ((a.adv 92).adv d) s := rfl

theorem scanStr_body {i : Bool} (h92 : c ≠ 92) : scanStr .body i a (c :: s)
    = if c = 34 then some (i, a, c :: s)
      else if c = 123 ∧ peek s 0 = 36 then scanStr (.group 1) true (a.adv c) s
      else scanStr .body (i || (c == 36 && startsName (peek s 0))) (a.adv c) s := by
  rw [scanStr.eq_def]
  simp only [if_neg h92]

theorem scanStr_group {i : Bool} (h : peek s 0 = 36) :
    scanStr .body i a (123 :: s) = scanStr (.group 1) true (a.adv 123) s := by
  rw [scanStr_body (by decide), if_neg (by decide), if_pos ⟨rfl, h⟩]

theorem scanStr_quote {i : Bool} : scanStr .body i a (34 :: s) = some (i, a, 34 :: s) := by
  rw [scanStr_body (by decide), if_pos rfl]

theorem scanStr_char {i : Bool} (h34 : c ≠ 34) (h92 : c ≠ 92) (h : ¬ (c = 123 ∧ peek s 0 = 36)) :
    scanStr .body i a (c :: s)
      = scanStr .body (i || (c == 36 && startsName (peek s 0))) (a.adv c) s := by
  rw [scanStr_body h92, if_neg h34, if_neg h]

theorem Closes.scan (h : Closes s u) (i : Bool) (a : Place) :
    ∃ b, scanStr (.group 1) i a s = scanStr .body i b u := by
  rcases group_cases 0 s with ⟨t, ht, -, h'⟩ | ⟨ht, -⟩
  · rw [← (ht u).1 (closesN_one.2 h)]
    exact h' i a
  · exact absurd (closesN_one.2 h) (ht u)

theorem Body.scan {gs : List Bytes} (h : Body s gs u) (i : Bool) (a : Place) :
    ∃ j b, scanStr .body i a s = scanStr .body j b u := by
  induction h generalizing i a with
  | nil => exact ⟨i, a, rfl⟩
  | char h34 h92 hg _ ih =>
    rw [scanStr_char h34 h92 hg]
    exact ih _ _
  | escape _ ih =>
    rw [scanStr_escape]
    exact ih _ _
  | @group e s u gs hp hc _ ih =>
    have hp' : peek (e ++ 125 :: s) 0 = 36 := by
      cases e with
      | nil => exact absurd hp (by decide)
      | cons x e => exact hp
    obtain ⟨b, hb⟩ := hc.scan true (a.adv 123)
    rw [scanStr_group hp', hb]
    exact ih _ _

theorem Chars.suffix (h : Chars q s u) : u <:+ s := by
  induction h with
  | nil => exact List.suffix_refl _
  | char _ _ _ ih => exact ih.trans (List.suffix_cons _ _)
  | escape _ ih => exact ih.trans ((List.suffix_cons _ _).trans (List.suffix_cons _ _))

theorem Nested.suffix (h : Nested s u) : u <:+ s := by
  induction h with
  | nil => exact List.suffix_refl _
  | char _ _ _ _ _ ih => exact ih.trans (List.suffix_cons _ _)
  | quote _ hc _ ih =>
    exact ih.trans ((List.suffix_cons _ _).trans (hc.suffix.trans (List.suffix_cons _ _)))
  | braces _ _ ih ih' =>
    exact ih'.trans ((List.suffix_cons _ _).trans (ih.trans (List.suffix_cons _ _)))

theorem Closes.split (h : Closes s u) : ∃ e, s = e ++ 125 :: u :=
  (Nested.suffix h).imp fun _ he => he.symm

theorem Body.append {gs gs' : List Bytes} (h : Body s gs u) (h' : Body u gs' t) :
    Body s (gs ++ gs') t := by
  induction h with
  | nil => exact h'
  | char h34 h92 hg _ ih => exact .char h34 h92 hg (ih h')
  | escape _ ih => exact .escape (ih h')
  | group hp hc _ ih => exact .group hp hc (ih h')

/-- **What the loop over the body comes to**: a group that is not closed, the end, a backslash that
is the last character, or the closing quote. -/
theorem body_cases (s : Bytes) :
    OpenGroup s ∨ ∃ gs t, Body s gs t ∧ (t = [] ∨ t = [92] ∨ ∃ r, t = 34 :: r) := by
  have hcons : ∀ {s t : Bytes} {gs : List Bytes}, Body s gs t →
      (OpenGroup t ∨ ∃ gs' u, Body t gs' u ∧ (u = [] ∨ u = [92] ∨ ∃ r, u = 34 :: r)) →
      OpenGroup s ∨ ∃ gs u, Body s gs u ∧ (u = [] ∨ u = [92] ∨ ∃ r, u = 34 :: r) := by
    rintro s t gs h (⟨gs', v, hv, hp⟩ | ⟨gs', u, hu, hend⟩)
    · exact .inl ⟨_, v, h.append hv, hp⟩
    · exact .inr ⟨_, u, h.append hu, hend⟩
  induction hl : s.length using Nat.strongRecOn generalizing s with
  | ind l ih =>
    subst hl
    cases s with
    | nil => exact .inr ⟨[], [], .nil, .inl rfl⟩
    | cons c s =>
      have hlt : s.length < (c :: s).length := Nat.lt_succ_self _
      by_cases h34 : c = 34
      · subst h34
        exact .inr ⟨[], 34 :: s, .nil, .inr (.inr ⟨s, rfl⟩)⟩
      by_cases h92 : c = 92
      · subst h92
        cases s with
        | nil => exact .inr ⟨[], [92], .nil, .inr (.inl rfl)⟩
        | cons d s => exact hcons (.escape .nil) (ih _ (by simp) s rfl)
      by_cases hg : c = 123 ∧ peek s 0 = 36
      · obtain ⟨rfl, hp⟩ := hg
        rcases group_cases 0 s with ⟨t, ht, htl, -⟩ | ⟨ht, -⟩
        · have hc : Closes s t := closesN_one.1 ((ht t).2 rfl)
          obtain ⟨e, rfl⟩ := hc.split
          have hp' : peek e 0 = 36 := by
            cases e with
            | nil => exact absurd (show (125 : UInt8) = 36 from hp) (by decide)
            | cons x e => exact hp
          exact hcons (.group hp' hc .nil) (ih _ (htl.trans hlt) t rfl)
        · exact .inl ⟨[], s, .nil, hp, fun ⟨u, hu⟩ => ht u (closesN_one.2 hu)⟩
      · exact hcons (.char h34 h92 hg .nil) (ih _ hlt s rfl)

theorem OpenGroup.scan (h : OpenGroup s) (i : Bool) (a : Place) : scanStr .body i a s = none := by
  obtain ⟨gs, t, hb, hp, hn⟩ := h
  obtain ⟨j, b, hs⟩ := hb.scan i a
  rw [hs, scanStr_group hp]
  rcases group_cases 0 t with ⟨u, hu, -, -⟩ | ⟨-, h'⟩
  · exact absurd ⟨u, closesN_one.1 ((hu u).2 rfl)⟩ hn
  · exact h' true _

/-- **A literal that is not over**: `scanStr` stops in front of the closing quote, or at the end. -/
theorem scanStr_cases (s : Bytes) (i : Bool) (a : Place) :
    (OpenGroup s ∧ scanStr .body i a s = none) ∨
    ∃ j b, (∃ gs r, Body s gs (34 :: r) ∧ scanStr .body i a s = some (j, b, 34 :: r)) ∨
      scanStr .body i a s = some (j, b, []) := by
  rcases body_cases s with h | ⟨gs, t, hb, ht⟩
  · exact .inl ⟨h, h.scan i a⟩
  · obtain ⟨j, b, hs⟩ := hb.scan i a
    refine .inr ?_
    rcases ht with rfl | rfl | ⟨r, rfl⟩
    · exact ⟨j, b, .inr hs⟩
    · exact ⟨j, b.adv 92, .inr hs⟩
    · exact ⟨j, b, .inl ⟨gs, r, hb, hs.trans scanStr_quote⟩⟩

end

end Lexer
end HolyPhp
