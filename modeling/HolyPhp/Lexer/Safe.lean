import HolyPhp.Lexer.Literal
import HolyPhp.Lib.Runs

/-!
# The lexer and the end of its text

* `Goes`              characters are read, and `pos` counts them;
* `lexNext_goes`      a call of `lex_next` that returns a token reads at least one character;
* `Unsafe`            what leads a call behind the terminator (`lexNext_over`);
* `lexer`             the calls of `lex_all`, one after the other;
* `lexRaw_inside`     **`lex_all` returns, and when it stays inside its text.**
-/

set_option autoImplicit false

namespace HolyPhp
namespace Lexer

variable {a b : Place} {c : UInt8} {s r u w : Bytes} {strtod : Bytes → Double}

/-! ## progress -/

/-- from the cursor `a` with `s` in front of it to the cursor `b` with `r` -/
def Goes (a : Place) (s : Bytes) (b : Place) (r : Bytes) : Prop :=
  ∃ w, s = w ++ r ∧ b.pos = a.pos + w.length

@[simp] theorem adv_pos : (a.adv c).pos = a.pos + 1 := by
  unfold Place.adv
  split <;> rfl

theorem advs_pos (a : Place) (w : Bytes) : (a.advs w).pos = a.pos + w.length := by
  induction w generalizing a with
  | nil => rfl
  | cons c w ih =>
    show ((a.adv c).advs w).pos = _
    rw [ih, adv_pos, List.length_cons]
    omega

theorem Goes.refl : Goes a s a s := ⟨[], rfl, rfl⟩

theorem Goes.trans {d : Place} (h : Goes a s b r) (h' : Goes b r d u) : Goes a s d u := by
  obtain ⟨w, rfl, hb⟩ := h
  obtain ⟨v, rfl, hd⟩ := h'
  exact ⟨w ++ v, (List.append_assoc w v u).symm, by rw [hd, hb, List.length_append]; omega⟩

theorem Goes.adv : Goes a (c :: s) (a.adv c) s := ⟨[c], rfl, adv_pos⟩

theorem Goes.cons (h : Goes (a.adv c) s b r) : Goes a (c :: s) b r := Goes.adv.trans h

theorem Goes.le (h : Goes a s b r) : r.length ≤ s.length := by
  obtain ⟨w, rfl, -⟩ := h
  rw [List.length_append]
  exact Nat.le_add_left _ _

theorem Goes.sum (h : Goes a s b r) : b.pos + r.length = a.pos + s.length := by
  obtain ⟨w, rfl, hb⟩ := h
  rw [hb, List.length_append]
  omega

theorem advWhile_goes (p : UInt8 → Bool) (a : Place) (s : Bytes) :
    Goes a s (advWhile p a s).1 (advWhile p a s).2 := by
  induction s generalizing a with
  | nil => exact .refl
  | cons c s ih =>
    unfold advWhile
    split
    · exact (ih _).cons
    · exact .refl

theorem advWhile_lt {p : UInt8 → Bool} (h : p c = true) (a : Place) (s : Bytes) :
    (advWhile p a (c :: s)).2.length < (c :: s).length := by
  unfold advWhile
  rw [if_pos h]
  exact Nat.lt_succ_of_le (advWhile_goes p _ s).le

/-- `advWhile` stops in front of `r` -/
theorem advWhile_append {p : UInt8 → Bool} (hw : ∀ c ∈ w, p c = true) (hr : p (peek r 0) = false) (a : Place) :
    ∃ b, advWhile p a (w ++ r) = (b, r) := by
  induction w generalizing a with
  | nil =>
    cases r with
    | nil => exact ⟨a, rfl⟩
    | cons c r => exact ⟨a, if_neg (by rw [show p c = false from hr]; decide)⟩
  | cons c w ih =>
    obtain ⟨b, hb⟩ := ih (fun d hd => hw d (List.mem_cons_of_mem c hd)) (a.adv c)
    refine ⟨b, ?_⟩
    rw [List.cons_append, advWhile, if_pos (hw c List.mem_cons_self), hb]

theorem skipTrivia_goes {m : Trivia} (h : skipTrivia m a s = some (b, r)) : Goes a s b r := by
  fun_induction skipTrivia m a s with
  | case1 a => cases h; exact .refl
  | case2 a c s hc ih => exact (ih h).cons
  | case3 a c s hc hl ih => exact (ih h).cons
  | case4 a c s hc hl hl' ih => exact (ih h).cons
  | case5 a c hc d t hl hl' hb ih => exact (ih h).cons.cons
  | case6 a c hc d t hl hl' hb => cases h; exact .refl
  | case7 a c hc hl hl' => cases h; exact .refl
  | case8 a => cases h; exact .refl
  | case9 a s => cases h; exact .refl
  | case10 a c s hc ih => exact (ih h).cons
  | case11 => cases h
  | case12 a c d t hb ih => exact (ih h).cons.cons
  | case13 a c d t hb ih => exact (ih h).cons
  | case14 a c ih => exact (ih h).cons

theorem scanStr_goes {m : StrLoop} {i j : Bool} (h : scanStr m i a s = some (j, b, r)) :
    Goes a s b r := by
  fun_induction scanStr m i a s with
  | case1 => cases h; exact .refl
  | case2 => cases h; exact .refl
  | case3 => cases h; exact .adv
  | case4 _ _ _ _ _ ih => exact (ih h).cons.cons
  | case5 _ _ _ _ _ _ _ ih => exact (ih h).cons
  | case6 _ _ _ _ _ _ _ ih => exact (ih h).cons
  | case7 => cases h
  | case8 _ _ _ _ _ _ ih => exact (ih h).cons
  | case9 _ _ _ _ _ ih => exact (ih h).cons
  | case10 _ _ _ _ _ ih => exact (ih h).cons
  | case11 _ _ _ _ _ _ _ ih => exact (ih h).cons
  | case12 _ _ _ _ _ _ _ _ ih => exact (ih h).cons
  | case13 => cases h
  | case14 _ _ _ _ _ ih => exact (ih h).cons
  | case15 => cases h
  | case16 _ _ _ _ _ _ _ ih => exact (ih h).cons.cons
  | case17 _ _ _ _ _ _ _ _ ih => exact (ih h).cons

theorem scanRaw_goes (h : scanRaw a s = some (b, r)) : Goes a s b r := by
  fun_induction scanRaw a s with
  | case1 => cases h; exact .refl
  | case2 => cases h; exact .refl
  | case3 => cases h
  | case4 _ _ _ _ ih => exact (ih h).cons.cons
  | case5 _ _ _ _ _ ih => exact (ih h).cons

/-! ## numbers -/

theorem peek_ne (k : Nat) (h : peek s k ≠ 0) : k < s.length := by
  by_contra hk
  exact h (by simp [peek, List.getElem?_eq_none (Nat.le_of_not_lt hk)])

theorem lexExponent_goes (a : Place) (s : Bytes) :
    Goes a s (lexExponent a s).2.1 (lexExponent a s).2.2 := by
  unfold lexExponent
  cases s with
  | nil => exact .refl
  | cons e t =>
    simp only
    split
    · cases t with
      | nil =>
        simp only
        split
        next h => exact absurd h (by decide)
        · exact ⟨[], rfl, rfl⟩
      | cons g u =>
        simp only
        split <;> simp only <;> split
        · exact (advWhile_goes _ _ _).cons.cons
        · exact ⟨[], rfl, rfl⟩
        · exact (advWhile_goes _ _ _).cons
        · exact ⟨[], rfl, rfl⟩
    · exact .refl

theorem lexFraction_goes (a : Place) (s : Bytes) :
    Goes a s (lexFraction a s).2.1 (lexFraction a s).2.2 := by
  unfold lexFraction
  split
  next h =>
    cases s with
    | nil => exact absurd h.1 (by decide)
    | cons x s =>
      rw [← show x = 46 from h.1]
      exact (advWhile_goes _ _ _).cons
  · exact .refl

theorem goes_two {d : UInt8} (hc : peek s 0 = c) (hd : peek s 1 = d) (h0 : d ≠ 0) :
    Goes a s ((a.adv c).adv d) (s.drop 2) ∧ (s.drop 2).length < s.length := by
  have hl : 1 < s.length := peek_ne 1 (by rw [hd]; exact h0)
  match s, hl with
  | x :: y :: t, _ =>
    rw [← show x = c from hc, ← show y = d from hd]
    exact ⟨Goes.adv.cons, by simp⟩

/-- **A number** has at least one character. -/
theorem lexNumber_goes {s : Bytes} (h : isDigit c || (c == 46 && isDigit (peek s 0))) (a : Place) :
    Goes a (c :: s) (lexNumber strtod a (c :: s)).place (lexNumber strtod a (c :: s)).rest ∧
      (lexNumber strtod a (c :: s)).rest.length < (c :: s).length := by
  have hbase : ∀ p, peek (c :: s) 1 ≠ 0 →
      let d := advWhile p ((a.adv (peek (c :: s) 0)).adv (peek (c :: s) 1)) ((c :: s).drop 2)
      Goes a (c :: s) d.1 d.2 ∧ d.2.length < (c :: s).length := by
    intro p h1
    obtain ⟨h2, h3⟩ := goes_two (a := a) rfl rfl h1
    exact ⟨h2.trans (advWhile_goes p _ _), (advWhile_goes p _ _).le.trans_lt h3⟩
  unfold lexNumber
  split
  next hx =>
    exact hbase isXdigit (by rcases hx.2 with h | h <;> rw [h] <;> decide)
  split
  next hb =>
    exact hbase _ (by rcases hb.2 with h | h <;> rw [h] <;> decide)
  have h1 := advWhile_goes digitOrLine a (c :: s)
  have h2 := lexFraction_goes (advWhile digitOrLine a (c :: s)).1
    (advWhile digitOrLine a (c :: s)).2
  have h3 := lexExponent_goes
    (lexFraction (advWhile digitOrLine a (c :: s)).1 (advWhile digitOrLine a (c :: s)).2).2.1
    (lexFraction (advWhile digitOrLine a (c :: s)).1 (advWhile digitOrLine a (c :: s)).2).2.2
  have hlt : (lexFraction (advWhile digitOrLine a (c :: s)).1
      (advWhile digitOrLine a (c :: s)).2).2.2.length < (c :: s).length := by
    by_cases hd : isDigit c = true
    · exact h2.le.trans_lt (advWhile_lt (by simp [digitOrLine, hd]) a s)
    · -- no digit is in front of the point
      simp [hd] at h
      obtain ⟨rfl, h⟩ := h
      have hno : advWhile digitOrLine a (46 :: s) = (a, 46 :: s) := by
        unfold advWhile
        exact if_neg (by decide)
      rw [hno, lexFraction, if_pos ⟨rfl, h⟩]
      exact Nat.lt_succ_of_le (advWhile_goes _ _ _).le
  dsimp only
  split
  · exact ⟨h1.trans (h2.trans h3), h3.le.trans_lt hlt⟩
  · exact ⟨h1.trans (h2.trans h3), h3.le.trans_lt hlt⟩

/-! ## one token -/

theorem goes_take (n : Nat) : Goes (a.adv c) s ((a.adv c).advs (s.take n)) (s.drop n) :=
  ⟨s.take n, (List.take_append_drop n s).symm, advs_pos _ _⟩

/-- the characters behind the first one of a punctuation mark are there -/
def Fits (s : Bytes) (o : Option (TokKind × Nat)) : Prop :=
  ∀ k n, o = some (k, n) → n ≤ s.length

theorem fits_ite {p : Prop} [Decidable p] {x y : Option (TokKind × Nat)} (hx : p → Fits s x)
    (hy : Fits s y) : Fits s (if p then x else y) := by
  split
  next h => exact hx h
  · exact hy

theorem fits_some {k : TokKind} {n : Nat} (h : n ≤ s.length) : Fits s (some (k, n)) := by
  intro k' n' he
  cases he
  exact h

theorem le_of_peek {n : Nat} {d : UInt8} (h : peek s n = d) (h0 : d ≠ 0) : n + 1 ≤ s.length :=
  peek_ne n (h ▸ h0)

/-- every `adv` for a punctuation mark is at a character that was compared -/
theorem punct_fits (c : UInt8) (s : Bytes) : Fits s (punct c s) := by
  unfold punct
  repeat' refine fits_ite (fun _ => ?_) ?_
  all_goals first
    | exact fits_some (Nat.zero_le _)
    | exact fits_some (le_of_peek (n := 1) (by assumption) (by decide))
    | exact fits_some (le_of_peek (n := 0) (by assumption) (by decide))
    | exact fun _ _ h => nomatch h

theorem inName_of_startsName (h : startsName c) : inName c := by
  simp only [startsName, Bool.or_eq_true] at h
  rcases h with h | h <;> simp [inName, h]

/-- **A token** has at least one character. -/
theorem lexToken_goes {n : Next} (h : lexToken strtod a c s = .ok n) :
    Goes a (c :: s) n.place n.rest ∧ n.rest.length < (c :: s).length ∧ n.more = true := by
  have hstr : ∀ {x : Place} {d : UInt8} {r : Bytes}, Goes (a.adv c) s x (d :: r) →
      Goes a (c :: s) (x.adv d) r ∧ r.length < (c :: s).length := by
    intro x d r hg
    refine ⟨hg.cons.trans .adv, ?_⟩
    have hle := hg.cons.le
    exact (Nat.lt_succ_self _).trans_le hle
  unfold lexToken at h
  split at h
  next hn =>
    cases h
    exact ⟨advWhile_goes _ _ _, advWhile_lt (inName_of_startsName hn) a s, rfl⟩
  split at h
  next hd =>
    cases h
    exact ⟨(lexNumber_goes hd a).1, (lexNumber_goes hd a).2, rfl⟩
  split at h
  · split at h
    · cases h
    · cases h
    next hs =>
      obtain ⟨hg, hlt⟩ := hstr (scanStr_goes hs)
      split at h <;> cases h <;> exact ⟨hg, hlt, rfl⟩
  split at h
  · split at h
    · cases h
    · cases h
    next hs =>
      obtain ⟨hg, hlt⟩ := hstr (scanRaw_goes hs)
      cases h
      exact ⟨hg, hlt, rfl⟩
  split at h
  · split at h
    · cases h
      exact ⟨(advWhile_goes _ _ _).cons, Nat.lt_succ_of_le (advWhile_goes _ _ _).le, rfl⟩
    · cases h
  · split at h
    · cases h
    next k m hp =>
      cases h
      refine ⟨(goes_take m).cons, ?_, rfl⟩
      rw [List.length_drop, List.length_cons]
      omega

/-- **A call of `lex_next`** that returns reads a token, or it is at the end. -/
theorem lexNext_goes {n : Next} (h : lexNext strtod a s = .ok n) :
    Goes a s n.place n.rest ∧ ((n.more = true ∧ n.rest.length < s.length) ∨
      (n.more = false ∧ n.tok.kind = .eof ∧ n.rest = [])) := by
  unfold lexNext at h
  split at h
  · cases h
  next b hb =>
    cases h
    exact ⟨skipTrivia_goes hb, .inr ⟨rfl, rfl, rfl⟩⟩
  next b c r hb =>
    obtain ⟨hg, hlt, hm⟩ := lexToken_goes h
    have hs := skipTrivia_goes hb
    exact ⟨hs.trans hg, .inl ⟨hm, hlt.trans_le hs.le⟩⟩

/-! ## where a call leaves the text -/

/-- behind blanks and closed comments there is a comment without its end, a literal in double
quotes with a group that is not closed, or one in single quotes whose last character is a backslash -/
def Unsafe (s : Bytes) : Prop :=
  (∃ w, Gap s (47 :: 42 :: w) ∧ ¬ Closed w) ∨ (∃ w, Gap s (34 :: w) ∧ OpenGroup w) ∨
    ∃ w, Gap s (39 :: w) ∧ Chars 39 w [92]

theorem lexToken_over :
    lexToken strtod a c s = .error .over ↔ (c = 34 ∧ OpenGroup s) ∨ (c = 39 ∧ Chars 39 s [92]) := by
  by_cases h34 : c = 34
  · subst h34
    have hq : lexToken strtod a 34 s = .error .over ↔ scanStr .body false (a.adv 34) s = none := by
      rw [lexToken, if_neg (by decide), if_neg (by simp [isDigit]), if_pos rfl]
      split
      next h => simp [h]
      next h => simp [h]
      next h =>
        rw [h]
        split <;> simp
    rw [hq]
    rcases scanStr_cases s false (a.adv 34) with ⟨h, h'⟩ | ⟨j, b, h⟩
    · simp [h, h']
    · have hn : ¬ OpenGroup s := by
        intro ho
        rw [ho.scan] at h
        rcases h with ⟨_, _, _, h⟩ | h <;> cases h
      rcases h with ⟨_, _, _, h⟩ | h <;> simp [h, hn]
  by_cases h39 : c = 39
  · subst h39
    have hq : lexToken strtod a 39 s = .error .over ↔ scanRaw (a.adv 39) s = none := by
      rw [lexToken, if_neg (by decide), if_neg (by simp [isDigit]), if_neg (by decide), if_pos rfl]
      split <;> simp_all
    rw [hq]
    rcases scanRaw_cases (a.adv 39) s with ⟨h, h'⟩ | ⟨b, t, h, ht, h'⟩
    · simp [h, h']
    · have hn : ¬ Chars 39 s [92] := by
        intro hc
        obtain ⟨b', hb⟩ := hc.raw (a.adv 39)
        rw [hb] at h'
        cases h'
      simp [h', hn]
  · rw [lexToken, if_neg h34, if_neg h39]
    simp only [h34, h39, false_and, or_self, iff_false]
    split
    · nofun
    split
    · nofun
    split
    · split <;> nofun
    · split <;> nofun

/-- **A call leaves its text** exactly where `Unsafe` says. -/
theorem lexNext_over : lexNext strtod a s = .error .over ↔ Unsafe s := by
  constructor
  · intro h
    rcases skipTrivia_cases a s with ⟨w, hg, hw⟩ | ⟨b, r, hb, hr⟩
    · exact .inl ⟨w, hg, hw⟩
    · rw [lexNext, hb] at h
      cases r with
      | nil => cases h
      | cons c r =>
        have hc := lexToken_over.1 h
        rcases hr with hr | hr | hr
        · cases hr
        · rcases hc with ⟨rfl, -⟩ | ⟨rfl, -⟩ <;> exact absurd hr (by simp [peek])
        · rcases hc with ⟨rfl, hc⟩ | ⟨rfl, hc⟩
          · exact .inr (.inl ⟨r, hr, hc⟩)
          · exact .inr (.inr ⟨r, hr, hc⟩)
  · rintro (⟨w, hg, hw⟩ | ⟨w, hg, hw⟩ | ⟨w, hg, hw⟩) <;> obtain ⟨b, hb⟩ := hg.skip a
    · rw [lexNext, hb, skipTrivia_comment_none hw]
    · have hstop : skipTrivia .code b (34 :: w) = some (b, 34 :: w) := by cases w <;> rfl
      rw [lexNext, hb, hstop]
      exact lexToken_over.2 (.inl ⟨rfl, hw⟩)
    · have hstop : skipTrivia .code b (39 :: w) = some (b, 39 :: w) := by cases w <;> rfl
      rw [lexNext, hb, hstop]
      exact lexToken_over.2 (.inr ⟨rfl, hw⟩)

/-! ## all calls -/

section
variable (strtod)

/-- the calls of `lex_next` by `lex_all`: the cursor before each of them -/
def lexer (s : Bytes) : Runs.Sys (Place × Bytes) Unit where
  init x := x = (Place.start, s)
  next x _ :=
    match lexNext strtod x.1 x.2 with
    | .ok n => if n.more then some (n.place, n.rest) else none
    | .error _ => none

end

theorem lexer_next {x y : Place × Bytes} (h : (lexer strtod s).next x () = some y) :
    ∃ n, lexNext strtod x.1 x.2 = .ok n ∧ n.more = true ∧ y = (n.place, n.rest) := by
  simp only [lexer] at h
  split at h
  next n hn =>
    split at h
    next hm => exact ⟨n, hn, hm, (Option.some.inj h).symm⟩
    · cases h
  · cases h

theorem lexer_goes {x : Place × Bytes} (h : (lexer strtod s).Reach x) :
    Goes Place.start s x.1 x.2 := by
  refine h.inv (I := fun x => Goes Place.start s x.1 x.2) ?_ ?_
  · rintro x rfl
    exact .refl
  · intro x l y hx hy
    obtain ⟨n, hn, -, rfl⟩ := lexer_next hy
    exact hx.trans (lexNext_goes hn).1

theorem lexRaw_step {n : Next} (h : lexNext strtod a s = .ok n) (hm : n.more = true) (f : Nat) :
    lexRaw strtod (f + 1) a s
      = (lexRaw strtod f n.place n.rest).map fun r => r.map (n.tok :: ·) := by
  rw [lexRaw, h]
  exact if_pos hm

/-- the loop of `lex_all` comes by every cursor that is reached, with the tokens before it -/
theorem lexRaw_reach {x : Place × Bytes} (hx : (lexer strtod s).Reach x) :
    ∃ f ts, x.2.length < f ∧ lexRaw strtod (s.length + 1) .start s
      = (lexRaw strtod f x.1 x.2).map fun r => r.map (ts ++ ·) := by
  refine hx.inv (I := fun x => ∃ f ts, x.2.length < f ∧ lexRaw strtod (s.length + 1) .start s
      = (lexRaw strtod f x.1 x.2).map fun r => r.map (ts ++ ·)) ?_ ?_
  · rintro x rfl
    refine ⟨s.length + 1, [], Nat.lt_succ_self _, ?_⟩
    cases lexRaw strtod (s.length + 1) Place.start s with
    | none => rfl
    | some r => cases r <;> rfl
  · rintro x l y ⟨f, ts, hf, hr⟩ hy
    obtain ⟨n, hn, hm, rfl⟩ := lexer_next hy
    obtain ⟨-, hlt⟩ := (lexNext_goes hn).2.resolve_right (by simp [hm])
    obtain ⟨f, rfl⟩ := Nat.exists_eq_add_of_lt hf
    refine ⟨x.2.length + f, ts ++ [n.tok], Nat.lt_add_right f hlt, ?_⟩
    rw [hr, lexRaw_step hn hm, Option.map_map]
    congr 1
    funext r
    cases r with
    | error e => rfl
    | ok us => simp [Except.map]

/-- with more rounds than characters the loop of `lex_all` ends -/
theorem lexRaw_ends {f : Nat} (h : s.length < f) (a : Place) :
    ∃ r, lexRaw strtod f a s = some r := by
  induction f generalizing a s with
  | zero => exact absurd h (Nat.not_lt_zero _)
  | succ f ih =>
    cases hn : lexNext strtod a s with
    | error e => exact ⟨.error e, by rw [lexRaw, hn]⟩
    | ok n =>
      rcases (lexNext_goes hn).2 with ⟨hm, hlt⟩ | ⟨hm, -, -⟩
      · obtain ⟨r, hr⟩ := ih (Nat.lt_of_lt_of_le hlt (Nat.le_of_lt_succ h)) n.place
        exact ⟨_, by rw [lexRaw_step hn hm, hr]; rfl⟩
      · exact ⟨.ok [⟨.eof, n.tok.line, 0, 0, [], 0, ⟨0⟩, []⟩], by
          rw [lexRaw, hn]
          exact if_neg (by simp [hm])⟩

/-- where the loop of `lex_all` leaves its text -/
theorem lexRaw_over {f : Nat} (h : lexRaw strtod f a s = some (.error .over))
    {t : Bytes} (hx : (lexer strtod t).Reach (a, s)) :
    ∃ y, (lexer strtod t).Reach y ∧ lexNext strtod y.1 y.2 = .error .over := by
  induction f generalizing a s with
  | zero => cases h
  | succ f ih =>
    cases hn : lexNext strtod a s with
    | error e =>
      rw [lexRaw, hn] at h
      cases h
      exact ⟨_, hx, hn⟩
    | ok n =>
      cases hm : n.more with
      | true =>
        rw [lexRaw_step hn hm] at h
        obtain ⟨r, hr, he⟩ := Option.map_eq_some_iff.1 h
        have hr' : r = .error .over := by
          cases r with
          | error e => exact he
          | ok ts => cases he
        have hstep : (lexer strtod t).next (a, s) () = some (n.place, n.rest) := by
          simp [lexer, hn, hm]
        exact ih (hr' ▸ hr) (hx.step hstep)
      | false =>
        rw [lexRaw, hn] at h
        simp [hm] at h

/-- **`lex_all` returns.  Every call of `lex_next` that returns reads at least one character, or it
is at the end of the text; `pos` is never greater than the length; and a call stays inside the text
exactly if its cursor is not `Unsafe`.**  So `lex_all` stays inside exactly if none is. -/
theorem lexRaw_inside (strtod : Bytes → Double) (s : Bytes) :
    (∃ r, lexRaw strtod (s.length + 1) .start s = some r ∧
      (r ≠ .error .over ↔ ∀ x, (lexer strtod s).Reach x → ¬ Unsafe x.2)) ∧
    ∀ x, (lexer strtod s).Reach x →
      (lexNext strtod x.1 x.2 ≠ .error .over ↔ ¬ Unsafe x.2) ∧
      x.1.pos + x.2.length = s.length ∧
      ∀ n, lexNext strtod x.1 x.2 = .ok n →
        (n.more = true ∧ x.1.pos < n.place.pos ∧ n.place.pos ≤ s.length) ∨
        (n.more = false ∧ n.tok.kind = .eof ∧ n.place.pos = s.length) := by
  constructor
  · obtain ⟨r, hr⟩ := @lexRaw_ends _ strtod _ (Nat.lt_succ_self s.length) .start
    refine ⟨r, hr, ?_, ?_⟩
    · intro hne x hx hu
      obtain ⟨f, ts, hf, he⟩ := lexRaw_reach hx
      obtain ⟨f, rfl⟩ := Nat.exists_eq_add_of_lt hf
      have hover : lexRaw strtod (x.2.length + f + 1) x.1 x.2 = some (.error .over) := by
        rw [lexRaw, lexNext_over.2 hu]
      rw [hr, hover] at he
      exact hne (Option.some.inj he)
    · rintro hall rfl
      obtain ⟨y, hy, ho⟩ := lexRaw_over hr (.init rfl)
      exact hall y hy (lexNext_over.1 ho)
  · intro x hx
    have hsum := (lexer_goes hx).sum
    rw [show Place.start.pos = 0 from rfl, Nat.zero_add] at hsum
    refine ⟨not_congr lexNext_over, hsum, fun n hn => ?_⟩
    obtain ⟨hg, h⟩ := lexNext_goes hn
    have hsum' := hg.sum
    rcases h with ⟨hm, hlt⟩ | ⟨hm, hk, he⟩
    · exact .inl ⟨hm, by omega, by omega⟩
    · refine .inr ⟨hm, hk, ?_⟩
      rw [he, List.length_nil] at hsum'
      omega

/-- a comment without its end -/
theorem lexRaw_comment_over : ¬ ∀ (strtod : Bytes → Double) (s : Bytes) (x : Place × Bytes),
    (lexer strtod s).Reach x → lexNext strtod x.1 x.2 ≠ .error .over := by
  intro h
  exact h (fun _ => ⟨0⟩) (ascii "/*") (Place.start, ascii "/*") (.init rfl) rfl

end Lexer
end HolyPhp
