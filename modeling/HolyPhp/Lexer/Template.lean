import HolyPhp.Lexer.Safe

/-!
# Templates

Where `lex_template_parts` cuts a body, and what it makes of the text between the cuts.

* `tplSources`       the loop with nothing decoded: the sources of the chunks and the expressions;
* `tplUnescape`      `unescape` with the table of `lex_template_parts`;
* `tplLoop_eq`       the loop decodes the sources of the chunks;
* `Body.sources`     **it cuts where `scanStr` found the groups**;
* `cstr_unescape_iff`  the two tables differ in one escape, `\'`;
* `template_parts`   both for every literal that `lex_next` accepts.
-/

set_option autoImplicit false

namespace HolyPhp
namespace Lexer

variable {a b : Place} {c d q : UInt8} {s t r u w : Bytes} {gs : List Bytes}

/-! ## sources -/

/-- `tplLoop`, with the chunks as they are written -/
def tplSources : Nat → Bytes → Bytes → List (Bytes × Option Bytes)
  | 0, chunk, _ => [(chunk, none)]
  | _ + 1, chunk, [] => [(chunk, none)]
  | fuel + 1, chunk, c :: s =>
    if c = 92 ∧ s ≠ [] then tplSources fuel (chunk ++ [92, peek s 0]) (s.drop 1)
    else if c = 36 ∧ startsName (peek s 0) then
      (chunk, some (s.takeWhile inName)) :: tplSources fuel [] (s.dropWhile inName)
    else if c = 123 ∧ peek s 0 = 36 then
      let r := tplGroup none 1 s
      (chunk, some r.1) :: tplSources fuel [] r.2
    else tplSources fuel (chunk ++ [c]) s

/-- of the body `b` -/
def templateSources (b : Bytes) : List (Bytes × Option Bytes) := tplSources b.length [] b

/-- an expression as it stands in the body: a name behind `$`, or a group in braces -/
def exprSource (e : Bytes) : Bytes := if peek e 0 = 36 then 123 :: (e ++ [125]) else 36 :: e

def partSource (p : Bytes × Option Bytes) : Bytes := p.1 ++ (p.2.map exprSource).getD []

/-- the expressions that are groups -/
def groups (ps : List (Bytes × Option Bytes)) : List Bytes :=
  (ps.filterMap Prod.snd).filter fun e => peek e 0 = 36

/-! ## decoding -/

/-- `unescape` with a table -/
def unescapeWith (table : UInt8 → Option UInt8) : Bytes → Bytes
  | [] => []
  | [c] => [c]
  | c :: e :: s =>
    if c = 92 then
      (match table e with
        | some d => [d]
        | none => [92, e]) ++ unescapeWith table s
    else c :: unescapeWith table (e :: s)

theorem unescape_eq (s : Bytes) : unescape s = unescapeWith escaped s := by
  fun_induction unescape s with
  | case1 => rfl
  | case2 => rfl
  | case3 e s ih =>
    rewrite [unescapeWith, if_pos rfl, ih]
    cases escaped e <;> rfl
  | case4 c e s hc ih => rw [unescapeWith, if_neg hc, ih]

def tplUnescape (s : Bytes) : Bytes := unescapeWith tplEscaped s

section
variable {table : UInt8 → Option UInt8}

theorem unescapeWith_escape : unescapeWith table (92 :: d :: s)
    = (match table d with
        | some x => [x]
        | none => [92, d]) ++ unescapeWith table s := by
  rw [unescapeWith, if_pos rfl]

theorem unescapeWith_char (h : c ≠ 92) :
    unescapeWith table (c :: s) = c :: unescapeWith table s := by
  cases s with
  | nil => rfl
  | cons e s => rw [unescapeWith, if_neg h]

/-- what follows the text is decoded as if it stood alone -/
def Complete (table : UInt8 → Option UInt8) (s : Bytes) : Prop :=
  ∀ t, unescapeWith table (s ++ t) = unescapeWith table s ++ unescapeWith table t

theorem Complete.nil : Complete table [] := fun _ => rfl

theorem Complete.char (h : Complete table s) (hc : c ≠ 92) : Complete table (s ++ [c]) := by
  intro t
  rw [List.append_assoc, h, h [c], List.append_assoc]
  simp only [List.cons_append, List.nil_append, unescapeWith_char hc]
  rfl

theorem Complete.escape (h : Complete table s) : Complete table (s ++ [92, d]) := by
  intro t
  rw [List.append_assoc, h, h [92, d], List.append_assoc]
  simp only [List.cons_append, List.nil_append, unescapeWith_escape]
  rw [List.append_assoc]
  rfl

end

/-- **The loop decodes what `tplSources` cuts**, with its own table. -/
theorem tplLoop_eq (f : Nat) (chunk s : Bytes) (h : Complete tplEscaped chunk) :
    tplLoop f (tplUnescape chunk) s
      = (tplSources f chunk s).map fun p => (cstr (tplUnescape p.1), p.2) := by
  induction f generalizing chunk s with
  | zero => rfl
  | succ f ih =>
    cases s with
    | nil => rfl
    | cons c s =>
      rw [tplLoop, tplSources]
      split
      next he =>
        have hd : tplUnescape (chunk ++ [92, peek s 0]) = tplUnescape chunk
            ++ (match tplEscaped (peek s 0) with
              | some d => [d]
              | none => [92, peek s 0]) := by
          rw [tplUnescape, h, unescapeWith_escape]
          exact congrArg (tplUnescape chunk ++ ·) (List.append_nil _)
        rewrite [← ih _ _ h.escape, hd]
        rfl
      split
      · rw [List.map_cons]
        exact congrArg _ (ih [] _ Complete.nil)
      split
      · rw [List.map_cons]
        exact congrArg _ (ih [] _ Complete.nil)
      next hesc _ _ =>
        by_cases hc : c = 92
        · -- a backslash that is the last character
          obtain rfl : s = [] := by
            by_contra hs
            exact hesc ⟨hc, hs⟩
          have hlast : ∀ f' : Nat, ∀ x : Bytes, tplLoop f' x [] = [(cstr x, none)] ∧
              tplSources f' x [] = [(x, none)] := by
            intro f' x
            cases f' <;> exact ⟨rfl, rfl⟩
          rw [(hlast f _).1, (hlast f _).2, tplUnescape, List.map_singleton, tplUnescape, h [c]]
          rfl
        · rw [← ih _ _ (h.char hc)]
          congr 1
          rw [tplUnescape, tplUnescape, h [c]]
          rfl

theorem lexTemplateParts_eq (b : Bytes) : lexTemplateParts b
    = (templateSources b).map fun p => (cstr (tplUnescape p.1), p.2) :=
  tplLoop_eq b.length [] b Complete.nil

/-! ## the groups -/

theorem tplGroup_quote {n : Nat} : tplGroup (some q) n (q :: s)
    = (q :: (tplGroup none n s).1, (tplGroup none n s).2) := by
  rw [tplGroup.eq_def]
  exact if_pos rfl

/-- `tplGroup` passes over a literal -/
theorem Chars.group (hq : q ≠ 92) (h : Chars q s u) : ∃ w, s = w ++ u ∧ ∀ v n,
    tplGroup (some q) n (w ++ v)
      = (w ++ (tplGroup (some q) n v).1, (tplGroup (some q) n v).2) := by
  induction h with
  | nil => exact ⟨[], rfl, fun _ _ => rfl⟩
  | @char c s u hc hb _ ih =>
    obtain ⟨w, rfl, hw⟩ := ih
    refine ⟨c :: w, rfl, fun v n => ?_⟩
    have hstep : ∀ x : Bytes, tplGroup (some q) n (c :: x)
        = (c :: (tplGroup (some q) n x).1, (tplGroup (some q) n x).2) := by
      intro x
      rw [tplGroup.eq_def]
      simp only [if_neg hc]
      cases x with
      | nil => rfl
      | cons d x => exact if_neg hb
    rw [List.cons_append, hstep, hw]
    rfl
  | @escape d s u _ ih =>
    obtain ⟨w, rfl, hw⟩ := ih
    refine ⟨92 :: d :: w, rfl, fun v n => ?_⟩
    have hstep : ∀ x : Bytes, tplGroup (some q) n (92 :: d :: x)
        = (92 :: d :: (tplGroup (some q) n x).1, (tplGroup (some q) n x).2) := by
      intro x
      rw [tplGroup, if_neg hq.symm]
      exact if_pos rfl
    rw [List.cons_append, List.cons_append, hstep, hw]
    rfl

/-- `tplGroup` passes over the inside of a group at any depth -/
theorem Nested.group (h : Nested s u) : ∃ w, s = w ++ u ∧ ∀ v n,
    tplGroup none (n + 1) (w ++ v)
      = (w ++ (tplGroup none (n + 1) v).1, (tplGroup none (n + 1) v).2) := by
  induction h with
  | nil => exact ⟨[], rfl, fun _ _ => rfl⟩
  | @char c s u h34 h39 h123 h125 _ ih =>
    obtain ⟨w, rfl, hw⟩ := ih
    refine ⟨c :: w, rfl, fun v n => ?_⟩
    rw [List.cons_append, tplGroup, if_neg (by simp [h125]), if_neg h123, if_neg h125,
      if_neg (by simp [h34, h39]), hw]
    rfl
  | @quote q s t u hq hc _ ih =>
    have h92 : q ≠ 92 := by rcases hq with rfl | rfl <;> decide
    obtain ⟨x, rfl, hx⟩ := hc.group h92
    obtain ⟨w, rfl, hw⟩ := ih
    refine ⟨q :: (x ++ q :: w), by simp, fun v n => ?_⟩
    have h123 : q ≠ 123 ∧ q ≠ 125 := by rcases hq with rfl | rfl <;> decide
    have hv : x ++ q :: w ++ v = x ++ (q :: (w ++ v)) := by simp
    rw [List.cons_append, hv, tplGroup, if_neg (by simp [h123.2]), if_neg h123.1, if_neg h123.2,
      if_pos hq, hx, tplGroup_quote, hw]
    simp
  | @braces s t u _ _ ih ih' =>
    obtain ⟨x, rfl, hx⟩ := ih
    obtain ⟨w, rfl, hw⟩ := ih'
    refine ⟨123 :: (x ++ 125 :: w), by simp, fun v n => ?_⟩
    have hv : x ++ 125 :: w ++ v = x ++ (125 :: (w ++ v)) := by simp
    have hclose : tplGroup none (n + 2) (125 :: (w ++ v))
        = (125 :: (tplGroup none (n + 1) (w ++ v)).1, (tplGroup none (n + 1) (w ++ v)).2) := by
      rw [tplGroup, if_neg (by simp), if_neg (by decide), if_pos rfl]
      rfl
    rw [List.cons_append, hv, tplGroup, if_neg (by simp), if_pos rfl, hx, hclose, hw]
    simp

/-- **A group ends for `tplGroup` where it ends for the scanner**, whatever is behind it. -/
theorem Closes.group {e v : Bytes} (h : Closes (e ++ 125 :: u) u) :
    tplGroup none 1 (e ++ 125 :: v) = (e, v) := by
  obtain ⟨w, hw, h⟩ := Nested.group h
  obtain rfl := List.append_cancel_right hw
  rw [h (125 :: v) 0, tplGroup, if_pos ⟨rfl, rfl⟩]
  simp

/-! ## the body, from its front -/

theorem peek_append {e v : Bytes} (h : peek e 0 ≠ 0) : peek (e ++ v) 0 = peek e 0 := by
  cases e with
  | nil => exact absurd rfl h
  | cons x e => rfl

theorem Body.suffix (h : Body s gs u) : u <:+ s := by
  induction h with
  | nil => exact List.suffix_refl _
  | char _ _ _ _ ih => exact ih.trans (List.suffix_cons _ _)
  | escape _ ih => exact ih.trans ((List.suffix_cons _ _).trans (List.suffix_cons _ _))
  | @group e s _ _ _ _ _ ih =>
    exact ih.trans ⟨123 :: (e ++ [125]), by simp⟩

theorem body_quote (h : Body (34 :: s) gs (34 :: r)) : gs = [] ∧ s = r := by
  cases h with
  | nil => exact ⟨rfl, rfl⟩
  | char h34 _ _ _ => exact absurd rfl h34

theorem body_escape (h : Body (92 :: d :: s) gs (34 :: r)) : Body s gs (34 :: r) := by
  cases h with
  | char _ h92 _ _ => exact absurd rfl h92
  | escape h => exact h

theorem body_char (h34 : c ≠ 34) (h92 : c ≠ 92) (hg : ¬ (c = 123 ∧ peek s 0 = 36))
    (h : Body (c :: s) gs (34 :: r)) : Body s gs (34 :: r) := by
  cases h with
  | nil => exact absurd rfl h34
  | char _ _ _ h => exact h
  | escape h => exact absurd rfl h92
  | group hp _ _ => exact absurd ⟨rfl, (peek_append (by simp [hp])).trans hp⟩ hg

theorem body_group (hp : peek s 0 = 36) (h : Body (123 :: s) gs (34 :: r)) :
    ∃ e t gs', s = e ++ 125 :: t ∧ gs = e :: gs' ∧ peek e 0 = 36 ∧ Closes (e ++ 125 :: t) t ∧
      Body t gs' (34 :: r) := by
  cases h with
  | char _ _ hg _ => exact absurd ⟨rfl, hp⟩ hg
  | group hp' hc h => exact ⟨_, _, _, rfl, rfl, hp', hc, h⟩

/-- the characters of a name stand for themselves -/
theorem Body.name (h : Body s gs (34 :: r)) : Body (s.dropWhile inName) gs (34 :: r) := by
  generalize hu : 34 :: r = u at h
  induction h with
  | nil =>
    subst hu
    exact .nil
  | @char c s _ _ h34 h92 hg h ih =>
    rw [List.dropWhile_cons]
    split
    · exact ih hu
    · exact .char h34 h92 hg h
  | escape h _ => exact .escape h
  | group hp hc h _ => exact .group hp hc h

theorem name_append (b r : Bytes) : (b ++ 34 :: r).dropWhile inName
    = b.dropWhile inName ++ 34 :: r := by
  induction b with
  | nil => rfl
  | cons c b ih =>
    rw [List.cons_append, List.dropWhile_cons, List.dropWhile_cons]
    split
    · exact ih
    · rfl

theorem startsName_ne (h : startsName c) : c ≠ 36 := by
  rintro rfl
  exact absurd h (by decide)

theorem exprSource_name (h : startsName (peek s 0)) :
    exprSource (s.takeWhile inName) = 36 :: s.takeWhile inName := by
  cases s with
  | nil => exact absurd h (by decide)
  | cons x s =>
    have hx : inName x = true := inName_of_startsName h
    rw [List.takeWhile_cons, if_pos hx]
    exact if_neg (startsName_ne h)

/-- **The cuts**: the sources of the chunks and of the expressions make up the body, and the
groups are those that the scanner passed over. -/
theorem Body.sources {f : Nat} {chunk b : Bytes} (hf : b.length ≤ f)
    (h : Body (b ++ 34 :: r) gs (34 :: r)) :
    (tplSources f chunk b).flatMap partSource = chunk ++ b ∧
      groups (tplSources f chunk b) = gs := by
  have hend : ∀ x gs', Body (34 :: r) gs' (34 :: r) → List.flatMap partSource [(x, none)] = x ++ [] ∧
      groups [(x, none)] = gs' := by
    intro x gs' hb
    rw [(body_quote hb).1]
    simp [partSource, groups]
  induction f generalizing chunk b gs with
  | zero =>
    obtain rfl := List.length_eq_zero_iff.1 (Nat.le_zero.1 hf)
    exact hend chunk gs h
  | succ f ih =>
    cases b with
    | nil => exact hend chunk gs h
    | cons c s =>
      have hl : s.length ≤ f := Nat.le_of_succ_le_succ hf
      have h34 : c ≠ 34 := by
        rintro rfl
        have := congrArg List.length (body_quote h).2
        simp at this
        omega
      rw [tplSources]
      split
      next he =>
        obtain ⟨rfl, hs⟩ := he
        obtain ⟨d, t, rfl⟩ := List.exists_cons_of_ne_nil hs
        obtain ⟨h1, h2⟩ := @ih _ (chunk ++ [92, d]) t
          (Nat.le_of_succ_le hl) (body_escape h)
        exact ⟨h1.trans (by simp), h2⟩
      next he =>
      have h92 : c ≠ 92 := by
        rintro rfl
        obtain rfl : s = [] := by
          by_contra hs
          exact he ⟨rfl, hs⟩
        have := (body_escape h).suffix.length_le
        simp at this
      have hpeek : ∀ x : UInt8, x ≠ 34 → x ≠ 0 → (peek (s ++ 34 :: r) 0 = x ↔ peek s 0 = x) := by
        intro x hx h0
        cases s with
        | nil => simp [peek, hx.symm, h0.symm]
        | cons y s => rfl
      split
      next hn =>
        obtain ⟨rfl, hn⟩ := hn
        have hb : Body (s.dropWhile inName ++ 34 :: r) gs (34 :: r) := by
          rw [← name_append]
          exact (body_char (by decide) (by decide) (by simp) h).name
        obtain ⟨h1, h2⟩ := @ih _ [] _ ((List.dropWhile_suffix _).length_le.trans hl) hb
        rw [List.flatMap_cons, h1, partSource, Option.map_some, Option.getD_some,
          exprSource_name hn]
        refine ⟨by simp [List.takeWhile_append_dropWhile], ?_⟩
        rw [← h2]
        have hp : peek (s.takeWhile inName) 0 ≠ 36 := by
          cases s with
          | nil => decide
          | cons x s =>
            have hx : inName x = true := inName_of_startsName hn
            rw [List.takeWhile_cons, if_pos hx]
            exact startsName_ne hn
        simp [groups, hp]
      split
      next hg =>
        obtain ⟨rfl, hp⟩ := hg
        obtain ⟨e, t, gs', he, rfl, hpe, hc, hb⟩ :=
          body_group ((hpeek 36 (by decide) (by decide)).2 hp) h
        obtain ⟨v, rfl⟩ := hb.suffix
        have hs : s = e ++ 125 :: v := by
          rw [← List.cons_append, ← List.append_assoc] at he
          exact List.append_cancel_right he
        subst hs
        have hlv : v.length ≤ f := by
          rw [List.length_append, List.length_cons] at hl
          omega
        obtain ⟨h1, h2⟩ := @ih _ [] _ hlv hb
        rw [hc.group, List.flatMap_cons, h1, partSource, Option.map_some, Option.getD_some,
          exprSource, if_pos hpe]
        refine ⟨by simp, ?_⟩
        rw [← h2]
        simp [groups, hpe]
      next hg =>
        have hg' : ¬ (c = 123 ∧ peek (s ++ 34 :: r) 0 = 36) := by
          rw [hpeek 36 (by decide) (by decide)]
          exact hg
        obtain ⟨h1, h2⟩ := @ih _ (chunk ++ [c]) _ hl (body_char h34 h92 hg' h)
        exact ⟨by simpa using h1, h2⟩

/-! ## the tables -/

/-- characters and escapes none of which is or gives a NUL -/
inductive Plain : Bytes → Bytes → Prop
  | nil {s : Bytes} : Plain s s
  | char {c : UInt8} {s u : Bytes} : c ≠ 92 → c ≠ 0 → Plain s u → Plain (c :: s) u
  | escape {d : UInt8} {s u : Bytes} : d ≠ 48 → d ≠ 0 → Plain s u → Plain (92 :: d :: s) u

/-- an escaped single quote in front of the first NUL -/
def HasQuote (s : Bytes) : Prop := ∃ t, Plain s (92 :: 39 :: t)

theorem hasQuote_char (hc : c ≠ 92) (h0 : c ≠ 0) : HasQuote (c :: s) ↔ HasQuote s := by
  constructor
  · rintro ⟨t, h⟩
    cases h with
    | nil => exact absurd rfl hc
    | char _ _ h => exact ⟨t, h⟩
    | escape _ _ _ => exact absurd rfl hc
  · rintro ⟨t, h⟩
    exact ⟨t, .char hc h0 h⟩

theorem hasQuote_escape (h39 : d ≠ 39) (h48 : d ≠ 48) (h0 : d ≠ 0) :
    HasQuote (92 :: d :: s) ↔ HasQuote s := by
  constructor
  · rintro ⟨t, h⟩
    cases h with
    | nil => exact absurd rfl h39
    | char hc _ _ => exact absurd rfl hc
    | escape _ _ h => exact ⟨t, h⟩
  · rintro ⟨t, h⟩
    exact ⟨t, .escape h48 h0 h⟩

theorem not_hasQuote_nul (hc : c = 0) : ¬ HasQuote (c :: s) := by
  rintro ⟨t, h⟩
  cases h with
  | nil => exact absurd hc (by decide)
  | char _ h0 _ => exact h0 hc
  | escape _ _ _ => exact absurd hc (by decide)

theorem not_hasQuote_escape (hd : d = 48 ∨ d = 0) : ¬ HasQuote (92 :: d :: s) := by
  rintro ⟨t, h⟩
  cases h with
  | nil => exact absurd hd (by decide)
  | char hc _ _ => exact hc rfl
  | escape h48 h0 _ => exact hd.elim h48 h0

theorem escaped_eq (h : d ≠ 39) : escaped d = tplEscaped d := by
  simp only [escaped, tplEscaped, h, false_or, or_left_comm]

theorem cstr_cons (h : c ≠ 0) : cstr (c :: s) = c :: cstr s := by
  simp [cstr, h]

theorem cstr_nul : cstr (0 :: s) = [] := rfl

theorem escaped_ne {x : UInt8} (h48 : d ≠ 48) (h0 : d ≠ 0) (h : tplEscaped d = some x) :
    x ≠ 0 := by
  unfold tplEscaped at h
  split_ifs at h <;> cases h <;> first | decide | exact h0

/-- **The tables of `unescape` and `lex_template_parts`** agree on a text exactly if no escaped
single quote is in it. -/
theorem cstr_unescape_iff (s : Bytes) : cstr (tplUnescape s) = cstr (unescape s) ↔ ¬ HasQuote s := by
  rw [unescape_eq, tplUnescape]
  induction hn : s.length using Nat.strongRecOn generalizing s with
  | ind n ih =>
    subst hn
    cases s with
    | nil =>
      have h : ¬ HasQuote [] := by
        rintro ⟨t, h⟩
        cases h
      simp [h, unescapeWith]
    | cons c s =>
      by_cases hc : c = 92
      · subst hc
        cases s with
        | nil =>
          have h : ¬ HasQuote [92] := by
            rintro ⟨t, h⟩
            cases h with
            | char h _ _ => exact h rfl
          simp [h, unescapeWith]
        | cons d s =>
          rw [unescapeWith_escape, unescapeWith_escape]
          by_cases h39 : d = 39
          · subst h39
            have h : HasQuote (92 :: 39 :: s) := ⟨s, .nil⟩
            simp [h, tplEscaped, escaped, cstr]
          rw [escaped_eq h39]
          by_cases hd : d = 48 ∨ d = 0
          · refine iff_of_true ?_ (not_hasQuote_escape hd)
            rcases hd with rfl | rfl <;> rfl
          · rw [not_or] at hd
            rw [hasQuote_escape h39 hd.1 hd.2, ← ih s.length (by simp) s rfl]
            cases ht : tplEscaped d with
            | some x =>
              have hx := escaped_ne hd.1 hd.2 ht
              simp [cstr_cons hx]
            | none => simp [cstr_cons hd.2, cstr_cons (show (92 : UInt8) ≠ 0 by decide)]
      · rw [unescapeWith_char hc, unescapeWith_char hc]
        by_cases h0 : c = 0
        · subst h0
          exact iff_of_true rfl (not_hasQuote_nul rfl)
        · rw [cstr_cons h0, cstr_cons h0, List.cons.injEq, hasQuote_char hc h0,
            ← ih s.length (Nat.lt_succ_self _) s rfl]
          simp

/-! ## literals -/

theorem taken_append (w r : Bytes) : taken (w ++ r) r = w := by
  rw [taken, List.length_append, Nat.add_sub_cancel, List.take_left]

/-- the literals in double quotes that `lex_next` accepts -/
theorem lexToken_quote {strtod : Bytes → Double} {n : Next}
    (h : lexToken strtod a 34 s = .ok n) :
    ∃ body gs, s = body ++ 34 :: n.rest ∧ Body s gs (34 :: n.rest) ∧
      ((n.tok.kind = .tpl ∧ n.tok.text = body ∧ n.tok.tpl = lexTemplateParts body) ∨
        (n.tok.kind = .str ∧ n.tok.text = cstr (unescape body))) := by
  rw [lexToken, if_neg (by decide), if_neg (by simp [isDigit]), if_pos rfl] at h
  rcases scanStr_cases s false (a.adv 34) with ⟨-, hs⟩ | ⟨j, b, ⟨gs, r, hb, hs⟩ | hs⟩
  · rw [hs] at h
    cases h
  · obtain ⟨w, rfl⟩ := hb.suffix
    rw [hs] at h
    simp only [taken_append] at h
    cases j with
    | true =>
      cases h
      exact ⟨w, gs, rfl, hb, .inl ⟨rfl, rfl, rfl⟩⟩
    | false =>
      cases h
      exact ⟨w, gs, rfl, hb, .inr ⟨rfl, rfl⟩⟩
  · rw [hs] at h
    cases h

/-- **Templates.**  In every literal in double quotes that is accepted, `lex_template_parts` cuts
the whole body into chunks and expressions, and the groups are those over which `scanStr` passed to
the closing quote.  Every chunk reads as `unescape` reads it exactly if no escaped single quote is in
one in front of its first NUL. -/
theorem template_parts (strtod : Bytes → Double) (a : Place) (s : Bytes) {n : Next}
    (h : lexToken strtod a 34 s = .ok n) :
    ∃ body gs, s = body ++ 34 :: n.rest ∧ Body s gs (34 :: n.rest) ∧
      ((n.tok.kind = .tpl ∧ n.tok.text = body ∧ n.tok.tpl = lexTemplateParts body) ∨
        (n.tok.kind = .str ∧ n.tok.text = cstr (unescape body))) ∧
      (templateSources body).flatMap partSource = body ∧
      groups (templateSources body) = gs ∧
      (lexTemplateParts body).map Prod.snd = (templateSources body).map Prod.snd ∧
      ((lexTemplateParts body).map Prod.fst
          = (templateSources body).map (fun p => cstr (unescape p.1)) ↔
        ∀ p ∈ templateSources body, ¬ HasQuote p.1) := by
  obtain ⟨body, gs, hs, hb, htok⟩ := lexToken_quote h
  obtain ⟨h1, h2⟩ := @Body.sources _ _ _ [] _ (Nat.le_refl body.length) (hs ▸ hb)
  refine ⟨body, gs, hs, hb, htok, h1, h2, ?_, ?_⟩
  · rw [lexTemplateParts_eq, List.map_map]
    rfl
  · rw [lexTemplateParts_eq, List.map_map, List.map_inj_left]
    exact forall₂_congr fun p _ => cstr_unescape_iff p.1

/-- `"$x"` -/
theorem template_parts_name : ∃ body gs, Body [36, 120, 34] gs [34] ∧
    (templateSources body).flatMap partSource = body := by
  have h : lexToken (fun _ => ⟨0⟩) .start 34 [36, 120, 34] = .ok ⟨true,
      ⟨.tpl, 1, 0, 0, [36, 120], 0, ⟨0⟩, [([], some [120]), ([], none)]⟩, ⟨4, 1, 4⟩, []⟩ := rfl
  obtain ⟨body, gs, _, hb, _, hs, _⟩ := template_parts (fun _ => ⟨0⟩) .start [36, 120, 34] h
  exact ⟨body, gs, hb, hs⟩

/-- `"\'$x"` -/
theorem template_parts_differ : ¬ ∀ (strtod : Bytes → Double) (a : Place) (s : Bytes) (n : Next),
    lexToken strtod a 34 s = .ok n → ∀ body, s = body ++ 34 :: n.rest →
      (lexTemplateParts body).map Prod.fst
        = (templateSources body).map fun p => cstr (unescape p.1) := by
  intro h
  obtain ⟨n, hn, hr⟩ : ∃ n, lexToken (fun _ => ⟨0⟩) .start 34 [92, 39, 36, 120, 34] = .ok n ∧
      n.rest = [] := ⟨_, rfl, rfl⟩
  have hparts := h (fun _ => ⟨0⟩) .start [92, 39, 36, 120, 34] n hn [92, 39, 36, 120] (by rw [hr]; rfl)
  exact absurd hparts (by decide)

end Lexer
end HolyPhp
