import HolyPhp.Parser.TypeLexemes

/-!
# Types that come back from their text

* `parse_plain`      `parse_type` reads a clear type from its tokens, and nothing behind them;
* `lex_type`         the tokens of the text;
* `parse_bad`        `parse_type` does not get to the end of `Bad` lexemes;
* `ComesBack`        the text is read as the type, up to its end;
* `type_round_trip`  **which types come back.**
-/

set_option autoImplicit false

namespace HolyPhp
namespace Parser
open Lexer Sema

variable {t : Ty} {ts us rest : List Token} {u : Token} {f : Nat} {p : Parse Ty}
  {params : Parse (List Ty)} {n : Bytes} {q : List (TokKind × Bytes)} {k : TokKind}

/-! ## one step -/

theorem tsAdvance_cons (h : ts ≠ []) : tsAdvance (u :: ts) = ts := by
  cases ts with
  | nil => exact absurd rfl h
  | cons t ts => rfl

theorem tsCheck_cons (u : Token) (ts : List Token) (k : TokKind) :
    tsCheck (u :: ts) k = decide (u.kind = k) := rfl

theorem tsCheck_pos (hu : u.kind = k) (ts : List Token) : tsCheck (u :: ts) k = true :=
  decide_eq_true hu

theorem tsExpect_cons (what : Bytes) (hu : u.kind = k) (h : ts ≠ []) :
    tsExpect k what (u :: ts) = .ok (u, ts) := by
  rw [tsExpect, if_pos (tsCheck_pos hu ts), tsAdvance_cons h]
  rfl

theorem parseType_amp (hu : u.kind = .amp) (hm : eatIdent (ascii "mut") ts = (false, ts))
    (h : ts ≠ []) :
    parseType (f + 1) (u :: ts) = (parseType f ts >>= fun r => .ok (.ref r.1, r.2)) := by
  rw [parseType, if_pos (tsCheck_pos hu ts), tsAdvance_cons h, hm]
  rfl

theorem parseType_own (hu : u.kind = .kwOwn) (h : ts ≠ []) :
    parseType (f + 1) (u :: ts) = (parseType f ts >>= fun r => .ok (.own r.1, r.2)) := by
  rw [parseType, tsAdvance_cons h]
  simp only [tsCheck_cons, hu]
  rfl

theorem parseType_star (hu : u.kind = .star) (h : ts ≠ []) :
    parseType (f + 1) (u :: ts) = (parseType f ts >>= fun r => .ok (.ptr r.1, r.2)) := by
  rw [parseType, tsAdvance_cons h]
  simp only [tsCheck_cons, hu]
  rfl

theorem parseType_lbracket (hu : u.kind = .lbracket) (h : ts ≠ []) :
    parseType (f + 1) (u :: ts) = (parseType f ts >>= fun r =>
      tsExpect .rbracket (ascii "']' in array type") r.2 >>= fun r' => .ok (.array r.1, r'.2)) := by
  rw [parseType, tsAdvance_cons h]
  simp only [tsCheck_cons, hu]
  rfl

theorem parseType_name (hu : u.kind = .ident ∨ u.kind = .kwFn) (h : ts ≠ []) :
    parseType (f + 1) (u :: ts) = namedType (parseType f) (parseParams f) u.text ts := by
  rw [parseType, tsAdvance_cons h]
  rcases hu with hu | hu
  · rw [tsExpect_cons _ hu h]
    simp only [tsCheck_cons, hu]
    rfl
  · simp only [tsCheck_cons, hu]
    rfl

theorem namedType_prim {j : Prim} (h : written j = true) :
    namedType p params (primName j) ts = .ok (.prim j, ts) := by
  cases j
  case error => cases h
  case tuple => cases h
  case self => cases h
  all_goals rfl

theorem namedType_cls (h : ClassName n) : namedType p params n ts = .ok (.cls n, ts) := by
  obtain ⟨-, hk, hn⟩ := h
  have hfn : n ≠ ascii "fn" := by
    rintro rfl
    exact absurd hk (by decide)
  rw [typeWords, List.mem_append, not_or] at hn
  obtain ⟨hp, hn⟩ := hn
  have hfind : (prims.find? fun q => q.1 = n) = none := by
    refine List.find?_eq_none.2 fun q hq he => hp ?_
    rw [← of_decide_eq_true he]
    exact List.mem_map_of_mem hq
  simp only [List.mem_cons, List.not_mem_nil, or_false, not_or] at hn
  obtain ⟨h1, h2, h3, h4, h5, h6, h7, h8, h9, h10⟩ := hn
  rw [namedType, if_neg (not_or.2 ⟨h1, h2⟩), hfind]
  simp only [Option.map_none, h3, h4, h5, h6, h7, h8, h9, h10, hfn, false_and, or_false, if_false]

theorem namedType_fn (h : tsCheck ts .lparen = true) :
    namedType p params (ascii "fn") ts = fnType p params (tsAdvance ts) := by
  have h1 : ¬ (ascii "fn" = ascii "array" ∨ ascii "fn" = ascii "list") := by decide
  have h2 : (prims.find? fun q => q.1 = ascii "fn").map Prod.snd = none := by decide
  rw [namedType, if_neg h1, h2]
  dsimp only
  rw [if_neg fun h => absurd h.1 (by decide), if_pos ⟨.inl rfl, h⟩]

/-! ## a clear type -/

/-- `parse_type` reads the tokens of the type, and nothing behind them -/
def ReadsBack (t : Ty) : Prop :=
  ∀ f ts rest, ts.map kt = plain (lexemes t) → rest ≠ [] → tsCheck rest .arrow = false →
    ts.length ≤ f → parseType f (ts ++ rest) = .ok (t, rest)

/-- and the loop the tokens of parameters in front of a parenthesis -/
def ReadsAll (ps : List Ty) : Prop :=
  ∀ f ts rest, ts.map kt = plain (paramLexemes ps) → rest ≠ [] → tsCheck rest .rparen = true →
    ts.length < f → parseParams f (ts ++ rest) = .ok (ps, rest)

/-- the first of some tokens -/
theorem tokens_cons (h : ts.map kt = (k, n) :: q) :
    ∃ u us, ts = u :: us ∧ u.kind = k ∧ u.text = n ∧ us.map kt = q := by
  obtain ⟨u, us, rfl, hu, hq⟩ := List.map_eq_cons_iff.1 h
  obtain ⟨hk, hn⟩ := Prod.mk.inj hu
  exact ⟨u, us, rfl, hk, hn, hq⟩

/-- the tokens of a type and those behind it -/
theorem tokens_append {ls : List Lexeme} (h : ts.map kt = plain ls ++ q) :
    ∃ us vs, ts = us ++ vs ∧ us.map kt = plain ls ∧ vs.map kt = q := by
  obtain ⟨us, vs, rfl, h1, h2⟩ := List.map_eq_append_iff.1 h
  exact ⟨us, vs, rfl, h1, h2⟩

theorem check_arrow (hu : u.kind = k) (hk : k ≠ .arrow) : tsCheck (u :: ts) .arrow = false := by
  rw [tsCheck_cons, hu]
  exact decide_eq_false hk

/-- the first token of a type -/
theorem Surface.first (h : Surface t) (ht : ts.map kt = plain (lexemes t)) :
    ∃ u us, ts = u :: us ∧ u.kind ≠ .rparen ∧ u.kind ≠ .eof ∧
      (u.kind = .ident → u.text ≠ ascii "mut") := by
  obtain ⟨l, ls, hl, hb⟩ := h.begins
  rw [hl] at ht
  rcases hb with ⟨w, rfl, hw⟩ | rfl | ⟨rfl, -⟩ | ⟨rfl, -⟩
  · obtain ⟨u, us, rfl, hk, htext, -⟩ := tokens_cons ht
    refine ⟨u, us, rfl, ?_, ?_, fun hi hm => ?_⟩
    · rw [hk]
      rcases hw with h | h | h <;> rw [h] <;> decide
    · rw [hk]
      rcases hw with h | h | h <;> rw [h] <;> decide
    · rw [hk, ← htext, hm] at hi
      exact absurd hi (by decide)
  all_goals
    obtain ⟨u, us, rfl, hk, -, -⟩ := tokens_cons ht
    refine ⟨u, us, rfl, ?_, ?_, fun hi => ?_⟩
    · rw [hk]
      decide
    · rw [hk]
      decide
    · rw [hk] at hi
      exact absurd hi (by decide)

theorem ReadsBack.angle1 {e : Ty} (h : ReadsBack e) (mk : Ty → Ty) (what : Bytes)
    (ht : ts.map kt = plain (.sym 60 :: (lexemes e ++ [.sym 62]))) (hr : rest ≠ [])
    (hf : ts.length ≤ f) : angle1 (parseType f) mk what (ts ++ rest) = .ok (mk e, rest) := by
  obtain ⟨lt, us, rfl, hlt, -, hus⟩ := tokens_cons ht
  rw [plain_append] at hus
  obtain ⟨es, gs, rfl, hes, hgs⟩ := tokens_append hus
  obtain ⟨gt, gs, rfl, hgt, -, hgs⟩ := tokens_cons hgs
  obtain rfl := List.map_eq_nil_iff.1 hgs
  have he : parseType f (es ++ (gt :: rest)) = .ok (e, gt :: rest) :=
    h f es (gt :: rest) hes (List.cons_ne_nil _ _) (check_arrow hgt (by decide))
      (by simp at hf; omega)
  rw [Parser.angle1, List.cons_append, if_pos (tsCheck_pos (k := .lt) hlt _), List.append_assoc,
    tsAdvance_cons (by simp), List.cons_append, List.nil_append, he]
  show (tsExpect .gt what (gt :: rest) >>= _) = _
  rw [tsExpect_cons (k := .gt) what hgt hr]
  rfl

/-- a name with arguments in angles -/
theorem ReadsBack.named {ls : List Lexeme} (hl : lexemes t = angles n ls) (hn : kwLookup n = .ident)
    (h : ∀ f ts rest, ts.map kt = plain (.sym 60 :: (ls ++ [.sym 62])) → rest ≠ [] →
      ts.length ≤ f → namedType (parseType f) (parseParams f) n (ts ++ rest) = .ok (t, rest)) :
    ReadsBack t := by
  intro f ts rest ht hr _ hf
  rw [hl] at ht
  obtain ⟨u, us, rfl, hu, htext, hus⟩ := tokens_cons ht
  obtain ⟨f, rfl⟩ := Nat.exists_eq_add_one.2 (Nat.zero_lt_of_lt hf)
  rw [List.cons_append, parseType_name (.inl (hu.trans hn)) (by simp [hr]), htext]
  exact h f us rest hus hr (Nat.le_of_succ_le_succ hf)

/-- two arguments in angles, up to the last one's end -/
theorem tokens_pair {a b : Ty}
    (ht : ts.map kt = plain (.sym 60 :: (lexemes a ++ .sym 44 :: .space :: lexemes b ++ [.sym 62]))) :
    ∃ lt as comma bs gt, ts = lt :: (as ++ comma :: (bs ++ [gt])) ∧ lt.kind = .lt ∧
      as.map kt = plain (lexemes a) ∧ comma.kind = .comma ∧ bs.map kt = plain (lexemes b) ∧
      gt.kind = .gt := by
  obtain ⟨lt, us, rfl, hlt, -, hus⟩ := tokens_cons ht
  rw [plain_append, plain_append, List.append_assoc] at hus
  obtain ⟨as, us, rfl, has, hus⟩ := tokens_append hus
  obtain ⟨comma, us, rfl, hcomma, -, hus⟩ := tokens_cons hus
  obtain ⟨bs, us, rfl, hbs, hus⟩ := tokens_append hus
  obtain ⟨gt, us, rfl, hgt, -, hus⟩ := tokens_cons hus
  obtain rfl := List.map_eq_nil_iff.1 hus
  exact ⟨lt, as, comma, bs, gt, rfl, hlt, has, hcomma, hbs, hgt⟩

theorem ReadsBack.angleMap {a b : Ty} (ha : ReadsBack a) (hb : ReadsBack b)
    (ht : ts.map kt = plain (.sym 60 :: (lexemes a ++ .sym 44 :: .space :: lexemes b ++ [.sym 62])))
    (hr : rest ≠ []) (hf : ts.length ≤ f) :
    angleMap (parseType f) (ts ++ rest) = .ok (.map a b, rest) := by
  obtain ⟨lt, as, comma, bs, gt, rfl, hlt, has, hcomma, hbs, hgt⟩ := tokens_pair ht
  simp only [List.length_cons, List.length_append, List.length_nil] at hf
  have hra := ha f as (comma :: (bs ++ gt :: rest)) has (List.cons_ne_nil _ _)
    (check_arrow hcomma (by decide)) (by omega)
  have hrb := hb f bs (gt :: rest) hbs (List.cons_ne_nil _ _) (check_arrow hgt (by decide))
    (by omega)
  have he : lt :: (as ++ comma :: (bs ++ [gt])) ++ rest =
      lt :: (as ++ comma :: (bs ++ gt :: rest)) := by simp
  rw [he, Parser.angleMap, if_pos (tsCheck_pos hlt _), tsAdvance_cons (by simp), hra]
  show (tsExpect .comma _ (comma :: (bs ++ gt :: rest)) >>= _) = _
  rw [tsExpect_cons _ hcomma (by simp)]
  show (parseType f (bs ++ gt :: rest) >>= _) = _
  rw [hrb]
  show (tsExpect .gt _ (gt :: rest) >>= _) = _
  rw [tsExpect_cons _ hgt hr]
  rfl

theorem ReadsBack.angleResult {a b : Ty} (ha : ReadsBack a) (hb : ReadsBack b)
    (ht : ts.map kt = plain (.sym 60 :: (lexemes a ++ .sym 44 :: .space :: lexemes b ++ [.sym 62])))
    (hr : rest ≠ []) (hf : ts.length ≤ f) :
    angleResult (parseType f) (ts ++ rest) = .ok (.result a b, rest) := by
  obtain ⟨lt, as, comma, bs, gt, rfl, hlt, has, hcomma, hbs, hgt⟩ := tokens_pair ht
  simp only [List.length_cons, List.length_append, List.length_nil] at hf
  have hra := ha f as (comma :: (bs ++ gt :: rest)) has (List.cons_ne_nil _ _)
    (check_arrow hcomma (by decide)) (by omega)
  have hrb := hb f bs (gt :: rest) hbs (List.cons_ne_nil _ _) (check_arrow hgt (by decide))
    (by omega)
  have he : lt :: (as ++ comma :: (bs ++ [gt])) ++ rest =
      lt :: (as ++ comma :: (bs ++ gt :: rest)) := by simp
  have herr : errType (parseType f) (comma :: (bs ++ gt :: rest)) = .ok (b, gt :: rest) := by
    rw [errType, if_pos (tsCheck_pos hcomma _), tsAdvance_cons (by simp), hrb]
  rw [he, Parser.angleResult, if_pos (tsCheck_pos hlt _), tsAdvance_cons (by simp), hra]
  show (errType (parseType f) (comma :: (bs ++ gt :: rest)) >>= _) = _
  rw [herr]
  show (tsExpect .gt _ (gt :: rest) >>= _) = _
  rw [tsExpect_cons _ hgt hr]
  rfl

theorem ReadsBack.all {ps : List Ty} (hs : ∀ p ∈ ps, Surface p) (h : ∀ p ∈ ps, ReadsBack p) :
    ReadsAll ps := by
  induction ps with
  | nil =>
    intro f ts rest ht hr hc hf
    obtain rfl := List.map_eq_nil_iff.1 ht
    obtain ⟨f, rfl⟩ := Nat.exists_eq_succ_of_ne_zero (Nat.ne_of_gt hf)
    rw [List.nil_append, parseParams, hc]
    rfl
  | cons p ps ih =>
    intro f ts rest ht hr hc hf
    obtain ⟨hp, hps⟩ := List.forall_mem_cons.1 h
    obtain ⟨hsp, hsps⟩ := List.forall_mem_cons.1 hs
    obtain ⟨f, rfl⟩ := Nat.exists_eq_succ_of_ne_zero (Nat.ne_of_gt (Nat.zero_lt_of_lt hf))
    have hfirst : ∀ us vs : List Token, us.map kt = plain (lexemes p) →
        (tsCheck (us ++ vs) .rparen || tsCheck (us ++ vs) .eof) = false := by
      intro us vs hus
      obtain ⟨u, us, rfl, h1, h2, -⟩ := hsp.first hus
      rw [List.cons_append, tsCheck_cons, tsCheck_cons, decide_eq_false h1, decide_eq_false h2]
      rfl
    cases ps with
    | nil =>
      have hcomma : tsCheck rest .comma = false := by
        rw [tsCheck, of_decide_eq_true hc]
        rfl
      have harrow : tsCheck rest .arrow = false := by
        rw [tsCheck, of_decide_eq_true hc]
        rfl
      rw [parseParams, hfirst ts rest ht, hp f ts rest ht hr harrow (Nat.lt_succ_iff.1 hf)]
      show (if tsCheck rest .comma then _ else _) = _
      rw [hcomma]
      rfl
    | cons q ps =>
      rw [paramLexemes, plain_append] at ht
      obtain ⟨as, us, rfl, has, hus⟩ := tokens_append ht
      obtain ⟨comma, us, rfl, hcomma, -, hus⟩ := tokens_cons hus
      rw [List.length_append, List.length_cons] at hf
      have hrp := hp f as (comma :: (us ++ rest)) has (List.cons_ne_nil _ _)
        (check_arrow hcomma (by decide)) (by omega)
      rw [List.append_assoc, List.cons_append, parseParams, hfirst as _ has, hrp]
      show (if tsCheck (comma :: (us ++ rest)) .comma then _ else _) = _
      rw [tsCheck_pos (k := .comma) hcomma, tsAdvance_cons (by simp [hr])]
      show (parseParams f (us ++ rest) >>= _) = _
      rw [ih hsps hps f us rest hus hr hc (by omega)]
      rfl

theorem ReadsAll.fnType {ps : List Ty} {r : Ty} (h : ReadsAll ps) (hr : ReadsBack r)
    (ht : ts.map kt = plain (paramLexemes ps ++ .sym 41 ::
      (if r.isVoid then [] else .space :: .arrow :: .space :: lexemes r)))
    (hrest : rest ≠ []) (ha : tsCheck rest .arrow = false) (hf : ts.length ≤ f) :
    fnType (parseType f) (parseParams f) (ts ++ rest) = .ok (.fn ps r false, rest) := by
  rw [plain_append] at ht
  obtain ⟨as, us, rfl, has, hus⟩ := tokens_append ht
  obtain ⟨rp, us, rfl, hrp, -, hus⟩ := tokens_cons hus
  rw [List.length_append, List.length_cons] at hf
  have hps := h f as (rp :: (us ++ rest)) has (List.cons_ne_nil _ _) (tsCheck_pos hrp _) (by omega)
  rw [List.append_assoc, List.cons_append, Parser.fnType, hps]
  show (tsExpect .rparen _ (rp :: (us ++ rest)) >>= _) = _
  rw [tsExpect_cons (k := .rparen) _ hrp (by simp [hrest])]
  show (if tsCheck (us ++ rest) .arrow then _ else _) = _
  cases hv : r.isVoid with
  | true =>
    rw [hv, if_pos rfl] at hus
    obtain rfl := List.map_eq_nil_iff.1 hus
    rw [List.nil_append, ha, isVoid_eq hv]
    rfl
  | false =>
    rw [hv] at hus
    obtain ⟨arrow, us, rfl, harrow, -, hus⟩ := tokens_cons hus
    rw [List.cons_append, tsCheck_pos harrow, tsAdvance_cons (by simp [hrest])]
    show (parseType f (us ++ rest) >>= _) = _
    rw [hr f us rest hus hrest ha (by rw [List.length_cons] at hf; omega)]
    rfl

/-- **`parse_type` reads a clear type back.** -/
theorem parse_plain (h : Surface t) (hc : clear t = true) : ReadsBack t := by
  induction h with
  | prim hk =>
    intro f ts rest ht hr _ hf
    obtain ⟨u, us, rfl, hu, htext, hus⟩ := tokens_cons ht
    obtain rfl := List.map_eq_nil_iff.1 hus
    obtain ⟨f, rfl⟩ := Nat.exists_eq_add_one.2 hf
    rw [List.singleton_append, parseType_name (.inl (hu.trans (primName_word hk).1)) hr, htext]
    exact namedType_prim hk
  | cls hn =>
    intro f ts rest ht hr _ hf
    obtain ⟨u, us, rfl, hu, htext, hus⟩ := tokens_cons ht
    obtain rfl := List.map_eq_nil_iff.1 hus
    obtain ⟨f, rfl⟩ := Nat.exists_eq_add_one.2 hf
    rw [List.singleton_append, parseType_name (.inl (hu.trans hn.2.1)) hr, htext]
    exact namedType_cls hn
  | @array e _ ih =>
    intro f ts rest ht hr _ hf
    obtain ⟨u, us, rfl, hu, -, hus⟩ := tokens_cons ht
    rw [plain_append] at hus
    obtain ⟨es, us, rfl, hes, hus⟩ := tokens_append hus
    obtain ⟨rb, us, rfl, hrb, -, hus⟩ := tokens_cons hus
    obtain rfl := List.map_eq_nil_iff.1 hus
    rw [List.length_cons, List.length_append, List.length_singleton] at hf
    obtain ⟨f, rfl⟩ := Nat.exists_eq_add_one.2 (Nat.zero_lt_of_lt hf)
    rw [List.cons_append, List.append_assoc, List.singleton_append,
      parseType_lbracket hu (by simp), ih hc f es (rb :: rest) hes (List.cons_ne_nil _ _)
        (check_arrow hrb (by decide)) (by omega)]
    show (tsExpect .rbracket _ (rb :: rest) >>= _) = _
    rw [tsExpect_cons (k := .rbracket) _ hrb hr]
    rfl
  | vec _ ih =>
    exact .named rfl (by decide) fun f ts rest ht hr hf =>
      (ih (Bool.and_eq_true_iff.1 hc).1).angle1 .vec _ ht hr hf
  | set _ ih =>
    exact .named rfl (by decide) fun f ts rest ht hr hf =>
      (ih (Bool.and_eq_true_iff.1 hc).1).angle1 .set _ ht hr hf
  | option _ ih =>
    exact .named rfl (by decide) fun f ts rest ht hr hf =>
      (ih (Bool.and_eq_true_iff.1 hc).1).angle1 .option _ ht hr hf
  | map _ _ ihk ihv =>
    obtain ⟨hk, hv⟩ := Bool.and_eq_true_iff.1 hc
    exact .named rfl (by decide) fun f ts rest ht hr hf =>
      (ihk hk).angleMap (ihv (Bool.and_eq_true_iff.1 hv).1) ht hr hf
  | result _ _ iho ihe =>
    obtain ⟨ho, he⟩ := Bool.and_eq_true_iff.1 hc
    exact .named rfl (by decide) fun f ts rest ht hr hf =>
      (iho ho).angleResult (ihe (Bool.and_eq_true_iff.1 he).1) ht hr hf
  | @ref e h ih =>
    intro f ts rest ht hr ha hf
    obtain ⟨u, us, rfl, hu, -, hus⟩ := tokens_cons ht
    obtain ⟨f, rfl⟩ := Nat.exists_eq_add_one.2 (Nat.zero_lt_of_lt hf)
    have hmut : eatIdent (ascii "mut") (us ++ rest) = (false, us ++ rest) := by
      obtain ⟨v, vs, rfl, -, -, hv⟩ := h.first hus
      refine if_neg fun he => ?_
      obtain ⟨h1, h2⟩ := Bool.and_eq_true_iff.1 he
      exact hv (of_decide_eq_true h1) (of_decide_eq_true h2)
    rw [List.cons_append, parseType_amp hu hmut (by simp [hr]),
      ih (Bool.and_eq_true_iff.1 hc).1 f us rest hus hr ha (Nat.le_of_succ_le_succ hf)]
    rfl
  | mutref => cases hc
  | ptr _ ih =>
    intro f ts rest ht hr ha hf
    obtain ⟨u, us, rfl, hu, -, hus⟩ := tokens_cons ht
    obtain ⟨f, rfl⟩ := Nat.exists_eq_add_one.2 (Nat.zero_lt_of_lt hf)
    rw [List.cons_append, parseType_star hu (by simp [hr]),
      ih (Bool.and_eq_true_iff.1 hc).1 f us rest hus hr ha (Nat.le_of_succ_le_succ hf)]
    rfl
  | own _ ih =>
    intro f ts rest ht hr ha hf
    obtain ⟨u, us, rfl, hu, -, hus⟩ := tokens_cons ht
    obtain ⟨f, rfl⟩ := Nat.exists_eq_add_one.2 (Nat.zero_lt_of_lt hf)
    rw [List.cons_append, parseType_own (hu.trans (by decide)) (by simp [hr]),
      ih hc f us rest hus hr ha (Nat.le_of_succ_le_succ hf)]
    rfl
  | @fn ps r hps _ ihps ihr =>
    intro f ts rest ht hr ha hf
    obtain ⟨-, hc⟩ := Bool.and_eq_true_iff.1 hc
    obtain ⟨hcs, hc⟩ := Bool.and_eq_true_iff.1 hc
    have hall : ReadsAll ps := ReadsBack.all hps fun p hp => ihps p hp (clearAll_iff.1 hcs p hp)
    obtain ⟨u, us, rfl, hu, htext, hus⟩ := tokens_cons ht
    obtain ⟨lp, us, rfl, hlp, -, hus⟩ := tokens_cons hus
    rw [List.length_cons, List.length_cons] at hf
    obtain ⟨f, rfl⟩ := Nat.exists_eq_add_one.2 (Nat.zero_lt_of_lt hf)
    rw [List.cons_append, parseType_name (.inr (hu.trans (by decide))) (by simp), htext,
      List.cons_append, namedType_fn (tsCheck_pos hlp _), tsAdvance_cons (by simp [hr])]
    exact hall.fnType (ihr hc) hus hr ha (by omega)
  | callable => cases hc

/-! ## the whole text -/

theorem kwLookup_ne (w : Bytes) : kwLookup w ≠ .newline := by
  have hk : ∀ p ∈ keywords, p.2 ≠ TokKind.newline := by decide
  rw [kwLookup]
  cases hf : keywords.find? fun p => p.1 = w with
  | none => exact TokKind.noConfusion
  | some p => exact hk p (List.mem_of_find?_eq_some hf)

theorem symKind_ne (c : UInt8) : symKind c ≠ .newline := by
  unfold symKind
  split_ifs <;> exact TokKind.noConfusion

theorem doubleKind_ne {c : UInt8} (h : doubleKind c = some k) : k ≠ .newline := by
  rintro rfl
  unfold doubleKind at h
  split_ifs at h <;> cases h

theorem munch_newline (ls : List Lexeme) : ∀ q ∈ munch ls, q.1 ≠ .newline := by
  fun_induction munch ls with
  | case1 => exact List.forall_mem_nil _
  | case2 ls ih => exact ih
  | case3 w ls ih => exact List.forall_mem_cons.2 ⟨kwLookup_ne w, ih⟩
  | case4 ls ih => exact List.forall_mem_cons.2 ⟨TokKind.noConfusion, ih⟩
  | case5 c d ls k hk ih =>
    refine List.forall_mem_cons.2 ⟨?_, ih⟩
    split at hk
    · exact doubleKind_ne hk
    · cases hk
  | case6 c d ls _ ih => exact List.forall_mem_cons.2 ⟨symKind_ne c, ih⟩
  | case7 c ls _ ih => exact List.forall_mem_cons.2 ⟨symKind_ne c, ih⟩

theorem filterLoop_id (h : ∀ u ∈ ts, u.kind ≠ .newline) (st : List Recorded) (k : TokKind) :
    filterLoop st k ts = ts := by
  induction ts generalizing st k with
  | nil => rfl
  | cons u ts ih =>
    obtain ⟨hu, hts⟩ := List.forall_mem_cons.1 h
    rw [filterLoop, if_neg hu, ih hts]

/-- the tokens of the text of a type -/
theorem lex_type (strtod : Bytes → Double) (h : Surface t) :
    ∃ toks e, lexAll strtod (typeToString t) = some (.ok (toks ++ [e])) ∧ e.kind = .eof ∧
      toks.map kt = munch (lexemes t) := by
  have hchain : (lexemes t).IsChain Apart := by
    have hc := h.readable.chain [] (fun _ _ he => nomatch he) .nil
    rwa [List.append_nil] at hc
  obtain ⟨toks, e, hraw, he, hq⟩ :=
    lexRaw_munch strtod h.readable.valid hchain .start (Nat.lt_succ_self _)
  refine ⟨toks, e, ?_, he, hq⟩
  have hnl : ∀ u ∈ toks ++ [e], u.kind ≠ .newline := by
    intro u hu
    rcases List.mem_append.1 hu with hu | hu
    · exact munch_newline (lexemes t) (kt u) (hq ▸ List.mem_map_of_mem hu)
    · rw [List.mem_singleton.1 hu, he]
      exact TokKind.noConfusion
  rw [lexAll, h.flat, hraw]
  show some (Except.ok (dropNewlines (toks ++ [e]))) = _
  rw [dropNewlines, filterLoop_id hnl]

/-- the text is read as the type, up to the end of the tokens -/
def ComesBack (strtod : Bytes → Double) (t : Ty) : Prop :=
  ∃ toks e, lexAll strtod (typeToString t) = some (.ok toks) ∧ e.kind = .eof ∧
    ∀ f, toks.length ≤ f → parseType f toks = .ok (t, [e])

/-- the tokens of a clear type -/
theorem parse_clear (h : Surface t) (hc : clear t = true) (ht : ts.map kt = munch (lexemes t))
    (hu : u.kind = .eof) (hf : ts.length ≤ f) : parseType f (ts ++ [u]) = .ok (t, [u]) := by
  have hplain := h.spread hc [] (fun _ _ he => nomatch he)
  rw [List.append_nil] at hplain
  refine parse_plain h hc f ts [u] ?_ (List.cons_ne_nil _ _) (check_arrow hu (by decide)) hf
  rw [ht, hplain]
  exact List.append_nil _

/-- **`parse_type` stops inside of `Bad` lexemes.** -/
theorem parse_bad {ls : List Lexeme} (hb : Bad ls) (ht : ts.map kt = munch ls) (hu : u.kind = .eof)
    (f : Nat) (t : Ty) (e : Token) : parseType f (ts ++ [u]) ≠ .ok (t, [e]) := by
  intro h
  obtain ⟨-, w, hw, hp⟩ := (parse_passes f).1 _ _ _ ⟨ts, u, rfl, hu⟩ h
  obtain ⟨rfl, -⟩ := List.append_inj' hw rfl
  obtain ⟨q, hq, hk⟩ := munch_bad hb
  rw [← ht] at hq
  obtain ⟨v, hv, rfl⟩ := List.mem_map.1 hq
  exact absurd (hp v hv) (by rw [show v.kind = (kt v).1 from rfl, hk]; decide)

theorem clear_of_comesBack {strtod : Bytes → Double} (h : Surface t) (hb : ComesBack strtod t) :
    clear t = true := by
  obtain ⟨us, e, hus, -, hp⟩ := hb
  obtain ⟨ts, u, hts, hu, hq⟩ := lex_type strtod h
  obtain rfl : us = ts ++ [u] := by
    rw [hts] at hus
    cases hus
    rfl
  have he := hp _ (le_refl _)
  rcases bad_or_clear h with hb | hc
  · exact absurd he (parse_bad hb hq hu _ _ _)
  · -- the type is read as the one without `callable`
    obtain ⟨hs, hl, -⟩ := h.strip
    rw [parse_clear hs hc (hl ▸ hq) hu (by simp)] at he
    rwa [(Prod.mk.inj (Except.ok.inj he)).1] at hc

/-- **Which types come back from their text**: a type that can be written does if and only if in its
text no `>>`, `&&`, `**` and no `&mut` is, and it has no `callable`. -/
theorem type_round_trip (strtod : Bytes → Double) (t : Ty) (h : Surface t) :
    ComesBack strtod t ↔ clear t = true := by
  refine ⟨clear_of_comesBack h, fun hc => ?_⟩
  obtain ⟨ts, u, hts, hu, hq⟩ := lex_type strtod h
  refine ⟨_, u, hts, hu, fun f hf => parse_clear h hc hq hu (le_trans ?_ hf)⟩
  rw [List.length_append]
  exact Nat.le_add_right _ _

theorem type_round_trip_map :
    ComesBack (fun _ => ⟨0⟩) (.map .string (.array (.vec .int))) :=
  (type_round_trip _ _ (.map (.prim rfl) (.array (.vec (.prim rfl))))).2 rfl

/-- `Vec<Vec<int>>` is not read -/
theorem type_nested_vec : ¬ ∀ strtod t, Surface t → ComesBack strtod t := fun h =>
  absurd (clear_of_comesBack (.vec (.vec (.prim rfl)))
    (h (fun _ => ⟨0⟩) (.vec (.vec .int)) (.vec (.vec (.prim rfl))))) (by decide)

end Parser
end HolyPhp
