import HolyPhp.Lib.Progress
import HolyPhp.Parser.Types

/-!
# The cursor of the parser

* `State`, `Halt`   the tokens that are left with `loop_depth`, and why there is no result;
* `tsMatch`, `expect`, `advance`  the functions on the stream, as steps of a parser;
* `whileLoop`       the loops of the parser;
* `meter`           the tokens that are left, and the errors of a parser that does not end;
* `Starts`          what reads something at every token but the last one;
* `parseTy_eats`    **`parse_type` ends, and reads something.**
-/

set_option autoImplicit false

namespace HolyPhp
namespace Grammar
open HolyPhp.Lexer HolyPhp.Parser Progress
open Sema (Ty)

structure State where
  toks : List Token
  loopDepth : Nat

inductive Halt where
  /-- `ts_expect` -/
  | expected (found : Token) (k : TokKind) (what : Bytes)
  | fatal (line : Nat) (col : Option Nat) (msg : Bytes)
  /-- the lexer goes behind the end of the text of an embedded expression -/
  | over
  /-- a round of a loop has read nothing, and there is another one -/
  | idle
  /-- the bound on the depth of the calls is reached -/
  | deep

/-- a run that does not end -/
def Halt.stuck : Halt → Bool
  | idle => true
  | deep => true
  | _ => false

abbrev P (α : Type) := Comp State Halt α

/-! ## the stream -/

/-- `items[idx + i < len ? idx + i : len - 1]` -/
def peekAt (i : Nat) (s : State) : Token := tsPeek (s.toks.drop (min i (s.toks.length - 1)))

def State.kind (s : State) : TokKind := (tsPeek s.toks).kind

def advance : P Token := fun s => .ok (tsPeek s.toks, { s with toks := tsAdvance s.toks })

def check (k : TokKind) : P Bool := fun s => .ok (tsCheck s.toks k, s)

/-- `ts_check(k) || ts_check(T_EOF)` -/
def atEnd (k : TokKind) : P Bool := fun s => .ok (tsCheck s.toks k || tsCheck s.toks .eof, s)

/-- `ts_match`, and `ts_check` with `ts_advance` in the branch -/
def tsMatch (k : TokKind) : P Bool := fun s =>
  if tsCheck s.toks k then .ok (true, { s with toks := tsAdvance s.toks }) else .ok (false, s)

def expect (k : TokKind) (what : String) : P Token := fun s =>
  if tsCheck s.toks k then .ok (tsPeek s.toks, { s with toks := tsAdvance s.toks })
  else .error (.expected (tsPeek s.toks) k (ascii what))

/-- `fatal` with the place of a token -/
def fatalAt {α : Type} (t : Token) (msg : Bytes) : P α := fun _ =>
  .error (.fatal t.line (some t.col) msg)

/-- `at_ident` -/
def State.atIdent (s : State) (kw : String) : Bool :=
  tsCheck s.toks .ident && (tsPeek s.toks).text = ascii kw

def eatIdent (kw : String) : P Bool := fun s =>
  if s.atIdent kw then .ok (true, { s with toks := tsAdvance s.toks }) else .ok (false, s)

/-- `at_kw_ident` with `ts_advance` -/
def eatIdentOrKw (kw : String) (k : TokKind) : P Bool := fun s =>
  if s.atIdent kw || tsCheck s.toks k then .ok (true, { s with toks := tsAdvance s.toks })
  else .ok (false, s)

/-- one of the kinds, and past it -/
def matchAny (ks : List TokKind) : P (Option Token) := fun s =>
  if ks.contains s.kind then
    .ok (some (tsPeek s.toks), { s with toks := tsAdvance s.toks })
  else .ok (none, s)

def setDepth (f : Nat → Nat) : P Unit := fun s => .ok ((), { s with loopDepth := f s.loopDepth })

/-! ## loops -/

def whileLoop {α : Type} (body : α → P (Bool × α)) (a : α) : P α :=
  loop (fun s => s.toks.length) Halt.idle body a

def skipNl : P Unit :=
  whileLoop (fun _ => do return (← tsMatch .newline, ())) ()

def expectNlOrSemi : P Unit := do
  skipNl
  if ← tsMatch .semi then skipNl

/-- `while (!ts_check(close) && !ts_check(T_EOF)) { item; if (!ts_match(T_COMMA)) break; }` -/
def commaList {α : Type} (close : TokKind) (item : P α) : P (List α) :=
  whileLoop (fun xs => do
    if ← atEnd close then return (false, xs)
    else
      let x ← item
      return (← tsMatch .comma, xs ++ [x])) []

/-- `do { item; } while (ts_match(T_COMMA))` -/
def commaItems {α : Type} (item : P α) : P (List α) :=
  whileLoop (fun xs => do
    let x ← item
    return (← tsMatch .comma, xs ++ [x])) []

/-- the loop up to a `}`; a newline and a `;` are passed over -/
def bracesLoop {α : Type} (item : α → P α) (a : α) : P α :=
  whileLoop (fun a => do
    if ← atEnd .rbrace then return (false, a)
    else
      match ← matchAny [.newline, .semi] with
      | some _ => return (true, a)
      | none => return (true, ← item a)) a

/-- a type: the calls in `parse_type` are at most twice as deep as there are tokens -/
def parseTy : P Ty := fun s =>
  match parseType (2 * s.toks.length + 2) s.toks with
  | .ok (t, ts) => .ok (t, { s with toks := ts })
  | .error (.expected found k what) => .error (.expected found k what)
  | .error .fuel => .error .deep

/-- `if (!ts_check(k)) x = p` -/
def unlessAt {α : Type} (k : TokKind) (p : P α) : P (Option α) := do
  if ← check k then return none else return some (← p)

/-- `if (ts_match(k)) x = p` -/
def optional {α : Type} (k : TokKind) (p : P α) : P (Option α) := do
  if ← tsMatch k then return some (← p) else return none

/-! ## progress -/

/-- a kind that is not the one behind the last token -/
class Inner (k : TokKind) : Prop where
  ne : k ≠ .eof

instance : Inner .newline := ⟨nofun⟩
instance : Inner .semi := ⟨nofun⟩
instance : Inner .comma := ⟨nofun⟩
instance : Inner .lparen := ⟨nofun⟩
instance : Inner .rparen := ⟨nofun⟩
instance : Inner .lbrace := ⟨nofun⟩
instance : Inner .rbrace := ⟨nofun⟩
instance : Inner .lbracket := ⟨nofun⟩
instance : Inner .rbracket := ⟨nofun⟩
instance : Inner .lt := ⟨nofun⟩
instance : Inner .gt := ⟨nofun⟩
instance : Inner .colon := ⟨nofun⟩
instance : Inner .doublearrow := ⟨nofun⟩
instance : Inner .arrow := ⟨nofun⟩
instance : Inner .assign := ⟨nofun⟩
instance : Inner .amp := ⟨nofun⟩
instance : Inner .star := ⟨nofun⟩
instance : Inner .ellipsis := ⟨nofun⟩
instance : Inner .questionquestion := ⟨nofun⟩
instance : Inner .var := ⟨nofun⟩
instance : Inner .ident := ⟨nofun⟩
instance : Inner .kwPublic := ⟨nofun⟩
instance : Inner .kwLet := ⟨nofun⟩
instance : Inner .kwDefault := ⟨nofun⟩
instance : Inner .kwCase := ⟨nofun⟩
instance : Inner .kwWhile := ⟨nofun⟩
instance : Inner .hphpCatch := ⟨nofun⟩
instance : Inner .hphpFinally := ⟨nofun⟩
instance : Inner .kwReturn := ⟨nofun⟩
instance : Inner .kwEcho := ⟨nofun⟩
instance : Inner .kwPrint := ⟨nofun⟩
instance : Inner .kwIf := ⟨nofun⟩
instance : Inner .kwFor := ⟨nofun⟩
instance : Inner .kwSwitch := ⟨nofun⟩
instance : Inner .kwDo := ⟨nofun⟩
instance : Inner .kwForeach := ⟨nofun⟩
instance : Inner .kwBreak := ⟨nofun⟩
instance : Inner .kwContinue := ⟨nofun⟩
instance : Inner .kwUnsafe := ⟨nofun⟩
instance : Inner .kwTry := ⟨nofun⟩
instance : Inner .hphpThrow := ⟨nofun⟩
instance : Inner .kwGlobal := ⟨nofun⟩
instance : Inner .kwProtected := ⟨nofun⟩
instance : Inner .kwPrivate := ⟨nofun⟩
instance : Inner .kwExtends := ⟨nofun⟩
instance : Inner .kwStatic := ⟨nofun⟩
instance : Inner .kwConst := ⟨nofun⟩
instance : Inner .kwImplements := ⟨nofun⟩
instance : Inner .kwClass := ⟨nofun⟩
instance : Inner .kwInterface := ⟨nofun⟩
instance : Inner .kwTrait := ⟨nofun⟩
instance : Inner .kwEnum := ⟨nofun⟩
instance : Inner .kwImport := ⟨nofun⟩
instance : Inner .kwMut := ⟨nofun⟩
instance : Inner .kwUse := ⟨nofun⟩
instance : Inner .kwElse := ⟨nofun⟩
instance : Inner .int := ⟨nofun⟩
instance : Inner .float := ⟨nofun⟩
instance : Inner .str := ⟨nofun⟩
instance : Inner .tpl := ⟨nofun⟩
instance : Inner .hphpTrue := ⟨nofun⟩
instance : Inner .hphpFalse := ⟨nofun⟩
instance : Inner .hphpNull := ⟨nofun⟩
instance : Inner .kwFunction := ⟨nofun⟩
instance : Inner .kwNew := ⟨nofun⟩
instance : Inner .kwMatch := ⟨nofun⟩
instance : Inner .coloncolon := ⟨nofun⟩
instance : Inner .kwAs := ⟨nofun⟩
instance : Inner .not := ⟨nofun⟩
instance : Inner .minus := ⟨nofun⟩
instance : Inner .plus := ⟨nofun⟩
instance : Inner .tilde := ⟨nofun⟩
instance : Inner .question := ⟨nofun⟩
instance : Inner .incr := ⟨nofun⟩
instance : Inner .decr := ⟨nofun⟩
instance : Inner .kwOwn := ⟨nofun⟩
instance : Inner .kwFn := ⟨nofun⟩

/-- the sources of embedded expressions are shorter -/
def Short (d : Nat) (t : Token) : Prop := ∀ e ∈ t.tpl.filterMap Prod.snd, e.length < d

def meter (d : Nat) : Meter State Halt where
  inv s := Stream s.toks ∧ ∀ t ∈ s.toks, Short d t
  size s := s.toks.length
  bad e := e.stuck = true

variable {α β : Type} {d n : Nat} {must : α → Bool} {k : TokKind} {s : State}

theorem stream_advance {ts : List Token} (h : Stream ts) : Stream (tsAdvance ts) := by
  obtain ⟨us, e, rfl, he⟩ := h
  cases us with
  | nil => exact ⟨[], e, rfl, he⟩
  | cons u us =>
    refine ⟨us, e, ?_, he⟩
    cases us <;> rfl

theorem mem_advance {ts : List Token} {t : Token} (h : t ∈ tsAdvance ts) : t ∈ ts := by
  match ts, h with
  | [_], h => exact h
  | _ :: _ :: _, h => exact List.mem_cons_of_mem _ h

/-- the last token is the only one that `ts_advance` stays at -/
theorem length_advance {ts : List Token} (h : Stream ts) (hk : (tsPeek ts).kind ≠ .eof) :
    (tsAdvance ts).length < ts.length := by
  obtain ⟨us, e, rfl, he⟩ := h
  cases us with
  | nil => exact absurd he hk
  | cons u us => cases us <;> exact Nat.lt_succ_self _

theorem length_advance_le (ts : List Token) : (tsAdvance ts).length ≤ ts.length := by
  match ts with
  | [] => exact Nat.le_refl _
  | [_] => exact Nat.le_refl _
  | _ :: _ :: _ => exact Nat.le_succ _

theorem inv_advance (h : (meter d).inv s) : (meter d).inv { s with toks := tsAdvance s.toks } :=
  ⟨stream_advance h.1, fun t ht => h.2 t (mem_advance ht)⟩

theorem check_kind (h : tsCheck s.toks k = true) : s.kind = k := of_decide_eq_true h

theorem check_ne (h : tsCheck s.toks k = true) (hk : k ≠ .eof) : s.kind ≠ .eof := fun he =>
  hk ((check_kind h).symm.trans he)

/-- past a token that is not the last one -/
theorem fine_advance {a : α} (h : (meter d).inv s) (hk : s.kind ≠ .eof) :
    Fine (meter d) s must (.ok (a, { s with toks := tsAdvance s.toks })) :=
  ⟨inv_advance h, length_advance_le _, fun _ => length_advance h.1 hk⟩

theorem fine_stay {a : α} (h : (meter d).inv s) (ha : must a = false) :
    Fine (meter d) s must (.ok (a, s)) :=
  ⟨h, Nat.le_refl _, fun h' => absurd (ha ▸ h') Bool.false_ne_true⟩

theorem advance_keeps : Keeps (meter d) n advance := fun _ hs _ =>
  ⟨inv_advance hs, length_advance_le _, fun h => nomatch h⟩

theorem check_keeps : Keeps (meter d) n (check k) := fun _ hs _ => fine_stay hs rfl

theorem atEnd_keeps : Keeps (meter d) n (atEnd k) := fun _ hs _ => fine_stay hs rfl

theorem setDepth_keeps {f : Nat → Nat} : Keeps (meter d) n (setDepth f) := fun _ hs _ =>
  ⟨hs, Nat.le_refl _, fun h => nomatch h⟩

theorem fatalAt_takes {t : Token} {msg : Bytes} : Takes (meter d) n must (fatalAt t msg) :=
  .throw Bool.false_ne_true

theorem tsMatch_takes [Inner k] : Takes (meter d) n id (tsMatch k) := by
  intro s hs _
  unfold tsMatch
  split
  · next hc => exact fine_advance hs (check_ne hc Inner.ne)
  · exact fine_stay hs rfl

theorem expect_eats {what : String} [Inner k] :
    Eats (meter d) n (expect k what) := by
  intro s hs _
  unfold expect
  split
  · next hc => exact fine_advance hs (check_ne hc Inner.ne)
  · exact Bool.false_ne_true

theorem atIdent_kind {kw : String} (h : s.atIdent kw = true) : s.kind = .ident :=
  check_kind (Bool.and_eq_true_iff.1 h).1

theorem eatIdent_takes {kw : String} : Takes (meter d) n id (eatIdent kw) := by
  intro s hs _
  unfold eatIdent
  split
  · next hc => exact fine_advance hs (by rw [atIdent_kind hc]; exact TokKind.noConfusion)
  · exact fine_stay hs rfl

theorem eatIdentOrKw_takes {kw : String} [Inner k] :
    Takes (meter d) n id (eatIdentOrKw kw k) := by
  intro s hs _
  unfold eatIdentOrKw
  split
  · next hc =>
    refine fine_advance hs ?_
    rcases Bool.or_eq_true_iff.1 hc with hi | hc
    · rw [atIdent_kind hi]
      exact TokKind.noConfusion
    · exact check_ne hc Inner.ne
  · exact fine_stay hs rfl

theorem matchAny_takes {ks : List TokKind} (hk : ks.contains .eof = false) :
    Takes (meter d) n Option.isSome (matchAny ks) := by
  intro s hs _
  unfold matchAny
  split
  · next hc => exact fine_advance hs fun h => by rw [h, hk] at hc; cases hc
  · exact fine_stay hs rfl

theorem expectFirst {what : String} {f : Token → P β} {must : β → Bool}
    (hf : ∀ t, Keeps (meter d) (n - 1) (f t)) [Inner k] :
    Takes (meter d) n must (expect k what >>= f) :=
  (expect_eats).first hf

theorem expectBind {what : String} {f : Token → P β} {must : β → Bool}
    (hf : ∀ t, Takes (meter d) n must (f t)) [Inner k] :
    Takes (meter d) n must (expect k what >>= f) :=
  (expect_eats).keeps.bind hf

theorem matchBind {f : Bool → P β} {must : β → Bool} (hf : ∀ b, Takes (meter d) n must (f b))
    [Inner k] : Takes (meter d) n must (tsMatch k >>= f) :=
  (tsMatch_takes).keeps.bind hf

theorem whileLoop_keeps {body : α → P (Bool × α)}
    (h : ∀ a, Takes (meter d) n Prod.fst (body a)) (a : α) :
    Keeps (meter d) n (whileLoop body a) :=
  Takes.loop h a

theorem whileLoop_eats {body : α → P (Bool × α)} (h : ∀ a, Eats (meter d) n (body a)) (a : α) :
    Eats (meter d) n (whileLoop body a) :=
  Takes.loop_eats h a

/-- `if (ts_match(k)) p else q` -/
theorem ifMatch {p q : P α} (hp : Keeps (meter d) (n - 1) p) (hq : Takes (meter d) n must q)
    [Inner k] :
    Takes (meter d) n must (tsMatch k >>= fun b => if b = true then p else q) := by
  refine (tsMatch_takes).next (fun b hb => ?_) fun b hb => ?_
  · rw [show b = false from hb, if_neg Bool.false_ne_true]
    exact hq
  · rw [if_pos (show b = true from hb)]
    exact hp

/-- `while (ts_match(k))`, and `if (!ts_match(k)) break` at the end of a round -/
theorem matchRound {a : α} [Inner k] :
    Takes (meter d) n Prod.fst (tsMatch k >>= fun b => pure (b, a)) :=
  (tsMatch_takes).next (fun _ hb => .pure hb) fun _ _ => .pure rfl

theorem skipNl_keeps : Keeps (meter d) n skipNl :=
  whileLoop_keeps (fun _ => matchRound) ()

theorem expectNlOrSemi_keeps : Keeps (meter d) n expectNlOrSemi :=
  skipNl_keeps.bind fun _ => ifMatch skipNl_keeps (.pure rfl)

theorem matchKeeps {p q : P α} (hp : Keeps (meter d) n p) (hq : Keeps (meter d) n q)
    [Inner k] :
    Keeps (meter d) n (tsMatch k >>= fun b => if b = true then p else q) :=
  ifMatch (hp.mono (Nat.sub_le n 1)) hq

theorem optional_keeps {p : P α} (hp : Keeps (meter d) n p) [Inner k] :
    Keeps (meter d) n (optional k p) :=
  matchKeeps (hp.bind fun _ => .pure rfl) (.pure rfl)

theorem unlessAt_keeps {p : P α} (hp : Keeps (meter d) n p) : Keeps (meter d) n (unlessAt k p) := by
  refine check_keeps.bind fun b => ?_
  split
  · exact .pure rfl
  · exact hp.bind fun _ => .pure rfl

theorem commaList_keeps {close : TokKind} {item : P α} (h : Eats (meter d) n item) :
    Keeps (meter d) n (commaList close item) := by
  refine whileLoop_keeps (fun xs => atEnd_keeps.bind fun b => ?_) []
  split
  · exact .pure rfl
  · exact h.first fun x => (tsMatch_takes).keeps.bind fun _ => .pure rfl

theorem commaItems_eats {item : P α} (h : Eats (meter d) n item) :
    Eats (meter d) n (commaItems item) :=
  whileLoop_eats (fun _ => h.first fun _ =>
    (tsMatch_takes).keeps.bind fun _ => .pure rfl) []

theorem bracesLoop_keeps {item : α → P α} (h : ∀ a, Eats (meter d) n (item a)) (a : α) :
    Keeps (meter d) n (bracesLoop item a) := by
  refine whileLoop_keeps (fun a => atEnd_keeps.bind fun b => ?_) a
  split
  · exact .pure rfl
  · refine (matchAny_takes rfl).next (fun o ho => ?_) fun o ho => ?_
    · cases o with
      | none => exact (h a).first fun _ => .pure rfl
      | some t => cases ho
    · cases o with
      | none => cases ho
      | some t => exact .pure rfl

/-! ## what begins with a token -/

/-- it reads something at every token but the last one -/
def Starts (d n : Nat) (p : P α) : Prop :=
  ∀ s, (meter d).inv s → s.toks.length < n → s.kind ≠ .eof → Fine (meter d) s (fun _ => true) (p s)

theorem peek_mem {ts : List Token} (h : Stream ts) : tsPeek ts ∈ ts := by
  obtain ⟨us, e, rfl, -⟩ := h
  cases us with
  | nil => exact List.mem_singleton.2 rfl
  | cons u us => exact List.mem_cons_self

theorem Starts.advance {f : Token → P α}
    (hf : ∀ t, Short d t → Keeps (meter d) (n - 1) (f t)) : Starts d n (Grammar.advance >>= f) := by
  intro s hs hlt hk
  have hlen := length_advance hs.1 hk
  have ht := inv_advance hs
  have hr := hf (tsPeek s.toks) (hs.2 _ (peek_mem hs.1)) _ ht
    (show (tsAdvance s.toks).length < n - 1 by omega)
  show Fine (meter d) s _ (f (tsPeek s.toks) { s with toks := tsAdvance s.toks })
  cases hu : f (tsPeek s.toks) { s with toks := tsAdvance s.toks } with
  | error e =>
    rw [hu] at hr
    exact hr
  | ok r =>
    rw [hu] at hr
    have hlt := Nat.lt_of_le_of_lt hr.2.1 hlen
    exact ⟨hr.1, Nat.le_of_lt hlt, fun _ => hlt⟩

theorem Starts.at {p : P α} (h : Starts d n p) (hs : (meter d).inv s) (hlt : s.toks.length < n)
    (he : s.kind = k) [Inner k] : Fine (meter d) s must (p s) := by
  have hr := h s hs hlt fun h => Inner.ne (he.symm.trans h)
  cases hu : p s with
  | error e =>
    rw [hu] at hr
    exact hr
  | ok r =>
    rw [hu] at hr
    exact ⟨hr.1, hr.2.1, fun _ => hr.2.2 rfl⟩

/-! ## types -/

/-- for `parse_type`, which has no state but the tokens -/
def typeMeter : Meter (List Token) Fail where
  inv := Stream
  size := List.length
  bad e := match e with
    | .expected _ _ _ => False
    | .fuel => True

/-- `p` behind a token that is not the last one -/
theorem type_past {p : Parse α} {ts : List Token} (hp : Keeps typeMeter (n - 1) p)
    (hs : Stream ts) (hlt : ts.length < n) (hc : tsCheck ts k = true)
    [Inner k] : Fine typeMeter ts must (p (tsAdvance ts)) := by
  have hlen := length_advance hs fun h => Inner.ne ((of_decide_eq_true hc).symm.trans h)
  have hr := hp _ (stream_advance hs) (show (tsAdvance ts).length < n - 1 by omega)
  cases hu : p (tsAdvance ts) with
  | error e =>
    rw [hu] at hr
    exact hr
  | ok r =>
    rw [hu] at hr
    have hlt := Nat.lt_of_le_of_lt hr.2.1 hlen
    exact ⟨hr.1, Nat.le_of_lt hlt, fun _ => hlt⟩

theorem type_stay {a : α} {ts : List Token} (hs : Stream ts) :
    Fine typeMeter ts (fun _ => false) (.ok (a, ts)) :=
  ⟨hs, Nat.le_refl _, fun h => nomatch h⟩

theorem tsExpect_eats {what : Bytes} [Inner k] :
    Eats typeMeter n (tsExpect k what) := by
  intro ts hs hlt
  unfold tsExpect
  split
  · next hc =>
    exact type_past (p := fun us => .ok (tsPeek ts, us)) (fun us hu _ => type_stay hu) hs hlt hc
  · exact id

theorem angle1_keeps {p : Parse Ty} {mk : Ty → Ty} {what : Bytes}
    (hp : Keeps typeMeter (n - 1) p) : Keeps typeMeter n (angle1 p mk what) := by
  intro ts hs hlt
  unfold angle1
  split
  · next hc =>
    have h : Keeps typeMeter (n - 1) (p >>= fun el => tsExpect .gt what >>= fun _ => pure (mk el)) :=
      hp.bind fun _ => (tsExpect_eats).keeps.bind fun _ => .pure rfl
    exact type_past h hs hlt hc
  · exact type_stay hs

theorem angleMap_keeps {p : Parse Ty} (hp : Keeps typeMeter (n - 1) p) :
    Keeps typeMeter n (angleMap p) := by
  intro ts hs hlt
  unfold angleMap
  split
  · next hc =>
    have h : Keeps typeMeter (n - 1) (p >>= fun key =>
        tsExpect .comma (ascii "',' in Map<K, V>") >>= fun _ => p >>= fun val =>
          tsExpect .gt (ascii "'>' closing Map<") >>= fun _ => pure (Ty.map key val)) :=
      hp.bind fun _ => (tsExpect_eats).keeps.bind fun _ =>
        hp.bind fun _ => (tsExpect_eats).keeps.bind fun _ => .pure rfl
    exact type_past h hs hlt hc
  · exact type_stay hs

theorem errType_keeps {p : Parse Ty} (hp : Keeps typeMeter (n - 1) p) :
    Keeps typeMeter n (errType p) := by
  intro ts hs hlt
  unfold errType
  split
  · next hc => exact type_past hp hs hlt hc
  · exact type_stay hs

theorem angleResult_keeps {p : Parse Ty} (hp : Keeps typeMeter (n - 1) p) :
    Keeps typeMeter n (angleResult p) := by
  intro ts hs hlt
  unfold angleResult
  split
  · next hc =>
    have h : Keeps typeMeter (n - 1) (p >>= fun ok => errType p >>= fun err =>
        tsExpect .gt (ascii "'>' closing Result<") >>= fun _ => pure (Ty.result ok err)) :=
      hp.bind fun _ => (errType_keeps (hp.mono (Nat.sub_le _ _))).bind fun _ =>
        (tsExpect_eats).keeps.bind fun _ => .pure rfl
    exact type_past h hs hlt hc
  · exact type_stay hs

theorem fnType_keeps {p : Parse Ty} {params : Parse (List Ty)} (hp : Keeps typeMeter n p)
    (hps : Keeps typeMeter n params) : Keeps typeMeter n (fnType p params) := by
  have hret : ∀ ps, Keeps typeMeter n fun ts =>
      if tsCheck ts .arrow then p (tsAdvance ts) >>= fun r => .ok (Ty.fn ps r.1 false, r.2)
      else .ok (Ty.fn ps .void false, ts) := by
    intro ps ts hs hlt
    dsimp only
    split
    · next hc =>
      have h : Keeps typeMeter (n - 1) (p >>= fun ret => pure (Ty.fn ps ret false)) :=
        (hp.mono (Nat.sub_le _ _)).bind fun _ => .pure rfl
      exact type_past h hs hlt hc
    · exact type_stay hs
  have hclose : Keeps typeMeter n (tsExpect .rparen (ascii "')' in fn type")) :=
    (tsExpect_eats).keeps
  exact hps.bind fun ps => hclose.bind fun _ => hret ps

theorem namedType_keeps {p : Parse Ty} {params : Parse (List Ty)} {name : Bytes}
    (hp : Keeps typeMeter (n - 1) p) (hps : Keeps typeMeter (n - 1) params) :
    Keeps typeMeter n (namedType p params name) := by
  intro ts hs hlt
  unfold namedType
  split
  · exact type_stay hs
  split
  · exact type_stay hs
  split
  · exact type_stay hs
  split
  · next hc => exact type_past (fnType_keeps hp hps) hs hlt hc.2
  split
  · exact angle1_keeps hp ts hs hlt
  split
  · exact angle1_keeps hp ts hs hlt
  split
  · exact angleMap_keeps hp ts hs hlt
  split
  · exact angle1_keeps hp ts hs hlt
  split
  · exact angleResult_keeps hp ts hs hlt
  · exact type_stay hs

/-- **`parse_type` ends** within this depth of calls, and reads something. -/
theorem parseType_eats (f : Nat) : (∀ n, 2 * n ≤ f → Eats typeMeter n (parseType f)) ∧
    ∀ n, 2 * n + 1 ≤ f → Keeps typeMeter n (parseParams f) := by
  induction f with
  | zero =>
    refine ⟨fun n hn => ?_, fun n hn => absurd hn (Nat.not_succ_le_zero _)⟩
    rw [show n = 0 by omega]
    exact .zero _
  | succ f ih =>
    obtain ⟨ht, hps⟩ := ih
    refine ⟨fun n hn => ?_, fun n hn => ?_⟩
    · have hp : Keeps typeMeter (n - 1) (parseType f) := (ht (n - 1) (by omega)).keeps
      have hel : ∀ mk : Ty → Ty, Keeps typeMeter (n - 1) (parseType f >>= fun el => pure (mk el)) :=
        fun mk => hp.bind fun _ => .pure rfl
      have hname : ∀ nm, Keeps typeMeter (n - 1) (namedType (parseType f) (parseParams f) nm) := by
        intro nm
        by_cases h0 : n = 0
        · subst h0
          exact .zero _
        · exact namedType_keeps (hp.mono (Nat.sub_le _ _))
            ((hps (n - 1) (by omega)).mono (Nat.sub_le _ _))
      intro ts hs hlt
      rw [parseType]
      split
      · next hc =>
        have hmut : Keeps typeMeter (n - 1) fun us => .ok (Parser.eatIdent (ascii "mut") us) := by
          intro us hu hlt
          dsimp only [Parser.eatIdent]
          split
          · next hm =>
            exact type_past (p := fun us => .ok (true, us))
              (fun us hu _ => type_stay hu) hu hlt (Bool.and_eq_true_iff.1 hm).1
          · exact type_stay hu
        have h : Keeps typeMeter (n - 1) (_ >>= fun m => parseType f >>= fun el =>
            pure (if m = true then Ty.mutref el else Ty.ref el)) :=
          hmut.bind fun m => hp.bind fun el => .pure rfl
        exact type_past h hs hlt hc
      split
      · next hc => exact type_past (hel .own) hs hlt hc
      split
      · next hc => exact type_past (hel .ptr) hs hlt hc
      split
      · next hc =>
        have h : Keeps typeMeter (n - 1) (parseType f >>= fun el =>
            tsExpect .rbracket (ascii "']' in array type") >>= fun _ => pure (Ty.array el)) :=
          hp.bind fun _ => (tsExpect_eats).keeps.bind fun _ => .pure rfl
        exact type_past h hs hlt hc
      split
      · next hc => exact type_past (hname _) hs hlt hc
      · have h : Eats typeMeter n (tsExpect .ident (ascii "type name") >>= fun nm =>
            namedType (parseType f) (parseParams f) nm.text) :=
          (tsExpect_eats).first fun nm => hname nm.text
        exact h ts hs hlt
    · have ht' : Eats typeMeter n (parseType f) := ht n (by omega)
      have hrest : ∀ t : Ty, Keeps typeMeter (n - 1) fun us =>
          if tsCheck us .comma then
            parseParams f (tsAdvance us) >>= fun r => .ok (t :: r.1, r.2)
          else .ok ([t], us) := by
        intro t us hu hlt
        dsimp only
        split
        · next hc =>
          have h : Keeps typeMeter (n - 1 - 1) (parseParams f >>= fun rest => pure (t :: rest)) :=
            ((hps (n - 1) (by omega)).mono (Nat.sub_le _ _)).bind fun _ => .pure rfl
          exact type_past h hu hlt hc
        · exact type_stay hu
      intro ts hs hlt
      rw [parseParams]
      split
      · exact type_stay hs
      · have h : Keeps typeMeter n (parseType f >>= _) := ht'.first hrest
        exact h ts hs hlt

theorem parseTy_eats : Eats (meter d) n parseTy := by
  intro s hs _
  have h := (parseType_eats (2 * s.toks.length + 2)).1 (s.toks.length + 1) (Nat.le_refl _) s.toks
    hs.1 (Nat.lt_succ_self _)
  unfold parseTy
  split
  · next t ts hr =>
    rw [hr] at h
    obtain ⟨w, hw, -⟩ := ((parse_passes _).1 _ _ _ hs.1 hr).2
    exact ⟨⟨h.1, fun u hu => hs.2 u (hw ▸ List.mem_append_right w hu)⟩, h.2⟩
  · exact Bool.false_ne_true
  · next hr =>
    rw [hr] at h
    exact absurd trivial h

end Grammar
end HolyPhp
