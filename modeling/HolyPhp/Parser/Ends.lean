import HolyPhp.Parser.ExprEnds
import HolyPhp.Parser.Sources
import HolyPhp.Parser.Stmts

/-!
# The parser ends

* `parseStmt_eats`, `parseDecl_eats`, `topLevel_eats`  what the loops of the parser go on with
  reads something;
* `functions_calls`  the calls are not deeper than five times the number of tokens;
* `embedded_ends`   nor are expressions in templates nested deeper than their text is long;
* `parse_ends`      **every stream is parsed, or there is an error.**
-/

set_option autoImplicit false

namespace HolyPhp
namespace Grammar
open HolyPhp.Lexer HolyPhp.Parser Progress
open Sema (Ty)

variable {d n : Nat} {r : Rec}

/-! ## blocks -/

section
variable (h : Calls d n r)
include h

theorem parseBlockBody_keeps : Keeps (meter d) n (parseBlockBody r) := by
  refine skipNl_keeps.bind fun _ => (stmtsLoop_keeps h).bind fun v => ?_
  exact expectBind fun _ => skipNl_keeps.bind fun _ => .pure rfl

theorem block_keeps (what : String) : Keeps (meter d) n (block r what) :=
  skipNl_keeps.bind fun _ => expectBind fun _ => parseBlockBody_keeps h

theorem loopBlock_keeps (what : String) : Keeps (meter d) n (loopBlock r what) := by
  refine skipNl_keeps.bind fun _ => expectBind fun _ => setDepth_keeps.bind fun _ => ?_
  exact (parseBlockBody_keeps h).bind fun _ => setDepth_keeps.bind fun _ => .pure rfl

theorem condition_keeps (before behind : String) :
    Keeps (meter d) n (condition r before behind) :=
  expectBind fun _ => h.assign.keeps.bind fun _ => expectBind fun _ => .pure rfl

end

/-! ## statements -/

theorem plainStmt_eats {p : P Stmt} (hp : Eats (meter d) n p) : Eats (meter d) n (plainStmt p) :=
  hp.first fun _ => expectNlOrSemi_keeps.bind fun _ => .pure rfl

theorem exprStmt_eats (ha : Eats (meter d) n r.assign) : Eats (meter d) n (exprStmt r) :=
  ha.first fun _ => .pure rfl

theorem breakStmt_starts : Starts d n breakStmt := by
  refine .advance fun t _ => Takes.bind (fun s hs _ => fine_stay hs rfl) fun depth => ?_
  split
  · exact fatalAt_takes
  · exact expectNlOrSemi_keeps.bind fun _ => .pure rfl

theorem globalStmt_starts : Starts d n globalStmt := by
  have hround : ∀ names, Takes (meter d) (n - 1) Prod.fst (globalRound names) := by
    refine fun names => check_keeps.bind fun b => ?_
    split
    · exact .pure rfl
    · exact expectFirst fun vn => matchBind fun _ => .pure rfl
  refine .advance fun t _ => (whileLoop_keeps hround []).bind fun names => ?_
  exact expectNlOrSemi_keeps.bind fun _ => .pure rfl

/-- one token goes, and another one is put in its place -/
theorem matchElseif_keeps : Keeps (meter d) n matchElseif := by
  intro s hs hlt
  unfold matchElseif
  split
  · next hc =>
    have ht := inv_advance hs
    have hlen := length_advance hs.1 (check_ne hc TokKind.noConfusion)
    obtain ⟨⟨us, e, hts, he⟩, hshort⟩ := ht
    refine ⟨⟨⟨_ :: us, e, congrArg (List.cons _) hts, he⟩, fun t hmem => ?_⟩, hlen, fun h =>
      nomatch h⟩
    rcases List.mem_cons.1 hmem with rfl | hmem
    · have hp : Short d (tsPeek (tsAdvance s.toks)) := hshort _ (peek_mem (stream_advance hs.1))
      exact hp
    · exact hshort t hmem
  · exact fine_stay hs rfl

theorem foreachVars_keeps : Keeps (meter d) n foreachVars := by
  refine (eatIdentOrKw_takes).keeps.bind fun b => ?_
  split
  · refine expectBind fun kv => matchKeeps ?_ (.pure rfl)
    exact expectBind fun _ => .pure rfl
  · exact fun s hs hlt => fatalAt_takes s hs hlt

theorem catchVar_keeps : Keeps (meter d) n catchVar := by
  refine check_keeps.bind fun b => ?_
  split
  · exact advance_keeps.bind fun _ => .pure rfl
  · exact parseTy_eats.keeps.bind fun _ => expectBind fun _ => .pure rfl

theorem caseColon_keeps : Keeps (meter d) n caseColon :=
  matchKeeps (.pure rfl) (matchBind fun _ => .pure rfl)

section
variable (h : Calls d (n - 1) r)
include h

theorem letStmt_starts : Starts d n (letStmt r) := by
  refine .advance fun t _ => matchBind fun _ => matchBind fun _ => expectBind fun vn => ?_
  refine (optional_keeps parseTy_eats.keeps).bind fun ann => ?_
  exact (optional_keeps h.assign.keeps).bind fun _ => .pure rfl

theorem parseSimpleStmt_eats (ha : Eats (meter d) n r.assign) :
    Eats (meter d) n (parseSimpleStmt r) := by
  intro s hs hlt
  unfold parseSimpleStmt
  split
  · next he => exact (letStmt_starts h).at hs hlt he
  · exact exprStmt_eats ha s hs hlt

theorem returnStmt_starts : Starts d n (returnStmt r) := by
  refine .advance fun t _ => Takes.bind (fun s hs hlt => ?_) fun value =>
    expectNlOrSemi_keeps.bind fun _ => .pure rfl
  split
  · exact fine_stay hs rfl
  · exact h.assign.keeps.bind (fun _ => .pure rfl) s hs hlt

theorem echoStmt_starts : Starts d n (echoStmt r) :=
  .advance fun _ _ => (commaItems_eats h.assign).keeps.bind fun _ =>
    expectNlOrSemi_keeps.bind fun _ => .pure rfl

theorem exprKeyword_starts (node : Expr → StmtNode) : Starts d n (exprKeyword r node) :=
  .advance fun _ _ => h.assign.keeps.bind fun _ => expectNlOrSemi_keeps.bind fun _ => .pure rfl

theorem elseBody_keeps : Keeps (meter d) (n - 1) (elseBody r) := by
  refine skipNl_keeps.bind fun _ => check_keeps.bind fun b => ?_
  split
  · exact h.stmt.keeps.bind fun _ => .pure rfl
  · exact expectBind fun _ => parseBlockBody_keeps h

theorem elsePart_keeps : Keeps (meter d) (n - 1) (elsePart r) := by
  refine matchElseif_keeps.bind fun b => ?_
  split
  · exact h.stmt.keeps.bind fun _ => .pure rfl
  · exact matchKeeps (elseBody_keeps h) (.pure rfl)

theorem ifStmt_starts : Starts d n (ifStmt r) := by
  refine .advance fun t _ => (condition_keeps h _ _).bind fun cond => ?_
  refine (block_keeps h _).bind fun body => skipNl_keeps.bind fun _ => ?_
  exact (elsePart_keeps h).bind fun _ => .pure rfl

theorem whileStmt_starts : Starts d n (whileStmt r) :=
  .advance fun _ _ => (condition_keeps h _ _).bind fun _ =>
    (loopBlock_keeps h _).bind fun _ => .pure rfl

theorem simple_eats : Eats (meter d) (n - 1) (parseSimpleStmt r) :=
  parseSimpleStmt_eats (h.mono (Nat.sub_le _ 1)) h.assign

theorem initRound_takes (init : List Stmt) :
    Takes (meter d) (n - 1) Prod.fst (initRound r init) := by
  refine check_keeps.bind fun b => ?_
  split
  · exact .pure rfl
  · refine atEnd_keeps.bind fun b => ?_
    split
    · exact .pure rfl
    · exact (simple_eats h).first fun _ => matchBind fun _ => .pure rfl

theorem forCond_keeps : Keeps (meter d) (n - 1) (forCond r) := by
  refine check_keeps.bind fun b => ?_
  split
  · exact .pure rfl
  · exact unlessAt_keeps h.assign.keeps

theorem forStmt_starts : Starts d n (forStmt r) := by
  refine .advance fun t _ => expectBind fun _ => ?_
  refine (whileLoop_keeps (initRound_takes h) []).bind fun init => matchBind fun _ => ?_
  refine (forCond_keeps h).bind fun cond => matchBind fun _ => ?_
  refine (commaList_keeps (simple_eats h)).bind fun step => expectBind fun _ => ?_
  exact (loopBlock_keeps h _).bind fun _ => .pure rfl

theorem caseLabel_eats : Eats (meter d) (n - 1) (caseLabel r) := by
  have ha : Keeps (meter d) (n - 1 - 1) r.assign := (h.assign.mono (Nat.sub_le _ 1)).keeps
  refine ifMatch (ha.bind fun _ => .pure rfl) (ifMatch (.pure rfl) ?_)
  exact fun s hs hlt => fatalAt_takes s hs hlt

theorem caseStmtRound_takes (xs : List Stmt) :
    Takes (meter d) (n - 1) Prod.fst (caseStmtRound r xs) := by
  intro s hs hlt
  unfold caseStmtRound
  split
  · exact fine_stay hs rfl
  · exact h.stmt.first (fun _ => skipNl_keeps.bind fun _ => .pure rfl) s hs hlt

theorem switchCase_eats : Eats (meter d) (n - 1) (switchCase r) := by
  refine (caseLabel_eats h).first fun v => caseColon_keeps.bind fun _ => ?_
  refine skipNl_keeps.bind fun _ => ?_
  have hround := fun xs => (caseStmtRound_takes h xs).mono (Nat.sub_le _ 1)
  exact (whileLoop_keeps hround []).bind fun _ => .pure rfl

theorem switchRound_takes (cases : List (SwitchCase Expr Stmt)) :
    Takes (meter d) (n - 1) Prod.fst (switchRound r cases) := by
  refine atEnd_keeps.bind fun b => ?_
  split
  · exact .pure rfl
  · exact (switchCase_eats h).first fun _ => .pure rfl

theorem switchStmt_starts : Starts d n (switchStmt r) := by
  refine .advance fun t _ => (condition_keeps h _ _).bind fun cond => skipNl_keeps.bind fun _ => ?_
  refine expectBind fun _ => skipNl_keeps.bind fun _ => setDepth_keeps.bind fun _ => ?_
  refine (whileLoop_keeps (switchRound_takes h) []).bind fun cases => ?_
  exact setDepth_keeps.bind fun _ => expectBind fun _ => .pure rfl

theorem doStmt_starts : Starts d n (doStmt r) := by
  refine .advance fun t _ => (loopBlock_keeps h _).bind fun body => skipNl_keeps.bind fun _ => ?_
  refine expectBind fun _ => (condition_keeps h _ _).bind fun cond => ?_
  exact expectNlOrSemi_keeps.bind fun _ => .pure rfl

theorem foreachStmt_starts : Starts d n (foreachStmt r) := by
  refine .advance fun t _ => expectBind fun _ => h.assign.keeps.bind fun iter => ?_
  refine foreachVars_keeps.bind fun vars => expectBind fun _ => ?_
  exact (loopBlock_keeps h _).bind fun _ => .pure rfl

theorem unsafeStmt_starts : Starts d n (unsafeStmt r) :=
  .advance fun _ _ => (block_keeps h _).bind fun _ => .pure rfl

theorem catchRound_takes (catches : List (CatchClause Stmt)) :
    Takes (meter d) (n - 1) Prod.fst (catchRound r catches) := by
  refine ifMatch (expectBind fun _ => catchVar_keeps.bind fun v => expectBind fun _ => ?_)
    (.pure rfl)
  refine ((block_keeps h _).mono (Nat.sub_le _ 1)).bind fun body => ?_
  exact skipNl_keeps.bind fun _ => .pure rfl

theorem finallyPart_keeps : Keeps (meter d) (n - 1) (finallyPart r) := by
  refine matchKeeps ((block_keeps h _).bind fun fin => ?_) (.pure rfl)
  exact skipNl_keeps.bind fun _ => .pure rfl

theorem tryStmt_starts : Starts d n (tryStmt r) := by
  refine .advance fun t _ => (block_keeps h _).bind fun body => skipNl_keeps.bind fun _ => ?_
  refine (whileLoop_keeps (catchRound_takes h) []).bind fun catches => ?_
  exact (finallyPart_keeps h).bind fun _ => .pure rfl

theorem parseStmt_eats (ha : Eats (meter d) n r.assign) : Eats (meter d) n (parseStmt r) := by
  intro s hs hlt
  unfold parseStmt
  split
  · exact plainStmt_eats (parseSimpleStmt_eats h ha) s hs hlt
  · next he => exact (returnStmt_starts h).at hs hlt he
  · next he => exact (echoStmt_starts h).at hs hlt he
  · next he => exact (exprKeyword_starts h _).at hs hlt he
  · next he => exact (ifStmt_starts h).at hs hlt he
  · next he => exact (whileStmt_starts h).at hs hlt he
  · next he => exact (forStmt_starts h).at hs hlt he
  · next he => exact (switchStmt_starts h).at hs hlt he
  · next he => exact (doStmt_starts h).at hs hlt he
  · next he => exact (foreachStmt_starts h).at hs hlt he
  · next he => exact breakStmt_starts.at hs hlt he
  · next he => exact breakStmt_starts.at hs hlt he
  · next he => exact (unsafeStmt_starts h).at hs hlt he
  · next he => exact (tryStmt_starts h).at hs hlt he
  · next he => exact (exprKeyword_starts h _).at hs hlt he
  · next he => exact globalStmt_starts.at hs hlt he
  · exact plainStmt_eats (exprStmt_eats ha) s hs hlt

end

/-! ## declarations -/

theorem ampMut_keeps : Keeps (meter d) n ampMut := by
  refine matchKeeps ?_ (.pure rfl)
  exact eatIdent_takes.keeps.bind fun _ => eatIdent_takes.keeps.bind fun _ => .pure rfl

theorem fieldName_eats : Eats (meter d) n fieldName := by
  refine check_keeps.bind fun b => ?_
  split
  · exact expectFirst fun vn => (optional_keeps parseTy_eats.keeps).bind fun _ => .pure rfl
  · exact parseTy_eats.first fun type => expectBind fun _ => .pure rfl

theorem visibility_keeps : Keeps (meter d) n visibility := by
  refine matchKeeps (.pure rfl) (matchKeeps (.pure rfl) ?_)
  exact (eatIdentOrKw_takes).keeps.bind fun _ => .pure rfl

theorem lateStatic_keeps (leadStatic : Bool) : Keeps (meter d) n (lateStatic leadStatic) := by
  unfold lateStatic
  split
  · exact .pure rfl
  · exact eatIdent_takes.keeps

theorem baseClass_keeps : Keeps (meter d) n baseClass := by
  refine (eatIdentOrKw_takes).keeps.bind fun b => ?_
  split
  · exact expectBind fun _ => .pure rfl
  · exact .pure rfl

theorem interfaceNames_keeps {kw : String} {k : TokKind} [Inner k] :
    Keeps (meter d) n (interfaceNames kw k) := by
  refine (eatIdentOrKw_takes).keeps.bind fun b => ?_
  split
  · exact (commaItems_eats (expectFirst fun _ => .pure rfl)).keeps
  · exact .pure rfl

theorem importDecl_starts (prog : Program) : Starts d n (importDecl prog) :=
  .advance fun _ _ => expectBind fun _ => expectNlOrSemi_keeps.bind fun _ => .pure rfl

section
variable (h : Calls d n r)
include h

theorem fnParam_eats : Eats (meter d) n (fnParam r) := by
  refine matchBind fun _ => matchBind fun _ => ampMut_keeps.bind fun ref => matchBind fun _ => ?_
  refine paramName_eats.first fun p => ?_
  have ha : Keeps (meter d) (n - 1) r.assign := (h.assign.mono (Nat.sub_le n 1)).keeps
  exact (optional_keeps ha).bind fun _ => .pure rfl

theorem fnBody_keeps : Keeps (meter d) n (fnBody r) :=
  skipNl_keeps.bind fun _ => (stmtsLoop_keeps h).bind fun _ => expectBind fun _ =>
    skipNl_keeps.bind fun _ => .pure rfl

theorem fnBodyOrNone_keeps : Keeps (meter d) n (fnBodyOrNone r) :=
  matchKeeps ((fnBody_keeps h).bind fun _ => .pure rfl)
    (expectNlOrSemi_keeps.bind fun _ => .pure rfl)

theorem parseFnAfterName_keeps (name : Token) (isMethod isStatic : Bool) :
    Keeps (meter d) n (parseFnAfterName r name isMethod isStatic) := by
  refine expectBind fun _ => (commaList_keeps (fnParam_eats h)).bind fun params => ?_
  refine expectBind fun _ => (optional_keeps parseTy_eats.keeps).bind fun ret => ?_
  exact skipNl_keeps.bind fun _ => (fnBodyOrNone_keeps h).bind fun _ => .pure rfl

theorem parseField_eats (vis : Vis) (isConst : Bool) :
    Eats (meter d) n (parseField r vis isConst) := by
  refine eatIdent_takes.keeps.bind fun _ => matchBind fun _ => matchBind fun _ => ?_
  refine matchBind fun _ => fieldName_eats.first fun f => ?_
  have ha : Keeps (meter d) (n - 1) r.assign := (h.assign.mono (Nat.sub_le n 1)).keeps
  exact (optional_keeps ha).bind fun _ => expectNlOrSemi_keeps.bind fun _ => .pure rfl

theorem method_keeps (vis : Vis) (leadStatic : Bool) :
    Keeps (meter d) n (method r vis leadStatic) :=
  (lateStatic_keeps leadStatic).bind fun _ => expectBind fun _ =>
    (parseFnAfterName_keeps h _ _ _).bind fun _ => .pure rfl

theorem fieldMember_eats (c : AstClass) (vis : Vis) (isConst leadStatic : Bool) :
    Eats (meter d) n (fieldMember r c vis isConst leadStatic) := by
  intro s hs hlt
  unfold fieldMember
  split
  · exact (parseField_eats h _ _).first (fun _ => .pure rfl) s hs hlt
  split
  · exact (parseField_eats h _ _).first (fun _ => .pure rfl) s hs hlt
  · exact fatalAt_takes s hs hlt

theorem classMember_eats (c : AstClass) : Eats (meter d) n (classMember r c) := by
  refine visibility_keeps.bind fun vis => matchBind fun isConst => matchBind fun leadStatic => ?_
  refine (matchAny_takes rfl).next (fun o ho => ?_) fun o ho => ?_
  · cases o with
    | none => exact fieldMember_eats h _ _ _ _
    | some t => cases ho
  · cases o with
    | none => cases ho
    | some t =>
      exact ((method_keeps h _ _).mono (Nat.sub_le n 1)).bind fun _ => .pure rfl

theorem parseClassBody_keeps (c : AstClass) : Keeps (meter d) n (parseClassBody r c) := by
  refine expectBind fun _ => skipNl_keeps.bind fun _ => ?_
  refine (bracesLoop_keeps (classMember_eats h) c).bind fun c => ?_
  exact expectBind fun _ => skipNl_keeps.bind fun _ => .pure rfl

theorem enumCase_eats (cases : List EnumCase) : Eats (meter d) n (enumCase r cases) := by
  have ha : Keeps (meter d) (n - 1) r.assign := (h.assign.mono (Nat.sub_le n 1)).keeps
  refine expectFirst fun cn => (optional_keeps ha).bind fun value => skipNl_keeps.bind fun _ => ?_
  exact matchBind fun _ => skipNl_keeps.bind fun _ => .pure rfl

end

section
variable (h : Calls d (n - 1) r)
include h

theorem fnDecl_starts : Starts d n (fnDecl r) := by
  refine .advance fun t _ => expectBind fun nm => (parseFnAfterName_keeps h _ _ _).bind fun fn => ?_
  exact expectNlOrSemi_keeps.bind fun _ => .pure rfl

theorem classDecl_starts : Starts d n (classDecl r) := by
  refine .advance fun t _ => expectBind fun nm => baseClass_keeps.bind fun base => ?_
  exact (interfaceNames_keeps).bind fun _ => (parseClassBody_keeps h _).bind fun _ => .pure rfl

theorem interfaceDecl_starts : Starts d n (interfaceDecl r) :=
  .advance fun _ _ => expectBind fun _ => (interfaceNames_keeps).bind fun _ =>
    (parseClassBody_keeps h _).bind fun _ => .pure rfl

theorem traitDecl_starts : Starts d n (traitDecl r) :=
  .advance fun _ _ => expectBind fun _ => (parseClassBody_keeps h _).bind fun _ => .pure rfl

theorem enumDecl_starts : Starts d n (enumDecl r) := by
  refine .advance fun t _ => expectBind fun nm => (optional_keeps parseTy_eats.keeps).bind fun _ => ?_
  refine expectBind fun _ => skipNl_keeps.bind fun _ => ?_
  refine (bracesLoop_keeps (enumCase_eats h) []).bind fun cases => ?_
  exact expectBind fun _ => expectNlOrSemi_keeps.bind fun _ => .pure rfl

theorem parseDecl_eats : Eats (meter d) n (parseDecl r) := by
  intro s hs hlt
  unfold parseDecl
  split
  · next he => exact (fnDecl_starts h).at hs hlt he
  · next he => exact (fnDecl_starts h).at hs hlt he
  · next he => exact (classDecl_starts h).at hs hlt he
  · next he => exact (interfaceDecl_starts h).at hs hlt he
  · next he => exact (traitDecl_starts h).at hs hlt he
  · next he => exact (enumDecl_starts h).at hs hlt he
  · exact fatalAt_takes s hs hlt

end

/-! ## programs -/

section
variable (h : Calls d n r)
include h

theorem topLevel_eats (prog : Program) : Eats (meter d) n (topLevel r prog) := by
  have hd : Calls d (n - 1) r := h.mono (Nat.sub_le n 1)
  intro s hs hlt
  unfold topLevel
  split
  · next he => exact (importDecl_starts prog).at hs hlt he
  split
  · exact (parseDecl_eats hd).first (fun _ => .pure rfl) s hs hlt
  · exact h.stmt.first (fun _ => .pure rfl) s hs hlt

theorem program_keeps : Keeps (meter d) n (program r) := by
  refine skipNl_keeps.bind fun _ => whileLoop_keeps (fun prog => check_keeps.bind fun b => ?_) _
  split
  · exact .pure rfl
  · refine (matchAny_takes rfl).next (fun o ho => ?_) fun o ho => ?_
    · cases o with
      | none => exact (topLevel_eats h prog).first fun _ => .pure rfl
      | some t => cases ho
    · cases o with
      | none => cases ho
      | some t => exact .pure rfl

end

/-! ## the depth of the calls -/

/-- an expression in a template -/
def Embeds (d : Nat) (embedded : Bytes → Except Halt Expr) : Prop :=
  ∀ e, e.length < d → ∀ h, embedded e = .error h → h.stuck = false

/-- **Each call that reads nothing first is of a function with fewer such calls**, and there are
five of these functions. -/
theorem functions_eats {embedded : Bytes → Except Halt Expr} (he : Embeds d embedded) (m : Nat) :
    ∀ n, (5 * n < m → Eats (meter d) n (functions embedded m).unary) ∧
      (5 * n + 1 < m → Eats (meter d) n (functions embedded m).pow) ∧
      (5 * n + 2 < m → Eats (meter d) n (functions embedded m).ternary) ∧
      (5 * n + 3 < m → Eats (meter d) n (functions embedded m).assign) ∧
      (5 * n + 4 < m → Eats (meter d) n (functions embedded m).stmt) := by
  induction m with
  | zero =>
    refine fun n => ⟨fun h => ?_, fun h => ?_, fun h => ?_, fun h => ?_, fun h => ?_⟩ <;> omega
  | succ m ih =>
    intro n
    by_cases h0 : n = 0
    · subst h0
      exact ⟨fun _ => .zero _, fun _ => .zero _, fun _ => .zero _, fun _ => .zero _, fun _ => .zero _⟩
    obtain ⟨hu, hp, ht, ha, -⟩ := ih n
    have hc : 5 * n < m + 1 → Calls d (n - 1) (functions embedded m) := by
      intro hm
      obtain ⟨hu, hp, ht, ha, hs⟩ := ih (n - 1)
      have hem : (functions embedded m).embedded = embedded := by cases m <;> rfl
      refine ⟨ha (by omega), ht (by omega), hp (by omega), hu (by omega), hs (by omega), ?_⟩
      rw [hem]
      exact he
    refine ⟨fun h => ?_, fun h => ?_, fun h => ?_, fun h => ?_, fun h => ?_⟩
    · exact parseUnary_eats (hc h)
    · exact parsePow_eats (hc (by omega)) (hu (by omega))
    · exact parseTernary_eats (hc (by omega)) (hp (by omega))
    · exact parseAssign_eats (hc (by omega)) (ht (by omega))
    · exact parseStmt_eats (hc (by omega)) (ha (by omega))

/-- for a stream of tokens -/
theorem functions_calls {embedded : Bytes → Except Halt Expr} (he : Embeds d embedded)
    (ts : List Token) : Calls d (ts.length + 1) (functions embedded (callDepth ts)) := by
  obtain ⟨hu, hp, ht, ha, hs⟩ := functions_eats he (callDepth ts) (ts.length + 1)
  have hd : callDepth ts = 5 * ts.length + 10 := rfl
  exact ⟨ha (by omega), ht (by omega), hp (by omega), hu (by omega), hs (by omega), he⟩

/-- **Expressions in templates**: each is in a shorter text than the one before. -/
theorem embedded_ends (strtod : Bytes → Double) (k : Nat) :
    Embeds k (parseEmbeddedExpr strtod k) := by
  induction k with
  | zero => exact fun e he => absurd he (Nat.not_lt_zero _)
  | succ k ih =>
    intro src hlen x hx
    rw [parseEmbeddedExpr] at hx
    obtain ⟨l, hl⟩ := lexAll_ends strtod src
    rw [hl] at hx
    cases l with
    | error e => cases e <;> cases hx <;> rfl
    | ok ts =>
      obtain ⟨hs, hshort⟩ := lexAll_stream hl
      have hc := functions_calls ih ts
      have hinv : (meter k).inv ⟨ts, 0⟩ :=
        ⟨hs, fun t ht => (hshort t ht).mono (Nat.le_of_lt_succ hlen)⟩
      have hf := hc.assign ⟨ts, 0⟩ hinv (Nat.lt_succ_self _)
      dsimp only at hx
      cases hr : (functions (parseEmbeddedExpr strtod k) (callDepth ts)).assign ⟨ts, 0⟩ with
      | error e =>
        rw [hr] at hx hf
        cases hx
        exact Bool.eq_false_iff.2 hf
      | ok a =>
        rw [hr] at hx
        cases hx

theorem sourceBound_short {ts : List Token} {t : Token} (ht : t ∈ ts) : Short (sourceBound ts) t := by
  have hfold : ∀ (es : List Bytes) (e : Bytes), e ∈ es →
      e.length < es.foldr (fun e n => max (e.length + 1) n) 0 := by
    intro es e he
    induction es with
    | nil => cases he
    | cons x es ih =>
      rw [List.foldr_cons]
      rcases List.mem_cons.1 he with rfl | he
      · exact Nat.lt_of_lt_of_le (Nat.lt_succ_self _) (Nat.le_max_left _ _)
      · exact Nat.lt_of_lt_of_le (ih he) (Nat.le_max_right _ _)
  exact fun e he => hfold _ e (List.mem_flatMap.2 ⟨t, ht, he⟩)

/-- **The parser ends on every stream of tokens.**  No loop goes on without reading a token, and
the calls are at most as deep as `callDepth` says. -/
theorem parse_ends (strtod : Bytes → Double) {ts : List Token} (h : Stream ts) :
    Ends (parseProgram strtod ts) := by
  intro x hx
  have hc := functions_calls (embedded_ends strtod (sourceBound ts)) ts
  have hinv : (meter (sourceBound ts)).inv ⟨ts, 0⟩ := ⟨h, fun t ht => sourceBound_short ht⟩
  have hf := program_keeps hc ⟨ts, 0⟩ hinv (Nat.lt_succ_self _)
  have hstuck : x.stuck = false := by
    unfold parseProgram at hx
    dsimp only at hx
    cases hr : program (functions (parseEmbeddedExpr strtod (sourceBound ts)) (callDepth ts))
        ⟨ts, 0⟩ with
    | error e =>
      rw [hr] at hx hf
      cases hx
      exact Bool.eq_false_iff.2 hf
    | ok a =>
      rw [hr] at hx
      cases hx
  constructor <;> rintro rfl <;> cases hstuck

/-- `x )`: the error of a token that is not expected is no loop -/
theorem parse_ends_paren : Ends (parseProgram (fun _ => ⟨0⟩)
    [⟨.ident, 1, 1, 0, [120], 0, ⟨0⟩, []⟩, ⟨.rparen, 1, 3, 2, [41], 0, ⟨0⟩, []⟩,
      ⟨.eof, 1, 0, 0, [], 0, ⟨0⟩, []⟩]) :=
  parse_ends _ ⟨[_, _], _, rfl, rfl⟩

end Grammar
end HolyPhp
