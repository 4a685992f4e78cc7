import HolyPhp.Parser.Exprs

/-!
# What the parser of expressions reads

* `Calls`     what the functions that are called again do below a number of tokens;
* `parsePrimary_eats`, `parseUnary_eats`, .., `parseAssign_eats`  **each function reads something**
  if those that it calls do; in front of the first token these are functions below it.
-/

set_option autoImplicit false

namespace HolyPhp
namespace Grammar
open HolyPhp.Lexer HolyPhp.Parser Progress
open Sema (Ty)

/-- below `n` tokens, with texts of embedded expressions shorter than `d` -/
structure Calls (d n : Nat) (r : Rec) : Prop where
  assign : Eats (meter d) n r.assign
  ternary : Eats (meter d) n r.ternary
  pow : Eats (meter d) n r.pow
  unary : Eats (meter d) n r.unary
  stmt : Eats (meter d) n r.stmt
  embedded : ∀ e, e.length < d → ∀ h, r.embedded e = .error h → h.stuck = false

variable {d m n : Nat} {r : Rec}

theorem Calls.mono (h : Calls d n r) (hm : m ≤ n) : Calls d m r :=
  ⟨h.assign.mono hm, h.ternary.mono hm, h.pow.mono hm, h.unary.mono hm, h.stmt.mono hm, h.embedded⟩

/-! ## behind the first token -/

section
variable (h : Calls d n r)
include h

theorem parseCallArgs_eats : Eats (meter d) n (parseCallArgs r) := by
  refine expectFirst fun _ => ?_
  refine ((commaList_keeps h.assign).mono (Nat.sub_le n 1)).bind fun args => ?_
  exact expectBind fun _ => .pure rfl

theorem stmtsLoop_keeps : Keeps (meter d) n (stmtsLoop r) :=
  bracesLoop_keeps (fun _ => h.stmt.first fun _ => .pure rfl) []

end

theorem paramName_eats : Eats (meter d) n paramName := by
  refine check_keeps.bind fun b => ?_
  split
  · exact expectFirst fun vn => (optional_keeps parseTy_eats.keeps).bind fun _ => .pure rfl
  · refine parseTy_eats.first fun type => ?_
    exact matchBind fun amp => expectBind fun _ => .pure rfl

/-! ## closures -/

theorem closureParam_eats : Eats (meter d) n closureParam :=
  matchBind fun _ => matchBind fun _ => paramName_eats.first fun _ => .pure rfl

theorem useVar_eats : Eats (meter d) n useVar :=
  matchBind fun _ => expectFirst fun _ => .pure rfl

theorem useVars_keeps : Keeps (meter d) n useVars := by
  refine (eatIdentOrKw_takes).keeps.bind fun b => ?_
  split
  · refine expectBind fun _ => (commaList_keeps useVar_eats).bind fun vars => ?_
    exact expectBind fun _ => .pure rfl
  · exact .pure rfl

section
variable (h : Calls d n r)
include h

theorem closureBody_keeps : Keeps (meter d) n (closureBody r) := by
  refine skipNl_keeps.bind fun _ => (stmtsLoop_keeps h).bind fun body => ?_
  exact expectBind fun _ => skipNl_keeps.bind fun _ => .pure rfl

theorem closureExpr_keeps : Keeps (meter d) n (closureExpr r) :=
  expectBind fun _ => h.assign.keeps.bind fun _ => expectNlOrSemi_keeps.bind fun _ => .pure rfl

theorem parseClosureAfterFn_keeps : Keeps (meter d) n (parseClosureAfterFn r) := by
  refine expectBind fun _ => (commaList_keeps closureParam_eats).bind fun params => ?_
  refine expectBind fun _ => useVars_keeps.bind fun vars => ?_
  refine (optional_keeps parseTy_eats.keeps).bind fun ret => skipNl_keeps.bind fun _ => ?_
  exact (matchKeeps (closureBody_keeps h) (closureExpr_keeps h)).bind fun body => .pure rfl

end

/-! ## primary expressions -/

theorem literal_starts (node : Token → Node) : Starts d n (literal node) :=
  .advance fun _ _ => .pure rfl

section
variable (h : Calls d (n - 1) r)
include h

theorem parseFn_starts : Starts d n (parseFn r) :=
  .advance fun _ _ => parseClosureAfterFn_keeps h

theorem mapM_embedded {e : Halt} (es : List Bytes) (he : ∀ x ∈ es, x.length < d)
    (hr : es.mapM r.embedded = .error e) : e.stuck = false := by
  induction es with
  | nil => cases hr
  | cons x es ih =>
    rw [List.mapM_cons] at hr
    cases hx : r.embedded x with
    | error y =>
      rw [hx] at hr
      cases hr
      exact h.embedded x (he x List.mem_cons_self) e hx
    | ok a =>
      rw [hx] at hr
      cases hxs : es.mapM r.embedded with
      | error y =>
        have hy := ih (fun z hz => he z (List.mem_cons_of_mem x hz))
        rw [hxs] at hr hy
        cases hr
        exact hy rfl
      | ok as =>
        rw [hxs] at hr
        cases hr

theorem parseTpl_starts : Starts d n (parseTpl r) := by
  refine .advance fun t ht => ?_
  refine Takes.bind (fun s hs _ => ?_) fun exprs => .pure rfl
  cases hr : (t.tpl.filterMap Prod.snd).mapM r.embedded with
  | error e =>
    have he := mapM_embedded h _ ht hr
    show ¬e.stuck = true
    rw [he]
    exact Bool.false_ne_true
  | ok es => exact fine_stay hs rfl

theorem nameOrCall_starts (bareName : Bool) : Starts d n (nameOrCall r bareName) := by
  refine .advance fun t _ => check_keeps.bind fun b => ?_
  split
  · exact (parseCallArgs_eats h).keeps.bind fun _ => .pure rfl
  · exact .pure rfl

theorem parseNew_starts : Starts d n (parseNew r) :=
  .advance fun _ _ => expectBind fun _ =>
    (parseCallArgs_eats h).keeps.bind fun _ => .pure rfl

theorem armBody_eats (a : List (MatchCase Expr) × Option Expr) :
    Eats (meter d) (n - 1) (armBody r a) := by
  have hbody : ∀ {m} (f : Expr → List (MatchCase Expr) × Option Expr), m ≤ n - 1 →
      Keeps (meter d) m (expect .doublearrow "'=>' in match arm" >>= fun _ =>
        r.ternary >>= fun body => pure (f body)) := fun f hm =>
    expectBind fun _ => (h.ternary.mono hm).keeps.bind fun _ => .pure rfl
  refine (eatIdentOrKw_takes).next (fun b hb => ?_) fun b hb => ?_
  · rw [show b = false from hb, if_neg Bool.false_ne_true]
    exact (commaItems_eats h.ternary).first fun patterns =>
      hbody (fun body => (a.1 ++ [⟨patterns, body⟩], a.2)) (Nat.sub_le _ 1)
  · rw [if_pos (show b = true from hb)]
    exact hbody (fun body => (a.1, some body)) (Nat.sub_le _ 1)

theorem matchArm_eats (a : List (MatchCase Expr) × Option Expr) :
    Eats (meter d) (n - 1) (matchArm r a) := by
  refine (armBody_eats h a).first fun b => skipNl_keeps.bind fun _ => ?_
  exact matchBind fun _ => skipNl_keeps.bind fun _ => .pure rfl

theorem parseMatch_starts : Starts d n (parseMatch r) := by
  refine .advance fun t _ => expectBind fun _ => h.assign.keeps.bind fun subj => ?_
  refine expectBind fun _ => skipNl_keeps.bind fun _ => expectBind fun _ => ?_
  refine skipNl_keeps.bind fun _ => (bracesLoop_keeps (matchArm_eats h) _).bind fun arms => ?_
  exact expectBind fun _ => skipNl_keeps.bind fun _ => .pure rfl

theorem tupleRound_takes (elems : List Expr) :
    Takes (meter d) (n - 1) Prod.fst (tupleRound r elems) := by
  refine ifMatch (check_keeps.bind fun b => ?_) (.pure rfl)
  split
  · exact .pure rfl
  · exact (h.assign.mono (Nat.sub_le _ 1)).keeps.bind fun _ => .pure rfl

theorem parseParens_starts : Starts d n (parseParens r) := by
  refine .advance fun t _ => check_keeps.bind fun b => ?_
  split
  · exact expectBind fun _ => .pure rfl
  · refine h.assign.keeps.bind fun first => check_keeps.bind fun c => ?_
    split
    · refine (whileLoop_keeps (tupleRound_takes h) _).bind fun elems => ?_
      exact expectBind fun _ => .pure rfl
    · exact expectBind fun _ => .pure rfl

theorem arrayElem_eats (a : List (Option Expr) × List Expr) :
    Eats (meter d) (n - 1) (arrayElem r a) := by
  refine h.ternary.first fun k => matchKeeps ?_ (.pure rfl)
  exact (h.ternary.mono (Nat.sub_le _ 1)).keeps.bind fun _ => .pure rfl

theorem arrayRound_takes (a : List (Option Expr) × List Expr) :
    Takes (meter d) (n - 1) Prod.fst (arrayRound r a) := by
  refine atEnd_keeps.bind fun b => ?_
  split
  · exact .pure rfl
  · refine skipNl_keeps.bind fun _ => ifMatch (skipNl_keeps.bind fun _ => .pure rfl) ?_
    refine (arrayElem_eats h a).first fun a => skipNl_keeps.bind fun _ => ?_
    exact matchKeeps (skipNl_keeps.bind fun _ => .pure rfl) (.pure rfl)

theorem parsePrimaryLbracket_starts : Starts d n (parsePrimaryLbracket r) := by
  refine .advance fun t _ => skipNl_keeps.bind fun _ => ?_
  refine (whileLoop_keeps (arrayRound_takes h) _).bind fun a => ?_
  exact expectBind fun _ => skipNl_keeps.bind fun _ => .pure rfl

theorem parsePrimary_eats : Eats (meter d) n (parsePrimary r) := by
  intro s hs hlt
  unfold parsePrimary
  split
  · next he => exact (literal_starts _).at hs hlt he
  · next he => exact (literal_starts _).at hs hlt he
  · next he => exact (literal_starts _).at hs hlt he
  · next he => exact (parseTpl_starts h).at hs hlt he
  · next he => exact (literal_starts _).at hs hlt he
  · next he => exact (literal_starts _).at hs hlt he
  · next he => exact (literal_starts _).at hs hlt he
  · next he => exact (nameOrCall_starts h _).at hs hlt he
  · next he => exact (parseFn_starts h).at hs hlt he
  · next he => exact (parseFn_starts h).at hs hlt he
  · next he => exact (parseNew_starts h).at hs hlt he
  · next he => exact (parseMatch_starts h).at hs hlt he
  · next he => exact (parseParens_starts h).at hs hlt he
  · next he => exact (parsePrimaryLbracket_starts h).at hs hlt he
  · next he => exact (nameOrCall_starts h _).at hs hlt he
  · exact fatalAt_takes s hs hlt

end

/-! ## postfix operators -/

theorem closeIndex_keeps {t : Token} {e : Expr} {idx : Option Expr} :
    Keeps (meter d) n (closeIndex t e idx) :=
  expectBind fun _ => .pure rfl

theorem castExpr_starts (e : Expr) : Starts d n (castExpr e) :=
  .advance fun _ _ => parseTy_eats.keeps.bind fun _ => .pure rfl

theorem isExpr_starts (e : Expr) : Starts d n (isExpr e) :=
  .advance fun _ _ => parseTy_eats.keeps.bind fun _ => .pure rfl

section
variable (h : Calls d n r)
include h

theorem indexOrSlice_starts (e : Expr) : Starts d n (indexOrSlice r e) := by
  have ha : Keeps (meter d) (n - 1) r.assign := (h.assign.mono (Nat.sub_le n 1)).keeps
  refine .advance fun t _ => (unlessAt_keeps ha).bind fun o => ?_
  cases o with
  | none => exact closeIndex_keeps
  | some idx =>
    refine matchKeeps ((unlessAt_keeps ha).bind fun hi => ?_) closeIndex_keeps
    exact expectBind fun _ => .pure rfl

theorem args_keeps : Keeps (meter d) (n - 1) (parseCallArgs r) :=
  ((parseCallArgs_eats h).mono (Nat.sub_le n 1)).keeps

theorem memberAccess_starts (e : Expr) : Starts d n (memberAccess r e) := by
  refine .advance fun t _ => expectBind fun nm => check_keeps.bind fun b => ?_
  split
  · exact (args_keeps h).bind fun _ => .pure rfl
  · exact .pure rfl

theorem staticMember_starts (e : Expr) : Starts d n (staticMember r e) := by
  refine .advance fun t _ => expectBind fun nm => check_keeps.bind fun b => ?_
  split
  · split
    · exact (args_keeps h).bind fun _ => .pure rfl
    · exact fatalAt_takes
  · exact .pure rfl

theorem callExpr_eats (t : Token) (e : Expr) : Eats (meter d) n (callExpr r t e) :=
  (parseCallArgs_eats h).first fun _ => .pure rfl

theorem postfixRound_takes (e : Expr) : Takes (meter d) n Prod.fst (postfixRound r e) := by
  intro s hs hlt
  unfold postfixRound
  split
  · next he => exact (indexOrSlice_starts h e).at hs hlt he
  split
  · next he => exact (memberAccess_starts h e).at hs hlt he
  split
  · next he => exact (staticMember_starts h e).at hs hlt he
  split
  · exact (callExpr_eats h _ e).weaken (fun _ _ => rfl) s hs hlt
  split
  · next he =>
    rcases he.1 with hk | hi
    · exact (castExpr_starts e).at hs hlt hk
    · exact (castExpr_starts e).at hs hlt (atIdent_kind hi)
  split
  · next hi => exact (isExpr_starts e).at hs hlt (atIdent_kind hi)
  · exact fine_stay hs rfl

end

theorem parsePostfix_eats (h : Calls d (n - 1) r) : Eats (meter d) n (parsePostfix r) :=
  (parsePrimary_eats h).first fun e => whileLoop_keeps (postfixRound_takes h) e

/-! ## operators -/

/-- a level below others reads something where `parse_pow` does -/
theorem parseBinopLevel_eats (hp : Eats (meter d) m r.pow) (lvl : List (List TokKind))
    (hl : ∀ ops ∈ lvl, ops.contains .eof = false) :
    Eats (meter d) m (parseBinopLevel r lvl) := by
  induction lvl with
  | nil => exact hp
  | cons ops lvl ih =>
    have hi := ih fun ops ho => hl ops (List.mem_cons_of_mem _ ho)
    refine hi.first fun l => whileLoop_keeps (fun l => ?_) l
    refine (matchAny_takes (hl ops List.mem_cons_self)).next (fun o ho => ?_) fun o ho => ?_
    · cases o with
      | none => exact .pure rfl
      | some op => cases ho
    · cases o with
      | none => cases ho
      | some op =>
        exact (hi.mono (Nat.le_trans (Nat.sub_le _ 1) (Nat.sub_le _ 1))).keeps.bind fun _ =>
          .pure rfl

section
variable (h : Calls d (n - 1) r)
include h

theorem unaryOp_starts : Starts d n (unaryOp r) :=
  .advance fun _ _ => h.unary.keeps.bind fun _ => .pure rfl

theorem borrowExpr_starts : Starts d n (borrowExpr r) :=
  .advance fun _ _ => eatIdent_takes.keeps.bind fun _ => h.unary.keeps.bind fun _ => .pure rfl

theorem derefExpr_starts : Starts d n (derefExpr r) :=
  .advance fun _ _ => h.unary.keeps.bind fun _ => .pure rfl

theorem parseUnary_eats : Eats (meter d) n (parseUnary r) := by
  intro s hs hlt
  unfold parseUnary
  split
  · next he =>
    rcases he with he | he | he | he
    · exact (unaryOp_starts h).at hs hlt he
    · exact (unaryOp_starts h).at hs hlt he
    · exact (unaryOp_starts h).at hs hlt he
    · exact (unaryOp_starts h).at hs hlt he
  split
  · next he => exact (borrowExpr_starts h).at hs hlt he.1
  split
  · next he => exact (derefExpr_starts h).at hs hlt he
  · exact parsePostfix_eats h s hs hlt

theorem parsePow_eats (hu : Eats (meter d) n r.unary) : Eats (meter d) n (parsePow r) := by
  refine hu.first fun base => (matchAny_takes rfl).keeps.bind fun o => ?_
  cases o with
  | some op => exact h.pow.keeps.bind fun _ => .pure rfl
  | none => exact .pure rfl

theorem parseTernary_eats (hp : Eats (meter d) n r.pow) : Eats (meter d) n (parseTernary r) := by
  have hl : ∀ ops ∈ levels, ops.contains .eof = false := by decide
  refine (parseBinopLevel_eats hp levels hl).first fun cond => ?_
  refine matchKeeps (h.ternary.keeps.bind fun _ => .pure rfl) ?_
  refine matchKeeps (h.assign.keeps.bind fun yes => expectBind fun _ => ?_) (.pure rfl)
  exact h.ternary.keeps.bind fun _ => .pure rfl

end

/-! ## assignments -/

theorem increment_starts (lhs : Expr) : Starts d n (increment lhs) := .advance fun _ _ => .pure rfl

section
variable (h : Calls d (n - 1) r)
include h

theorem typedDecl_starts : Starts d n (typedDecl r) := by
  refine .advance fun vn _ => advance_keeps.bind fun _ => parseTy_eats.keeps.bind fun ann => ?_
  exact (optional_keeps h.assign.keeps).bind fun _ => .pure rfl

theorem rightSide_keeps (op : TokKind) : Keeps (meter d) (n - 1) (rightSide r op) := by
  unfold rightSide
  split
  · exact h.ternary.keeps
  · exact h.assign.keeps

theorem assignTo_starts (lhs : Expr) : Starts d n (assignTo r lhs) :=
  .advance fun t _ => (rightSide_keeps h t.kind).bind fun _ => .pure rfl

theorem destructure_starts (lhs : Expr) : Starts d n (destructure r lhs) :=
  .advance fun _ _ => h.assign.keeps.bind fun _ => .pure rfl

theorem assignRest_keeps (lhs : Expr) : Keeps (meter d) (n - 1) (assignRest r lhs) := by
  have h' : Calls d (n - 1 - 1) r := h.mono (Nat.sub_le _ 1)
  intro s hs hlt
  unfold assignRest
  split
  · next he =>
    have : Inner s.kind := ⟨fun h => by
      rw [h] at he
      cases he⟩
    exact (assignTo_starts h' lhs).at hs hlt rfl
  split
  · next he =>
    rcases he with he | he
    · exact (increment_starts lhs).at hs hlt he
    · exact (increment_starts lhs).at hs hlt he
  split
  · next he => exact (destructure_starts h' lhs).at hs hlt he.2
  · exact fine_stay hs rfl

theorem parseAssign_eats (ht : Eats (meter d) n r.ternary) : Eats (meter d) n (parseAssign r) := by
  intro s hs hlt
  unfold parseAssign
  split
  · next he => exact (typedDecl_starts h).at hs hlt he.1
  · exact ht.first (assignRest_keeps h) s hs hlt

end

end Grammar
end HolyPhp
