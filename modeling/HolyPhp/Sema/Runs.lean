import HolyPhp.Lib.Flow
import HolyPhp.Sema.Check

/-!
# Runs of checked code

`code n` is the control flow of a node whose uses have the places `n, n + 1, ..` of the log of the
checker; it comes with the next free place.  A call, an operator or a literal may throw after its
parts.  A run of the generated code is a run of this code; where a choice depends on values, both
ways are runs here.
The places grow along the code, loops and switches left aside (`codeStmts_spans`).
-/

namespace HolyPhp
namespace Sema

open Flow

/-- after its parts an expression may throw -/
def mayThrow (c : Code) : Code := .seq c (.alt .skip (.leave .thrown))

/-- the control flow of a `while`; the body of a `for` ends with its steps -/
def whileCode (cond body : Code) : Code :=
  .upTo .brk (.loop (.seq cond (.alt (.leave .brk) body)))

mutual

def codeExpr : Expr → Nat → Code × Nat
  | .var _, n => (.use n, n + 1)
  | .assign _ op _ value, n =>
    let v := codeOpt value n
    if op = .eq then (.seq v.1 (.use v.2), v.2 + 1)
    else if op = .qq then
      -- the target is read first, and where it is not null nothing else is done
      (.group (.seq (.use v.2) (.alt .skip (.seq v.1 (.use (v.2 + 1))))), v.2 + 2)
    else (.seq v.1 (.seq (.use v.2) (.use (v.2 + 1))), v.2 + 2)
  | .store _ target op value, n =>
    let v := codeExpr value n
    let t := codeExpr target v.2
    if op = .qq then (.group (.seq t.1 (.alt .skip v.1)), t.2) else (.seq v.1 t.1, t.2)
  | .destructure keys _ value, n =>
    let v := codeExpr value n
    let k := codeExprs keys v.2
    (.seq v.1 (.seq k.1 (.use k.2)), k.2 + 1)
  | .borrow _ _, n => (.use n, n + 1)
  | .closure _ _ _ body, n =>
    let b := codeStmts body n
    (.seq (.fn b.1) (.use b.2), b.2 + 1)
  | .compact dropped _, n =>
    let d := codeExprs dropped n
    (.use d.2, d.2 + 1)
  | .other out parts _ _, n =>
    let p := codeParts parts n
    if out.isSome then (mayThrow (.seq p.1 (.use p.2)), p.2 + 1) else (mayThrow p.1, p.2)

def codeOpt : Option Expr → Nat → Code × Nat
  | none, n => (.skip, n)
  | some e, n => codeExpr e n

def codeExprs : List Expr → Nat → Code × Nat
  | [], n => (.skip, n)
  | e :: es, n =>
    let a := codeExpr e n
    let b := codeExprs es a.2
    (.seq a.1 b.1, b.2)

def codeParts : List Part → Nat → Code × Nat
  | [], n => (.skip, n)
  | .mk maybe e :: ps, n =>
    let a := codeExpr e n
    let b := codeParts ps a.2
    (.seq (if maybe then .alt .skip a.1 else a.1) b.1, b.2)

def codeStmt : Stmt → Nat → Code × Nat
  | .expr e, n => codeExpr e n
  | .global _, n => (.skip, n)
  | .let_ _ _ _ init, n =>
    let i := codeExpr init n
    (.seq i.1 (.use i.2), i.2 + 1)
  | .return_ value, n =>
    let v := codeOpt value n
    (.seq v.1 (.leave .ret), v.2)
  | .echo es, n => codeExprs es n
  | .print e, n => codeExpr e n
  | .if_ c t e, n =>
    let c := codeExpr c n
    let t := codeBlock t c.2
    let e := codeBlock e t.2
    (.seq c.1 (.alt t.1 e.1), e.2)
  | .while_ c b, n =>
    let c := codeExpr c n
    let b := codeBlock b c.2
    (whileCode c.1 (.upTo .cont b.1), b.2)
  | .do_ b c, n =>
    let b := codeBlock b n
    let c := codeExpr c b.2
    (.upTo .brk (.loop (.seq (.upTo .cont b.1) (.seq c.1 (.alt .skip (.leave .brk))))), c.2)
  | .switch_ c cases, n =>
    let c := codeExpr c n
    let p := codeCases cases c.2
    (.seq c.1 (.upTo .brk (.group (.seq p.1.1 p.1.2))), p.2)
  | .for_ init cond step body, n =>
    let i := codeStmts init n
    let c := codeOpt cond i.2
    let s := codeStmts step c.2
    let b := codeBlock body s.2
    (.seq i.1 (whileCode c.1 (.seq (.upTo .cont b.1) s.1)), b.2)
  | .foreach_ iter _ _ body, n =>
    let i := codeExpr iter n
    let b := codeBlock body (i.2 + 1)
    (.seq i.1 (whileCode .skip (.seq (.use i.2) (.upTo .cont b.1))), b.2)
  | .break_, n => (.leave .brk, n)
  | .continue_, n => (.leave .cont, n)
  | .block b, n => codeBlock b n
  | .unsafeBlock b, n => codeBlock b n
  | .try_ body catches fin, n =>
    let b := codeBlock body n
    let h := codeCatches catches b.2
    let f := if fin.isEmpty then (.skip, h.2) else codeBlock fin h.2
    (.tryC b.1 (if catches.isEmpty then .leave .thrown else h.1) f.1, f.2)
  | .throw_ e, n =>
    let e := codeExpr e n
    (.seq e.1 (.leave .thrown), e.2)

def codeStmts : List Stmt → Nat → Code × Nat
  | [], n => (.skip, n)
  | st :: sts, n =>
    let a := codeStmt st n
    let b := codeStmts sts a.2
    (.seq a.1 b.1, b.2)

/-- the last place of a block is that of its end, where nothing runs -/
def codeBlock : List Stmt → Nat → Code × Nat
  | [], n => (.skip, n + 1)
  | st :: sts, n =>
    let a := codeStmt st n
    let b := codeBlock sts a.2
    (.seq a.1 b.1, b.2)

/-- the patterns, of which some are tried, and the bodies, of which some run -/
def codeCases : List Case → Nat → (Code × Code) × Nat
  | [], n => ((.skip, .skip), n)
  | .mk pats body :: cs, n =>
    let p := codeExprs pats n
    let b := codeBlock body p.2
    let r := codeCases cs b.2
    ((.seq (.alt .skip p.1) r.1.1, .seq (.alt .skip b.1) r.1.2), r.2)

/-- a handler may run, with its variable set before -/
def codeCatches : List Catch → Nat → Code × Nat
  | [], n => (.skip, n)
  | .mk _ _ body :: cs, n =>
    let b := codeBlock body (n + 1)
    let r := codeCatches cs b.2
    (.seq (.alt .skip (.seq (.use n) b.1)) r.1, r.2)

end

/-! ## the places grow along the code -/

theorem spans_maybe {c : Code} {lo hi : Nat} (h : Spans c lo hi) (b : Bool) :
    Spans (if b then .alt .skip c else c) lo hi := by
  cases b with
  | true => exact (Spans.skip lo).alt h
  | false => exact h

theorem spans_mayThrow {c : Code} {lo hi : Nat} (h : Spans c lo hi) :
    Spans (mayThrow c) lo hi :=
  h.seq ((Spans.skip hi).alt (.leave _ hi))

theorem within_whileCode {cond body : Code} {lo hi : Nat} (hc : Within cond lo hi)
    (hb : Within body lo hi) : Spans (whileCode cond body) lo hi :=
  (hc.seq ((Within.leave _ hc.le).alt hb)).loop.upTo _

mutual

theorem codeExpr_spans : (e : Expr) → (n : Nat) → Spans (codeExpr e n).1 n (codeExpr e n).2
  | .var _, n => .use n
  | .assign _ op _ value, n => by
    have hv := codeOpt_spans value n
    simp only [codeExpr]
    split
    · exact hv.seq (.use _)
    · split
      · have hlt := Nat.lt_succ_self (codeOpt value n).2
        refine Within.group (.seq (.use hv.le ?_) (.alt (.skip ?_) (.seq ?_ (.use ?_ ?_))))
        · exact Nat.lt_succ_of_lt hlt
        · exact Nat.le_add_right_of_le hv.le
        · exact hv.toWithin.mono (Nat.le_refl _) (Nat.le_add_right _ _)
        · exact Nat.le_add_right_of_le hv.le
        · exact Nat.lt_succ_self _
      · exact hv.seq ((Spans.use _).seq (.use _))
  | .store _ target op value, n => by
    have hv := codeExpr_spans value n
    have ht := codeExpr_spans target (codeExpr value n).2
    simp only [codeExpr]
    split
    · refine Within.group (.seq ?_ (.alt (.skip ?_) ?_))
      · exact ht.toWithin.mono hv.le (Nat.le_refl _)
      · exact Nat.le_trans hv.le ht.le
      · exact hv.toWithin.mono (Nat.le_refl _) ht.le
    · exact hv.seq ht
  | .destructure keys _ value, n =>
    (codeExpr_spans value n).seq ((codeExprs_spans keys _).seq (.use _))
  | .borrow _ _, n => .use n
  | .closure _ _ _ body, n => (codeStmts_spans body n).fn.seq (.use _)
  | .compact dropped _, n => by
    have hd := codeExprs_spans dropped n
    exact ⟨(Spans.use _).toWithin.mono hd.le (Nat.le_refl _), trivial⟩
  | .other out parts _ _, n => by
    have hp := codeParts_spans parts n
    simp only [codeExpr]
    split
    · exact spans_mayThrow (hp.seq (.use _))
    · exact spans_mayThrow hp

theorem codeOpt_spans : (e : Option Expr) → (n : Nat) → Spans (codeOpt e n).1 n (codeOpt e n).2
  | none, n => .skip n
  | some e, n => codeExpr_spans e n

theorem codeExprs_spans : (es : List Expr) → (n : Nat) →
    Spans (codeExprs es n).1 n (codeExprs es n).2
  | [], n => .skip n
  | e :: es, n => (codeExpr_spans e n).seq (codeExprs_spans es _)

theorem codeParts_spans : (ps : List Part) → (n : Nat) →
    Spans (codeParts ps n).1 n (codeParts ps n).2
  | [], n => .skip n
  | .mk maybe e :: ps, n => (spans_maybe (codeExpr_spans e n) maybe).seq (codeParts_spans ps _)

theorem codeStmt_spans : (st : Stmt) → (n : Nat) → Spans (codeStmt st n).1 n (codeStmt st n).2
  | .expr e, n => codeExpr_spans e n
  | .global _, n => .skip n
  | .let_ _ _ _ init, n => (codeExpr_spans init n).seq (.use _)
  | .return_ value, n => (codeOpt_spans value n).seq (.leave _ _)
  | .echo es, n => codeExprs_spans es n
  | .print e, n => codeExpr_spans e n
  | .if_ c t e, n =>
    (codeExpr_spans c n).seq ((codeBlock_spans t _).alt (codeBlock_spans e _))
  | .while_ c b, n => by
    have hc := codeExpr_spans c n
    have hb := codeBlock_spans b (codeExpr c n).2
    exact within_whileCode (hc.toWithin.mono (Nat.le_refl _) hb.le)
      ((hb.upTo _).toWithin.mono hc.le (Nat.le_refl _))
  | .do_ b c, n => by
    have hb := codeBlock_spans b n
    have hc := codeExpr_spans c (codeBlock b n).2
    have h := (hb.upTo .cont).seq (hc.seq ((Spans.skip _).alt (.leave .brk _)))
    exact h.toWithin.loop.upTo _
  | .switch_ c cases, n => by
    have hp := codeCases_within cases (codeExpr c n).2
    exact (codeExpr_spans c n).seq ((hp.1.seq hp.2).group.upTo _)
  | .for_ init cond step body, n => by
    have hc := codeOpt_spans cond (codeStmts init n).2
    have hs := codeStmts_spans step (codeOpt cond (codeStmts init n).2).2
    have hb := codeBlock_spans body (codeStmts step (codeOpt cond (codeStmts init n).2).2).2
    refine (codeStmts_spans init n).seq (within_whileCode ?_ (.seq ?_ ?_))
    · exact hc.toWithin.mono (Nat.le_refl _) (Nat.le_trans hs.le hb.le)
    · exact (hb.upTo _).toWithin.mono (Nat.le_trans hc.le hs.le) (Nat.le_refl _)
    · exact hs.toWithin.mono hc.le hb.le
  | .foreach_ iter _ _ body, n => by
    have hb := codeBlock_spans body ((codeExpr iter n).2 + 1)
    have hu := ((Spans.use (codeExpr iter n).2).seq (hb.upTo .cont))
    exact (codeExpr_spans iter n).seq (within_whileCode (.skip hu.le) hu.toWithin)
  | .break_, n => .leave _ n
  | .continue_, n => .leave _ n
  | .block b, n => codeBlock_spans b n
  | .unsafeBlock b, n => codeBlock_spans b n
  | .try_ body catches fin, n => by
    have hh := codeCatches_spans catches (codeBlock body n).2
    have hf := codeBlock_spans fin (codeCatches catches (codeBlock body n).2).2
    simp only [codeStmt]
    refine (codeBlock_spans body n).tryC (n := (codeCatches catches (codeBlock body n).2).2) ?_ ?_
    · split
      · exact ⟨.leave _ hh.le, trivial⟩
      · exact hh
    · split
      · exact .skip _
      · exact hf
  | .throw_ e, n => (codeExpr_spans e n).seq (.leave _ _)

theorem codeStmts_spans : (sts : List Stmt) → (n : Nat) →
    Spans (codeStmts sts n).1 n (codeStmts sts n).2
  | [], n => .skip n
  | st :: sts, n => (codeStmt_spans st n).seq (codeStmts_spans sts _)

theorem codeBlock_spans : (sts : List Stmt) → (n : Nat) →
    Spans (codeBlock sts n).1 n (codeBlock sts n).2
  | [], n => ⟨.skip (Nat.le_succ n), trivial⟩
  | st :: sts, n => (codeStmt_spans st n).seq (codeBlock_spans sts _)

theorem codeCases_within : (cs : List Case) → (n : Nat) →
    Within (codeCases cs n).1.1 n (codeCases cs n).2 ∧
      Within (codeCases cs n).1.2 n (codeCases cs n).2
  | [], n => ⟨.skip (Nat.le_refl n), .skip (Nat.le_refl n)⟩
  | .mk pats body :: cs, n => by
    have hp := codeExprs_spans pats n
    have hb := codeBlock_spans body (codeExprs pats n).2
    have hr := codeCases_within cs (codeBlock body (codeExprs pats n).2).2
    have hle := Nat.le_trans hp.le (Nat.le_trans hb.le hr.1.le)
    have hnp := Nat.le_trans hp.le hb.le
    refine ⟨.seq (.alt (.skip hle) ?_) ?_, .seq (.alt (.skip hle) ?_) ?_⟩
    · exact hp.toWithin.mono (Nat.le_refl _) (Nat.le_trans hb.le hr.1.le)
    · exact hr.1.mono hnp (Nat.le_refl _)
    · exact hb.toWithin.mono hp.le hr.1.le
    · exact hr.2.mono hnp (Nat.le_refl _)

theorem codeCatches_spans : (cs : List Catch) → (n : Nat) →
    Spans (codeCatches cs n).1 n (codeCatches cs n).2
  | [], n => .skip n
  | .mk _ _ body :: cs, n =>
    ((Spans.skip n).alt ((Spans.use n).seq (codeBlock_spans body _))).seq (codeCatches_spans cs _)

end

/-- the code of a body, and of the bodies of the closures in it -/
def Fn.bodies (fn : Fn) : List Code :=
  (codeStmts fn.body 0).1 :: (codeStmts fn.body 0).1.bodies

theorem Fn.bodies_ordered (fn : Fn) : ∀ c ∈ fn.bodies, c.Ordered := by
  intro c hc
  have hs := codeStmts_spans fn.body 0
  rcases List.mem_cons.mp hc with rfl | hc
  · exact hs.ordered
  · exact hs.bodies c hc

end Sema
end HolyPhp
