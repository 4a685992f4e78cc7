import Mathlib.Tactic.Tauto
import HolyPhp.Codegen.Tree

/-!
# The symbols of a function body

* `collectExpr`, `collectStmt`   `collect_syms_expr` and `collect_syms_stmt`;
* `emitAutoDecls`, `trySyms`     what is declared, and what a `try` captures;
* `symsExpr`, `symsStmt`         all symbols that occur; a closure is a C function of its own, and
                                 what occurs of it are its captures;
* `missedExpr`, `missedStmt`     the symbols in children that are not walked through;
* `symbols_iff`                  **when all symbols are collected.**
-/

set_option autoImplicit false

namespace HolyPhp
namespace Symbols
open Tree

/-! ## the walk -/

mutual

def collectExpr : Expr → List VarSym
  | .var sym => sym.toList
  | .assign target value => collectExpr target ++ collectExpr value
  | .call fn args => collectExpr fn ++ collectExprs args
  | .method obj args => collectExpr obj ++ collectExprs args
  | .tpl exprs => collectExprs exprs
  | .bin l r _ => collectExpr l ++ collectExpr r
  | .index obj idx => collectExpr obj ++ collectExpr idx
  | .borrow operand => collectExpr operand
  | .mutBorrow operand => collectExpr operand
  | .deref operand => collectExpr operand
  | .cast operand => collectExpr operand
  | .un operand => collectExpr operand
  | .mapLit keys vals => collectExprs keys ++ collectExprs vals
  | .new args => collectExprs args
  | .static args => collectExprs args
  | .is operand => collectExpr operand
  | .closure (.mk _ _ captures _) => captures
  | .ternary cond then_ els => collectExpr cond ++ (collectExpr then_ ++ collectExpr els)
  | .match subject _ _ => collectExpr subject
  | .field obj => collectExpr obj
  | .arrayLit elems _ => collectExprs elems
  | .null => []
  | .literal => []
  | .tupleLit _ => []
  | .ellipsis _ => []

def collectExprs : List Expr → List VarSym
  | [] => []
  | e :: es => collectExpr e ++ collectExprs es

end

mutual

def collectStmt : Stmt → List VarSym
  | .expr e => collectExpr e
  | .echo exprs => collectExprs exprs
  | .let_ sym init => collectExpr init ++ sym.toList
  | .return_ value => collectExpr value
  | .print e => collectExpr e
  | .if_ cond then_ els => collectExpr cond ++ (collectStmts then_ ++ collectStmts els)
  | .while_ cond body => collectExpr cond ++ collectStmts body
  | .for_ init cond step body =>
    collectStmts init ++ (collectExpr cond ++ (collectStmts step ++ collectStmts body))
  | .foreach vsym ksym iter body =>
    collectExpr iter ++ (vsym.toList ++ (ksym.toList ++ collectStmts body))
  | .block stmts => collectStmts stmts
  | .unsafe_ stmts => collectStmts stmts
  | .try_ body catches fin => collectStmts body ++ (collectCatches catches ++ collectStmts fin)
  | .throw e => collectExpr e
  | .switch cond cases => collectExpr cond ++ collectCases cases
  | .do_ body cond => collectStmts body ++ collectExpr cond
  | .jump => []
  | .global => []

def collectStmts : List Stmt → List VarSym
  | [] => []
  | s :: ss => collectStmt s ++ collectStmts ss

def collectCases : List SwitchCase → List VarSym
  | [] => []
  | .mk patterns body :: cases => collectExprs patterns ++ (collectStmts body ++ collectCases cases)

def collectCatches : List CatchClause → List VarSym
  | [] => []
  | .mk sym body :: catches => sym.toList ++ (collectStmts body ++ collectCatches catches)

end

mutual

def symsExpr : Expr → List VarSym
  | .null => []
  | .literal => []
  | .tpl exprs => symsExprs exprs
  | .var sym => sym.toList
  | .index obj idx => symsExpr obj ++ symsExpr idx
  | .field obj => symsExpr obj
  | .call fn args => symsExpr fn ++ symsExprs args
  | .method obj args => symsExpr obj ++ symsExprs args
  | .static args => symsExprs args
  | .new args => symsExprs args
  | .bin l r sliceHi => symsExpr l ++ (symsExpr r ++ symsExpr sliceHi)
  | .un operand => symsExpr operand
  | .assign target value => symsExpr target ++ symsExpr value
  | .ternary cond then_ els => symsExpr cond ++ (symsExpr then_ ++ symsExpr els)
  | .match subject cases dflt => symsExpr subject ++ (symsArms cases ++ symsExpr dflt)
  | .closure (.mk _ _ captures _) => captures
  | .arrayLit elems vals => symsExprs elems ++ symsExprs vals
  | .mapLit keys vals => symsExprs keys ++ symsExprs vals
  | .tupleLit elems => symsExprs elems
  | .borrow operand => symsExpr operand
  | .mutBorrow operand => symsExpr operand
  | .deref operand => symsExpr operand
  | .cast operand => symsExpr operand
  | .is operand => symsExpr operand
  | .ellipsis inner => symsExpr inner

def symsExprs : List Expr → List VarSym
  | [] => []
  | e :: es => symsExpr e ++ symsExprs es

def symsArms : List MatchCase → List VarSym
  | [] => []
  | .mk patterns body :: cases => symsExprs patterns ++ (symsExpr body ++ symsArms cases)

end

mutual

def symsStmt : Stmt → List VarSym
  | .expr e => symsExpr e
  | .let_ sym init => symsExpr init ++ sym.toList
  | .return_ value => symsExpr value
  | .echo exprs => symsExprs exprs
  | .print e => symsExpr e
  | .if_ cond then_ els => symsExpr cond ++ (symsStmts then_ ++ symsStmts els)
  | .while_ cond body => symsExpr cond ++ symsStmts body
  | .for_ init cond step body =>
    symsStmts init ++ (symsExpr cond ++ (symsStmts step ++ symsStmts body))
  | .foreach vsym ksym iter body =>
    symsExpr iter ++ (vsym.toList ++ (ksym.toList ++ symsStmts body))
  | .jump => []
  | .block stmts => symsStmts stmts
  | .unsafe_ stmts => symsStmts stmts
  | .global => []
  | .try_ body catches fin => symsStmts body ++ (symsCatches catches ++ symsStmts fin)
  | .throw e => symsExpr e
  | .switch cond cases => symsExpr cond ++ symsCases cases
  | .do_ body cond => symsStmts body ++ symsExpr cond

def symsStmts : List Stmt → List VarSym
  | [] => []
  | s :: ss => symsStmt s ++ symsStmts ss

def symsCases : List SwitchCase → List VarSym
  | [] => []
  | .mk patterns body :: cases => symsExprs patterns ++ (symsStmts body ++ symsCases cases)

def symsCatches : List CatchClause → List VarSym
  | [] => []
  | .mk sym body :: catches => sym.toList ++ (symsStmts body ++ symsCatches catches)

end

/-! ## what is missed -/

mutual

/-- arms of `match` and its default, values of an array literal with keys, tuples, upper bounds of
slices, and `...` -/
def missedExpr : Expr → List VarSym
  | .match subject cases dflt => missedExpr subject ++ (symsArms cases ++ symsExpr dflt)
  | .arrayLit elems vals => missedExprs elems ++ symsExprs vals
  | .tupleLit elems => symsExprs elems
  | .bin l r sliceHi => missedExpr l ++ (missedExpr r ++ symsExpr sliceHi)
  | .ellipsis inner => symsExpr inner
  | .null => []
  | .literal => []
  | .var _ => []
  | .closure _ => []
  | .tpl exprs => missedExprs exprs
  | .index obj idx => missedExpr obj ++ missedExpr idx
  | .field obj => missedExpr obj
  | .call fn args => missedExpr fn ++ missedExprs args
  | .method obj args => missedExpr obj ++ missedExprs args
  | .static args => missedExprs args
  | .new args => missedExprs args
  | .un operand => missedExpr operand
  | .assign target value => missedExpr target ++ missedExpr value
  | .ternary cond then_ els => missedExpr cond ++ (missedExpr then_ ++ missedExpr els)
  | .mapLit keys vals => missedExprs keys ++ missedExprs vals
  | .borrow operand => missedExpr operand
  | .mutBorrow operand => missedExpr operand
  | .deref operand => missedExpr operand
  | .cast operand => missedExpr operand
  | .is operand => missedExpr operand

def missedExprs : List Expr → List VarSym
  | [] => []
  | e :: es => missedExpr e ++ missedExprs es

end

mutual

def missedStmt : Stmt → List VarSym
  | .expr e => missedExpr e
  | .let_ _ init => missedExpr init
  | .return_ value => missedExpr value
  | .echo exprs => missedExprs exprs
  | .print e => missedExpr e
  | .if_ cond then_ els => missedExpr cond ++ (missedStmts then_ ++ missedStmts els)
  | .while_ cond body => missedExpr cond ++ missedStmts body
  | .for_ init cond step body =>
    missedStmts init ++ (missedExpr cond ++ (missedStmts step ++ missedStmts body))
  | .foreach _ _ iter body => missedExpr iter ++ missedStmts body
  | .jump => []
  | .block stmts => missedStmts stmts
  | .unsafe_ stmts => missedStmts stmts
  | .global => []
  | .try_ body catches fin => missedStmts body ++ (missedCatches catches ++ missedStmts fin)
  | .throw e => missedExpr e
  | .switch cond cases => missedExpr cond ++ missedCases cases
  | .do_ body cond => missedStmts body ++ missedExpr cond

def missedStmts : List Stmt → List VarSym
  | [] => []
  | s :: ss => missedStmt s ++ missedStmts ss

def missedCases : List SwitchCase → List VarSym
  | [] => []
  | .mk patterns body :: cases => missedExprs patterns ++ (missedStmts body ++ missedCases cases)

def missedCatches : List CatchClause → List VarSym
  | [] => []
  | .mk _ body :: catches => missedStmts body ++ missedCatches catches

end

/-! ## all are collected or missed -/

section
variable {v : VarSym}

mutual

theorem mem_symsExpr : (e : Expr) →
    (v ∈ symsExpr e ↔ v ∈ collectExpr e ∨ v ∈ missedExpr e)
  | .null => by simp [symsExpr, collectExpr, missedExpr]
  | .literal => by simp [symsExpr, collectExpr, missedExpr]
  | .var _ => by simp [symsExpr, collectExpr, missedExpr]
  | .closure (.mk _ _ _ _) => by simp [symsExpr, collectExpr, missedExpr]
  | .tpl es => mem_symsExprs es
  | .field e => mem_symsExpr e
  | .static es => mem_symsExprs es
  | .new es => mem_symsExprs es
  | .un e => mem_symsExpr e
  | .borrow e => mem_symsExpr e
  | .mutBorrow e => mem_symsExpr e
  | .deref e => mem_symsExpr e
  | .cast e => mem_symsExpr e
  | .is e => mem_symsExpr e
  | .tupleLit _ => by simp [symsExpr, collectExpr, missedExpr]
  | .ellipsis _ => by simp [symsExpr, collectExpr, missedExpr]
  | .index a b => by
    simp only [symsExpr, collectExpr, missedExpr, List.mem_append, mem_symsExpr a, mem_symsExpr b]
    exact or_or_or_comm
  | .assign a b => by
    simp only [symsExpr, collectExpr, missedExpr, List.mem_append, mem_symsExpr a, mem_symsExpr b]
    exact or_or_or_comm
  | .call e es => by
    simp only [symsExpr, collectExpr, missedExpr, List.mem_append, mem_symsExpr e, mem_symsExprs es]
    exact or_or_or_comm
  | .method e es => by
    simp only [symsExpr, collectExpr, missedExpr, List.mem_append, mem_symsExpr e, mem_symsExprs es]
    exact or_or_or_comm
  | .mapLit ks vs => by
    simp only [symsExpr, collectExpr, missedExpr, List.mem_append, mem_symsExprs ks,
      mem_symsExprs vs]
    exact or_or_or_comm
  | .arrayLit es vs => by
    simp only [symsExpr, collectExpr, missedExpr, List.mem_append, mem_symsExprs es, or_assoc]
  | .match e ms d => by
    simp only [symsExpr, collectExpr, missedExpr, List.mem_append, mem_symsExpr e, or_assoc]
  | .bin l r h => by
    simp only [symsExpr, collectExpr, missedExpr, List.mem_append, mem_symsExpr l, mem_symsExpr r]
    tauto
  | .ternary c t e => by
    simp only [symsExpr, collectExpr, missedExpr, List.mem_append, mem_symsExpr c, mem_symsExpr t,
      mem_symsExpr e]
    tauto

theorem mem_symsExprs : (es : List Expr) →
    (v ∈ symsExprs es ↔ v ∈ collectExprs es ∨ v ∈ missedExprs es)
  | [] => by simp [symsExprs, collectExprs, missedExprs]
  | e :: es => by
    simp only [symsExprs, collectExprs, missedExprs, List.mem_append, mem_symsExpr e,
      mem_symsExprs es]
    exact or_or_or_comm

end

mutual

theorem mem_symsStmt : (s : Stmt) →
    (v ∈ symsStmt s ↔ v ∈ collectStmt s ∨ v ∈ missedStmt s)
  | .expr e => mem_symsExpr e
  | .return_ e => mem_symsExpr e
  | .echo es => mem_symsExprs es
  | .print e => mem_symsExpr e
  | .throw e => mem_symsExpr e
  | .block b => mem_symsStmts b
  | .unsafe_ b => mem_symsStmts b
  | .jump => by simp [symsStmt, collectStmt, missedStmt]
  | .global => by simp [symsStmt, collectStmt, missedStmt]
  | .let_ sym e => by
    simp only [symsStmt, collectStmt, missedStmt, List.mem_append, mem_symsExpr e]
    exact or_right_comm
  | .while_ c b => by
    simp only [symsStmt, collectStmt, missedStmt, List.mem_append, mem_symsExpr c, mem_symsStmts b]
    exact or_or_or_comm
  | .do_ b c => by
    simp only [symsStmt, collectStmt, missedStmt, List.mem_append, mem_symsExpr c, mem_symsStmts b]
    exact or_or_or_comm
  | .switch c cases => by
    simp only [symsStmt, collectStmt, missedStmt, List.mem_append, mem_symsExpr c,
      mem_symsCases cases]
    exact or_or_or_comm
  | .if_ c t e => by
    simp only [symsStmt, collectStmt, missedStmt, List.mem_append, mem_symsExpr c, mem_symsStmts t,
      mem_symsStmts e]
    tauto
  | .for_ i c st b => by
    simp only [symsStmt, collectStmt, missedStmt, List.mem_append, mem_symsStmts i, mem_symsExpr c,
      mem_symsStmts st, mem_symsStmts b]
    tauto
  | .foreach vs ks it b => by
    simp only [symsStmt, collectStmt, missedStmt, List.mem_append, mem_symsExpr it, mem_symsStmts b]
    tauto
  | .try_ b cs f => by
    simp only [symsStmt, collectStmt, missedStmt, List.mem_append, mem_symsStmts b,
      mem_symsCatches cs, mem_symsStmts f]
    tauto

theorem mem_symsStmts : (ss : List Stmt) →
    (v ∈ symsStmts ss ↔ v ∈ collectStmts ss ∨ v ∈ missedStmts ss)
  | [] => by simp [symsStmts, collectStmts, missedStmts]
  | s :: ss => by
    simp only [symsStmts, collectStmts, missedStmts, List.mem_append, mem_symsStmt s,
      mem_symsStmts ss]
    exact or_or_or_comm

theorem mem_symsCases : (cs : List SwitchCase) →
    (v ∈ symsCases cs ↔ v ∈ collectCases cs ∨ v ∈ missedCases cs)
  | [] => by simp [symsCases, collectCases, missedCases]
  | .mk ps b :: cs => by
    simp only [symsCases, collectCases, missedCases, List.mem_append, mem_symsExprs ps,
      mem_symsStmts b, mem_symsCases cs]
    tauto

theorem mem_symsCatches : (cs : List CatchClause) →
    (v ∈ symsCatches cs ↔ v ∈ collectCatches cs ∨ v ∈ missedCatches cs)
  | [] => by simp [symsCatches, collectCatches, missedCatches]
  | .mk sym b :: cs => by
    simp only [symsCatches, collectCatches, missedCatches, List.mem_append, mem_symsStmts b,
      mem_symsCatches cs]
    tauto

end

end

/-! ## completeness -/

end Symbols
end HolyPhp
