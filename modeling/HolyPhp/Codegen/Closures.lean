import Mathlib.Data.List.Nodup
import Mathlib.Data.List.Perm.Subperm
import HolyPhp.Codegen.Tree

/-!
# Where closures are found, and what is emitted for them

* `visitExpr`, `visitStmt`  `cg_visit_expr` and `cg_visit_stmt`, with the list of closures;
* `inExpr`, `inStmt`        all closures, and those in the children that are walked through;
* `Program`, `visited`      the closures that are known before anything is emitted;
* `Walk`                    what a walk keeps, adds and reaches;
* `Gen`, `emit`             the passes of `codegen_emit`, with what they print of closures;
* `closures_emitted`        **a closure that is walked to is visited once and emitted once.**
-/

set_option autoImplicit false

namespace HolyPhp
namespace Closures
open Tree

def addr : AstFn → Nat
  | .mk addr _ _ _ => addr

/-! ## the walk -/

def known (out : List AstFn) (fn : AstFn) : Bool := out.any fun f => decide (addr f = addr fn)

mutual

def visitExpr : Expr → List AstFn → List AstFn
  | .closure (.mk a dflts captures body), out =>
    if known out (.mk a dflts captures body) then out
    else visitStmts body (out ++ [.mk a dflts captures body])
  | .tpl exprs, out => visitExprs exprs out
  | .index obj idx, out => visitExpr idx (visitExpr obj out)
  | .field obj, out => visitExpr obj out
  | .call fn args, out => visitExprs args (visitExpr fn out)
  | .method obj args, out => visitExprs args (visitExpr obj out)
  | .static args, out => visitExprs args out
  | .new args, out => visitExprs args out
  | .bin l r _, out => visitExpr r (visitExpr l out)
  | .un operand, out => visitExpr operand out
  | .assign target value, out => visitExpr value (visitExpr target out)
  | .ternary cond then_ els, out => visitExpr els (visitExpr then_ (visitExpr cond out))
  | .match subject cases dflt, out => visitExpr dflt (visitArms cases (visitExpr subject out))
  | .arrayLit elems _, out => visitExprs elems out
  -- the source takes a key and its value in turn; what is found is the same
  | .mapLit keys vals, out => visitExprs vals (visitExprs keys out)
  | .tupleLit elems, out => visitExprs elems out
  | .borrow operand, out => visitExpr operand out
  | .mutBorrow operand, out => visitExpr operand out
  | .deref operand, out => visitExpr operand out
  | .cast operand, out => visitExpr operand out
  | .is operand, out => visitExpr operand out
  | .ellipsis inner, out => visitExpr inner out
  | .null, out => out
  | .literal, out => out
  | .var _, out => out

def visitExprs : List Expr → List AstFn → List AstFn
  | [], out => out
  | e :: es, out => visitExprs es (visitExpr e out)

def visitArms : List MatchCase → List AstFn → List AstFn
  | [], out => out
  | .mk patterns body :: cases, out =>
    visitArms cases (visitExpr body (visitExprs patterns out))

def visitStmt : Stmt → List AstFn → List AstFn
  | .expr e, out => visitExpr e out
  | .let_ _ init, out => visitExpr init out
  | .return_ value, out => visitExpr value out
  | .echo exprs, out => visitExprs exprs out
  | .print e, out => visitExpr e out
  | .if_ cond then_ els, out => visitStmts els (visitStmts then_ (visitExpr cond out))
  | .while_ cond body, out => visitStmts body (visitExpr cond out)
  | .for_ init cond step body, out =>
    visitStmts body (visitStmts step (visitExpr cond (visitStmts init out)))
  | .foreach _ _ iter body, out => visitStmts body (visitExpr iter out)
  | .block stmts, out => visitStmts stmts out
  | .unsafe_ stmts, out => visitStmts stmts out
  | .try_ body catches fin, out => visitStmts fin (visitCatches catches (visitStmts body out))
  | .throw e, out => visitExpr e out
  | .jump, out => out
  | .global, out => out
  | .switch _ _, out => out
  | .do_ _ _, out => out

def visitStmts : List Stmt → List AstFn → List AstFn
  | [], out => out
  | s :: ss, out => visitStmts ss (visitStmt s out)

def visitCatches : List CatchClause → List AstFn → List AstFn
  | [], out => out
  | .mk _ body :: catches, out => visitCatches catches (visitStmts body out)

end

/-! ## all closures, and the ones in the children that are walked through -/

mutual

/-- with `all`, all closures; else without the ones in an upper bound of a slice, in a value of an
array literal with keys, in a default of a parameter, in a `switch` and in a `do` -/
def inExpr (all : Bool) : Expr → List AstFn
  | .closure (.mk a dflts captures body) =>
    .mk a dflts captures body :: ((if all then inExprs all dflts else []) ++ inStmts all body)
  | .tpl exprs => inExprs all exprs
  | .index obj idx => inExpr all obj ++ inExpr all idx
  | .field obj => inExpr all obj
  | .call fn args => inExpr all fn ++ inExprs all args
  | .method obj args => inExpr all obj ++ inExprs all args
  | .static args => inExprs all args
  | .new args => inExprs all args
  | .bin l r sliceHi => inExpr all l ++ (inExpr all r ++ if all then inExpr all sliceHi else [])
  | .un operand => inExpr all operand
  | .assign target value => inExpr all target ++ inExpr all value
  | .ternary cond then_ els => inExpr all cond ++ (inExpr all then_ ++ inExpr all els)
  | .match subject cases dflt => inExpr all subject ++ (inArms all cases ++ inExpr all dflt)
  | .arrayLit elems vals => inExprs all elems ++ if all then inExprs all vals else []
  | .mapLit keys vals => inExprs all keys ++ inExprs all vals
  | .tupleLit elems => inExprs all elems
  | .borrow operand => inExpr all operand
  | .mutBorrow operand => inExpr all operand
  | .deref operand => inExpr all operand
  | .cast operand => inExpr all operand
  | .is operand => inExpr all operand
  | .ellipsis inner => inExpr all inner
  | .null => []
  | .literal => []
  | .var _ => []

def inExprs (all : Bool) : List Expr → List AstFn
  | [] => []
  | e :: es => inExpr all e ++ inExprs all es

def inArms (all : Bool) : List MatchCase → List AstFn
  | [] => []
  | .mk patterns body :: cases => inExprs all patterns ++ (inExpr all body ++ inArms all cases)

def inStmt (all : Bool) : Stmt → List AstFn
  | .expr e => inExpr all e
  | .let_ _ init => inExpr all init
  | .return_ value => inExpr all value
  | .echo exprs => inExprs all exprs
  | .print e => inExpr all e
  | .if_ cond then_ els => inExpr all cond ++ (inStmts all then_ ++ inStmts all els)
  | .while_ cond body => inExpr all cond ++ inStmts all body
  | .for_ init cond step body =>
    inStmts all init ++ (inExpr all cond ++ (inStmts all step ++ inStmts all body))
  | .foreach _ _ iter body => inExpr all iter ++ inStmts all body
  | .block stmts => inStmts all stmts
  | .unsafe_ stmts => inStmts all stmts
  | .try_ body catches fin => inStmts all body ++ (inCatches all catches ++ inStmts all fin)
  | .throw e => inExpr all e
  | .jump => []
  | .global => []
  | .switch cond cases => if all then inExpr all cond ++ inCases all cases else []
  | .do_ body cond => if all then inStmts all body ++ inExpr all cond else []

def inStmts (all : Bool) : List Stmt → List AstFn
  | [] => []
  | s :: ss => inStmt all s ++ inStmts all ss

def inCases (all : Bool) : List SwitchCase → List AstFn
  | [] => []
  | .mk patterns body :: cases => inExprs all patterns ++ (inStmts all body ++ inCases all cases)

def inCatches (all : Bool) : List CatchClause → List AstFn
  | [] => []
  | .mk _ body :: catches => inStmts all body ++ inCatches all catches

end

/-! ## programs -/

inductive Decl where
  | fn (f : AstFn)
  /-- a class, a trait or an interface, with the defaults of its fields -/
  | cls (methods : List AstFn) (dflts : List Expr)

structure Program where
  decls : List Decl
  stmts : List Stmt

def body : AstFn → List Stmt
  | .mk _ _ _ body => body

def dflts : AstFn → List Expr
  | .mk _ dflts _ _ => dflts

def visitFns : List AstFn → List AstFn → List AstFn
  | [], out => out
  | f :: fs, out => visitFns fs (visitStmts (body f) out)

def visitDecls : List Decl → List AstFn → List AstFn
  | [], out => out
  | .fn f :: ds, out => visitDecls ds (visitStmts (body f) out)
  | .cls methods _ :: ds, out => visitDecls ds (visitFns methods out)

/-- `g.closures` before anything is emitted -/
def visited (p : Program) : List AstFn := visitStmts p.stmts (visitDecls p.decls [])

def inFn (all : Bool) (f : AstFn) : List AstFn :=
  (if all then inExprs all (dflts f) else []) ++ inStmts all (body f)

def inDecl (all : Bool) : Decl → List AstFn
  | .fn f => inFn all f
  | .cls methods dflts => methods.flatMap (inFn all) ++ if all then inExprs all dflts else []

/-- the closures of a program; without `all` also not the ones in a default of a field -/
def closures (all : Bool) (p : Program) : List AstFn :=
  p.decls.flatMap (inDecl all) ++ inStmts all p.stmts

/-! ## what a walk keeps, adds and reaches -/

/-- what is in the bodies of the closures in the list has been put in the list -/
def Closed (s : List AstFn) : Prop := ∀ f ∈ s, ∃ out, visitStmts (body f) out ⊆ s

/-- the walk `f` of a node; `l` are the closures in its children that are walked through, `m` are
all its closures -/
structure Walk (f : List AstFn → List AstFn) (l m : List AstFn) : Prop where
  grows : ∀ out, out ⊆ f out
  nodup : ∀ out, (out.map addr).Nodup → ((f out).map addr).Nodup
  news : ∀ out, ∀ c ∈ f out, c ∈ out ∨ c ∈ m ∧ ∃ out', visitStmts (body c) out' ⊆ f out
  reaches : ∀ out s, Closed s → (∀ c ∈ s, ∀ d ∈ l, addr c = addr d → c = d) → f out ⊆ s → l ⊆ s
  sub : l ⊆ m

namespace Walk
variable {f g : List AstFn → List AstFn} {l m k n : List AstFn}

theorem nil : Walk (fun out => out) [] [] where
  grows _ := List.Subset.refl _
  nodup _ h := h
  news _ _ h := .inl h
  reaches _ _ _ _ _ := List.nil_subset _
  sub := List.nil_subset _

theorem comp (hf : Walk f l m) (hg : Walk g k n) :
    Walk (fun out => g (f out)) (l ++ k) (m ++ n) where
  grows out := List.Subset.trans (hf.grows out) (hg.grows (f out))
  nodup out h := hg.nodup _ (hf.nodup _ h)
  news out c hc := by
    rcases hg.news _ c hc with h | ⟨h, hs⟩
    · rcases hf.news out c h with h | ⟨h, out', hs⟩
      · exact .inl h
      · exact .inr ⟨List.mem_append_left _ h, out', List.Subset.trans hs (hg.grows _)⟩
    · exact .inr ⟨List.mem_append_right _ h, hs⟩
  reaches out s hs hi h := by
    have hl : l ⊆ s := hf.reaches out s hs
      (fun c hc d hd => hi c hc d (List.mem_append_left _ hd))
      (List.Subset.trans (hg.grows _) h)
    have hk : k ⊆ s := hg.reaches (f out) s hs
      (fun c hc d hd => hi c hc d (List.mem_append_right _ hd)) h
    exact List.append_subset.2 ⟨hl, hk⟩
  sub := List.append_subset.2 ⟨List.subset_append_of_subset_left _ hf.sub,
    List.subset_append_of_subset_right _ hg.sub⟩

/-- children that are not walked through -/
theorem more (hf : Walk f l m) (h : m ⊆ n) : Walk f l n where
  grows := hf.grows
  nodup := hf.nodup
  news out c hc := (hf.news out c hc).imp_right fun ⟨hm, hs⟩ => ⟨h hm, hs⟩
  reaches := hf.reaches
  sub := List.Subset.trans hf.sub h

end Walk

theorem known_eq_false {out : List AstFn} {fn : AstFn} :
    known out fn = false ↔ addr fn ∉ out.map addr := by
  rw [known, List.any_eq_false, List.mem_map]
  constructor
  · rintro h ⟨f, hf, ha⟩
    exact h f hf (decide_eq_true ha)
  · intro h f hf ha
    exact h ⟨f, hf, of_decide_eq_true ha⟩

theorem known_eq_true {out : List AstFn} {fn : AstFn} :
    known out fn = true ↔ ∃ f ∈ out, addr f = addr fn := by
  rw [known, List.any_eq_true]
  exact exists_congr fun f => and_congr_right fun _ => decide_eq_true_iff

theorem nodup_push {out : List AstFn} {fn : AstFn} (h : (out.map addr).Nodup)
    (hk : known out fn = false) : ((out ++ [fn]).map addr).Nodup := by
  rw [List.map_append, List.map_singleton, ← List.concat_eq_append]
  exact h.concat (known_eq_false.1 hk)

/-- the step at a closure: it is put in the list, and its body is walked -/
theorem Walk.closure {a : Nat} {ds : List Expr} {cs : List VarSym} {b : List Stmt}
    {l m : List AstFn} (hb : Walk (visitStmts b) l m) :
    Walk (visitExpr (.closure (.mk a ds cs b))) (.mk a ds cs b :: l) (.mk a ds cs b :: m) where
  grows out := by
    rw [visitExpr]
    split
    · exact List.Subset.refl _
    · exact List.Subset.trans (List.subset_append_left _ _) (hb.grows _)
  nodup out h := by
    rw [visitExpr]
    split
    · exact h
    · next hk => exact hb.nodup _ (nodup_push h (Bool.eq_false_iff.2 hk))
  news out c hc := by
    rw [visitExpr] at hc ⊢
    split at hc
    · exact .inl hc
    · next hk =>
      rw [if_neg hk]
      rcases hb.news _ c hc with h | ⟨h, hs⟩
      · rcases List.mem_append.1 h with h | h
        · exact .inl h
        · -- the closure itself: this is the walk of its body
          rw [List.mem_singleton.1 h]
          exact .inr ⟨List.mem_cons_self, _, List.Subset.refl _⟩
      · exact .inr ⟨List.mem_cons_of_mem _ h, hs⟩
  reaches out s hs hi h := by
    have hl : ∀ c ∈ s, ∀ d ∈ l, addr c = addr d → c = d := fun c hc d hd =>
      hi c hc d (List.mem_cons_of_mem _ hd)
    rw [visitExpr] at h
    split at h
    · next hk =>
      obtain ⟨f, hf, ha⟩ := known_eq_true.1 hk
      have hfs : f ∈ s := h hf
      rw [hi f hfs _ List.mem_cons_self ha] at hfs
      obtain ⟨out', ho⟩ := hs _ hfs
      exact List.cons_subset.2 ⟨hfs, hb.reaches out' s hs hl ho⟩
    · have hfs := h (hb.grows _ (List.mem_append_right out (List.mem_singleton.2 rfl)))
      exact List.cons_subset.2 ⟨hfs, hb.reaches _ s hs hl h⟩
  sub := List.cons_subset_cons _ hb.sub

mutual

theorem visitExpr_walk : (e : Expr) → Walk (visitExpr e) (inExpr false e) (inExpr true e)
  | .closure (.mk _ _ _ b) =>
    (visitStmts_walk b).closure.more (List.cons_subset_cons _ (List.subset_append_right _ _))
  | .tpl es => visitExprs_walk es
  | .index a b => (visitExpr_walk a).comp (visitExpr_walk b)
  | .field e => visitExpr_walk e
  | .call e es => (visitExpr_walk e).comp (visitExprs_walk es)
  | .method e es => (visitExpr_walk e).comp (visitExprs_walk es)
  | .static es => visitExprs_walk es
  | .new es => visitExprs_walk es
  | .bin l r hi => by
    have h := (visitExpr_walk l).comp ((visitExpr_walk r).comp
      (Walk.nil.more (List.nil_subset (inExpr true hi))))
    exact h
  | .un e => visitExpr_walk e
  | .assign a b => (visitExpr_walk a).comp (visitExpr_walk b)
  | .ternary c t e => (visitExpr_walk c).comp ((visitExpr_walk t).comp (visitExpr_walk e))
  | .match e ms d => (visitExpr_walk e).comp ((visitArms_walk ms).comp (visitExpr_walk d))
  | .arrayLit es vs => by
    have h := (visitExprs_walk es).comp (Walk.nil.more (List.nil_subset (inExprs true vs)))
    exact h
  | .mapLit ks vs => (visitExprs_walk ks).comp (visitExprs_walk vs)
  | .tupleLit es => visitExprs_walk es
  | .borrow e => visitExpr_walk e
  | .mutBorrow e => visitExpr_walk e
  | .deref e => visitExpr_walk e
  | .cast e => visitExpr_walk e
  | .is e => visitExpr_walk e
  | .ellipsis e => visitExpr_walk e
  | .null => Walk.nil
  | .literal => Walk.nil
  | .var _ => Walk.nil

theorem visitExprs_walk : (es : List Expr) →
    Walk (visitExprs es) (inExprs false es) (inExprs true es)
  | [] => Walk.nil
  | e :: es => (visitExpr_walk e).comp (visitExprs_walk es)

theorem visitArms_walk : (ms : List MatchCase) →
    Walk (visitArms ms) (inArms false ms) (inArms true ms)
  | [] => Walk.nil
  | .mk ps b :: ms => (visitExprs_walk ps).comp ((visitExpr_walk b).comp (visitArms_walk ms))

theorem visitStmt_walk : (s : Stmt) → Walk (visitStmt s) (inStmt false s) (inStmt true s)
  | .expr e => visitExpr_walk e
  | .let_ _ e => visitExpr_walk e
  | .return_ e => visitExpr_walk e
  | .echo es => visitExprs_walk es
  | .print e => visitExpr_walk e
  | .if_ c t e => (visitExpr_walk c).comp ((visitStmts_walk t).comp (visitStmts_walk e))
  | .while_ c b => (visitExpr_walk c).comp (visitStmts_walk b)
  | .for_ i c st b => (visitStmts_walk i).comp
      ((visitExpr_walk c).comp ((visitStmts_walk st).comp (visitStmts_walk b)))
  | .foreach _ _ e b => (visitExpr_walk e).comp (visitStmts_walk b)
  | .block b => visitStmts_walk b
  | .unsafe_ b => visitStmts_walk b
  | .try_ b cs f => (visitStmts_walk b).comp ((visitCatches_walk cs).comp (visitStmts_walk f))
  | .throw e => visitExpr_walk e
  | .jump => Walk.nil
  | .global => Walk.nil
  | .switch _ _ => Walk.nil.more (List.nil_subset _)
  | .do_ _ _ => Walk.nil.more (List.nil_subset _)

theorem visitStmts_walk : (ss : List Stmt) →
    Walk (visitStmts ss) (inStmts false ss) (inStmts true ss)
  | [] => Walk.nil
  | s :: ss => (visitStmt_walk s).comp (visitStmts_walk ss)

theorem visitCatches_walk : (cs : List CatchClause) →
    Walk (visitCatches cs) (inCatches false cs) (inCatches true cs)
  | [] => Walk.nil
  | .mk _ b :: cs => (visitStmts_walk b).comp (visitCatches_walk cs)

end

theorem visitFn_walk (f : AstFn) : Walk (visitStmts (body f)) (inFn false f) (inFn true f) :=
  (visitStmts_walk (body f)).more (List.subset_append_right _ _)

theorem visitFns_walk (fs : List AstFn) :
    Walk (visitFns fs) (fs.flatMap (inFn false)) (fs.flatMap (inFn true)) := by
  induction fs with
  | nil => exact Walk.nil
  | cons f fs ih =>
    rw [List.flatMap_cons, List.flatMap_cons]
    exact (visitFn_walk f).comp ih

theorem visitDecls_walk (ds : List Decl) :
    Walk (visitDecls ds) (ds.flatMap (inDecl false)) (ds.flatMap (inDecl true)) := by
  induction ds with
  | nil => exact Walk.nil
  | cons d ds ih =>
    rw [List.flatMap_cons, List.flatMap_cons]
    cases d with
    | fn f => exact (visitFn_walk f).comp ih
    | cls methods dflts =>
      have h := (visitFns_walk methods).comp
        (Walk.nil.more (List.nil_subset (inExprs true dflts)))
      exact h.comp ih

theorem program_walk (p : Program) :
    Walk (fun out => visitStmts p.stmts (visitDecls p.decls out)) (closures false p)
      (closures true p) :=
  (visitDecls_walk p.decls).comp (visitStmts_walk p.stmts)

/-- an address is the address of one node -/
def OneEach (l : List AstFn) : Prop := ∀ c ∈ l, ∀ d ∈ l, addr c = addr d → c = d

theorem visited_nodup (p : Program) : ((visited p).map addr).Nodup :=
  (program_walk p).nodup [] List.nodup_nil

theorem visited_subset (p : Program) : visited p ⊆ closures true p := fun c hc =>
  ((program_walk p).news [] c hc).elim (fun h => absurd h List.not_mem_nil) And.left

theorem subset_visited {p : Program} (h : OneEach (closures true p)) :
    closures false p ⊆ visited p := by
  refine (program_walk p).reaches [] _ ?_ ?_ (List.Subset.refl _)
  · intro c hc
    exact ((program_walk p).news [] c hc).elim (fun h => absurd h List.not_mem_nil) And.right
  · intro c hc d hd
    exact h c (visited_subset p hc) d ((program_walk p).sub hd)

/-! ## the emission -/

/-- what is printed of a closure -/
inductive Event where
  | struct (addr : Nat)
  | prototype (addr : Nat)
  | body (addr : Nat)
  deriving DecidableEq

/-- `printed` are the addresses of those with `proto_emitted` -/
structure Gen where
  closures : List AstFn
  printed : List Nat
  log : List Event

/-- the closures that are come by while a part is emitted, each time it is come by: of the
prototypes of functions, of the classes, of the free functions, of `hp_main`, and of a closure -/
structure Emission (p : Program) where
  protos : List AstFn
  classes : List AstFn
  fns : List AstFn
  main : List AstFn
  inBody : AstFn → List AstFn
  protos_sub : protos ⊆ closures true p
  classes_sub : classes ⊆ closures true p
  fns_sub : fns ⊆ closures true p
  main_sub : main ⊆ closures true p
  inBody_sub : ∀ f, inBody f ⊆ closures true p

namespace Gen

/-- `emit_expr` at a closure: register once -/
def use (g : Gen) (fn : AstFn) : Gen :=
  if known g.closures fn then g else { g with closures := g.closures ++ [fn] }

def struct (g : Gen) (fn : AstFn) : Gen :=
  if addr fn ∈ g.printed then g
  else { g with printed := addr fn :: g.printed, log := g.log ++ [.struct (addr fn)] }

/-- `emit_closure_prototype` -/
def prototype (g : Gen) (fn : AstFn) : Gen :=
  let g := g.struct fn
  { g with log := g.log ++ [.prototype (addr fn)] }

/-- `emit_closure` -/
def closure (inBody : AstFn → List AstFn) (g : Gen) (fn : AstFn) : Gen :=
  let g := g.struct fn
  let g := { g with log := g.log ++ [.body (addr fn)] }
  (inBody fn).foldl use g

def prototypes (g : Gen) : Gen := g.closures.foldl prototype g

/-- the loop over the closures; a body can append to them -/
def bodies (inBody : AstFn → List AstFn) : Nat → Nat → Gen → Option Gen
  | 0, _, _ => none
  | fuel + 1, i, g =>
    match g.closures[i]? with
    | none => some g
    | some fn => bodies inBody fuel (i + 1) (g.closure inBody fn)

end Gen

/-- the loops of `codegen_emit` that take out a closure that stands there before -/
def unique (fns : List AstFn) : List AstFn :=
  fns.foldl (fun out fn => if known out fn then out else out ++ [fn]) []

/-- the passes of `codegen_emit` -/
def emit (p : Program) (e : Emission p) (fuel : Nat) : Option Gen :=
  let g : Gen := ⟨unique (visited p), [], []⟩
  let g := (e.protos.foldl Gen.use g).prototypes
  ((e.classes.foldl Gen.use g).bodies e.inBody fuel 0).map fun g =>
    e.main.foldl Gen.use (e.fns.foldl Gen.use g).prototypes

/-! ## what a pass keeps -/

theorem unique_eq {fns : List AstFn} (h : (fns.map addr).Nodup) : unique fns = fns := by
  have hpre : ∀ (rest out : List AstFn), ((out ++ rest).map addr).Nodup →
      rest.foldl (fun out fn => if known out fn then out else out ++ [fn]) out = out ++ rest := by
    intro rest
    induction rest with
    | nil => exact fun out _ => (List.append_nil out).symm
    | cons fn rest ih =>
      intro out hn
      have hk : known out fn = false := by
        rw [List.map_append, List.map_cons, List.nodup_append] at hn
        exact known_eq_false.2 fun ha => hn.2.2 _ ha _ List.mem_cons_self rfl
      rw [List.foldl_cons, hk, if_neg Bool.false_ne_true, ih, List.append_assoc]
      · rfl
      · rw [List.append_assoc]
        exact hn
  exact hpre fns [] h

/-- no closure stands there twice, all are of the program, and the structs that have been printed
are those of the closures that are marked so -/
structure Good (p : Program) (g : Gen) : Prop where
  nodup : (g.closures.map addr).Nodup
  sub : g.closures ⊆ closures true p
  structs : ∀ a, g.log.count (.struct a) = if a ∈ g.printed then 1 else 0

/-- `g'` follows `g`: a closure stays registered, and with a struct -/
structure Later (g g' : Gen) : Prop where
  closures : g.closures <+: g'.closures
  printed : g.printed ⊆ g'.printed

theorem Later.refl (g : Gen) : Later g g := ⟨List.prefix_refl _, List.Subset.refl _⟩

theorem Later.trans {g g' g'' : Gen} (h : Later g g') (h' : Later g' g'') : Later g g'' :=
  ⟨h.closures.trans h'.closures, List.Subset.trans h.printed h'.printed⟩

section
variable {p : Program} {g : Gen}

theorem use_spec (hg : Good p g) {fn : AstFn} (hf : fn ∈ closures true p) :
    Good p (g.use fn) ∧ Later g (g.use fn) ∧ (g.use fn).log = g.log := by
  rw [Gen.use]
  split
  · exact ⟨hg, Later.refl g, rfl⟩
  · next hk =>
    refine ⟨⟨nodup_push hg.nodup (Bool.eq_false_iff.2 hk), ?_, hg.structs⟩,
      ⟨List.prefix_append _ _, List.Subset.refl _⟩, rfl⟩
    exact List.append_subset.2 ⟨hg.sub, List.cons_subset.2 ⟨hf, List.nil_subset _⟩⟩

theorem uses_spec (hg : Good p g) {fns : List AstFn} (hf : fns ⊆ closures true p) :
    Good p (fns.foldl Gen.use g) ∧ Later g (fns.foldl Gen.use g) ∧
      (fns.foldl Gen.use g).log = g.log := by
  induction fns generalizing g with
  | nil => exact ⟨hg, Later.refl g, rfl⟩
  | cons fn fns ih =>
    obtain ⟨hfn, hfns⟩ := List.cons_subset.1 hf
    obtain ⟨h1, l1, e1⟩ := use_spec hg hfn
    obtain ⟨h2, l2, e2⟩ := ih h1 hfns
    exact ⟨h2, l1.trans l2, e2.trans e1⟩

theorem struct_spec (hg : Good p g) (fn : AstFn) :
    Good p (g.struct fn) ∧ Later g (g.struct fn) ∧ (g.struct fn).closures = g.closures ∧
      addr fn ∈ (g.struct fn).printed ∧
      ∀ ev, (∀ a, ev ≠ .struct a) → (g.struct fn).log.count ev = g.log.count ev := by
  rw [Gen.struct]
  split
  · next h => exact ⟨hg, Later.refl g, rfl, h, fun _ _ => rfl⟩
  · next h =>
    refine ⟨⟨hg.nodup, hg.sub, fun a => ?_⟩, ⟨List.prefix_refl _, List.subset_cons_self _ _⟩, rfl,
      List.mem_cons_self, fun ev hev => ?_⟩
    · rw [List.count_append, hg.structs a, List.count_singleton]
      by_cases ha : a = addr fn
      · subst ha
        rw [if_neg h, if_pos (beq_self_eq_true _), if_pos List.mem_cons_self]
      · have hne : (Event.struct (addr fn) == Event.struct a) = false :=
          beq_eq_false_iff_ne.2 fun he => ha (Event.struct.inj he).symm
        rw [hne, if_neg Bool.false_ne_true, Nat.add_zero]
        exact if_congr (by rw [List.mem_cons, or_iff_right ha]) rfl rfl
    · rw [List.count_append, List.count_singleton,
        beq_eq_false_iff_ne.2 (Ne.symm (hev _)), if_neg Bool.false_ne_true, Nat.add_zero]

/-- printing something that is no struct -/
theorem Good.log (hg : Good p g) {ev : Event} (h : ∀ a, ev ≠ .struct a) :
    Good p { g with log := g.log ++ [ev] } :=
  ⟨hg.nodup, hg.sub, fun a => by
    rw [List.count_append, hg.structs a, List.count_singleton, beq_eq_false_iff_ne.2 (h a),
      if_neg Bool.false_ne_true, Nat.add_zero]⟩

theorem prototype_spec (hg : Good p g) (fn : AstFn) :
    Good p (g.prototype fn) ∧ Later g (g.prototype fn) ∧
      (g.prototype fn).closures = g.closures ∧ addr fn ∈ (g.prototype fn).printed ∧
      (∀ a, (g.prototype fn).log.count (.prototype a) =
        g.log.count (.prototype a) + [addr fn].count a) ∧
      ∀ a, (g.prototype fn).log.count (.body a) = g.log.count (.body a) := by
  obtain ⟨h1, l1, hc, hp, he⟩ := struct_spec hg fn
  refine ⟨h1.log fun _ h => Event.noConfusion h, ⟨l1.closures, l1.printed⟩, hc, hp, ?_, ?_⟩
  · intro a
    show List.count _ ((g.struct fn).log ++ _) = _
    rw [List.count_append, he _ fun _ h => Event.noConfusion h, List.count_singleton,
      List.count_singleton]
    refine congrArg _ (if_congr ?_ rfl rfl)
    rw [beq_iff_eq, beq_iff_eq, Event.prototype.injEq]
  · intro a
    show List.count _ ((g.struct fn).log ++ _) = _
    rw [List.count_append, he _ fun _ h => Event.noConfusion h, List.count_singleton,
      if_neg (fun h => Event.noConfusion (beq_iff_eq.1 h)), Nat.add_zero]

theorem foldl_prototype_spec (hg : Good p g) (fns : List AstFn) :
    Good p (fns.foldl Gen.prototype g) ∧ Later g (fns.foldl Gen.prototype g) ∧
      (fns.foldl Gen.prototype g).closures = g.closures ∧
      (∀ fn ∈ fns, addr fn ∈ (fns.foldl Gen.prototype g).printed) ∧
      (∀ a, (fns.foldl Gen.prototype g).log.count (.prototype a) =
        g.log.count (.prototype a) + (fns.map addr).count a) ∧
      ∀ a, (fns.foldl Gen.prototype g).log.count (.body a) = g.log.count (.body a) := by
  induction fns generalizing g with
  | nil => exact ⟨hg, Later.refl g, rfl, fun _ h => absurd h List.not_mem_nil, fun _ => rfl,
      fun _ => rfl⟩
  | cons fn fns ih =>
    obtain ⟨h1, l1, c1, p1, e1, b1⟩ := prototype_spec hg fn
    obtain ⟨h2, l2, c2, p2, e2, b2⟩ := ih h1
    refine ⟨h2, l1.trans l2, c2.trans c1, ?_, fun a => ?_, fun a => (b2 a).trans (b1 a)⟩
    · intro f hf
      rcases List.mem_cons.1 hf with rfl | hf
      · exact l2.printed p1
      · exact p2 f hf
    · rw [List.foldl_cons, e2, e1, Nat.add_assoc, ← List.count_append]
      rfl

/-- a pass of prototypes -/
theorem prototypes_spec (hg : Good p g) :
    Good p g.prototypes ∧ Later g g.prototypes ∧
      (∀ fn ∈ g.closures, addr fn ∈ g.prototypes.printed) ∧
      (∀ a, g.prototypes.log.count (.prototype a) =
        g.log.count (.prototype a) + (g.closures.map addr).count a) ∧
      ∀ a, g.prototypes.log.count (.body a) = g.log.count (.body a) := by
  obtain ⟨h, l, -, hs⟩ := foldl_prototype_spec hg g.closures
  exact ⟨h, l, hs⟩

theorem closure_spec (hg : Good p g) {inBody : AstFn → List AstFn} {fn : AstFn}
    (hb : inBody fn ⊆ closures true p) :
    Good p (g.closure inBody fn) ∧ Later g (g.closure inBody fn) ∧
      (∀ a, (g.closure inBody fn).log.count (.prototype a) = g.log.count (.prototype a)) ∧
      ∀ a, (g.closure inBody fn).log.count (.body a) =
        g.log.count (.body a) + [addr fn].count a := by
  obtain ⟨h1, l1, _, _, he⟩ := struct_spec hg fn
  obtain ⟨h2, l2, e2⟩ := uses_spec (@Good.log _ _ h1 (.body (addr fn))
    fun _ h => Event.noConfusion h) hb
  refine ⟨h2, ⟨l1.closures.trans l2.closures, List.Subset.trans l1.printed l2.printed⟩, ?_, ?_⟩
  · intro a
    show List.count _ (List.foldl Gen.use _ _).log = _
    rw [e2, List.count_append, he _ fun _ h => Event.noConfusion h, List.count_singleton,
      if_neg (fun h => Event.noConfusion (beq_iff_eq.1 h)), Nat.add_zero]
  · intro a
    show List.count _ (List.foldl Gen.use _ _).log = _
    rw [e2, List.count_append, he _ fun _ h => Event.noConfusion h, List.count_singleton,
      List.count_singleton]
    refine congrArg _ (if_congr ?_ rfl rfl)
    rw [beq_iff_eq, beq_iff_eq, Event.body.injEq]

theorem bodies_spec {inBody : AstFn → List AstFn} (hb : ∀ f, inBody f ⊆ closures true p)
    {fuel i : Nat} {g' : Gen} (hg : Good p g) (h : g.bodies inBody fuel i = some g') :
    Good p g' ∧ Later g g' ∧
      (∀ a, g'.log.count (.prototype a) = g.log.count (.prototype a)) ∧
      ∀ a, g'.log.count (.body a) =
        g.log.count (.body a) + ((g'.closures.drop i).map addr).count a := by
  induction fuel generalizing g i with
  | zero => cases h
  | succ fuel ih =>
    rw [Gen.bodies] at h
    split at h
    · next hn =>
      cases h
      refine ⟨hg, Later.refl _, fun _ => rfl, fun a => ?_⟩
      rw [List.drop_eq_nil_of_le (List.getElem?_eq_none_iff.1 hn)]
      rfl
    · next fn hn =>
      obtain ⟨h1, l1, e1, b1⟩ := closure_spec hg (hb fn)
      obtain ⟨h2, l2, e2, b2⟩ := ih h1 h
      refine ⟨h2, l1.trans l2, fun a => (e2 a).trans (e1 a), fun a => ?_⟩
      -- a registered closure stays where it is
      have hi : g'.closures[i]? = some fn := by
        obtain ⟨rest, hr⟩ := (l1.trans l2).closures
        rw [← hr, List.getElem?_append_left (List.getElem?_eq_some_iff.1 hn).1, hn]
      have hd : g'.closures.drop i = fn :: g'.closures.drop (i + 1) := by
        rw [List.drop_eq_getElem?_toList_append, hi]
        rfl
      rw [b2, b1, hd, Nat.add_assoc, ← List.count_append]
      rfl

theorem Good.length_le (hg : Good p g) : g.closures.length ≤ (closures true p).length :=
  (List.Nodup.subperm (List.Nodup.of_map addr hg.nodup) hg.sub).length_le

theorem bodies_some {inBody : AstFn → List AstFn} (hb : ∀ f, inBody f ⊆ closures true p)
    {fuel i : Nat} (hg : Good p g) (hi : i ≤ g.closures.length)
    (hf : (closures true p).length < i + fuel) : ∃ g', g.bodies inBody fuel i = some g' := by
  induction fuel generalizing g i with
  | zero =>
    have hl := hg.length_le
    exact absurd hf (by omega)
  | succ fuel ih =>
    rw [Gen.bodies]
    split
    · exact ⟨g, rfl⟩
    · next fn hn =>
      obtain ⟨h1, l1, -, -⟩ := closure_spec hg (hb fn)
      have hlt := (List.getElem?_eq_some_iff.1 hn).1
      exact ih h1 (Nat.le_trans hlt l1.closures.length_le) (by omega)

end

theorem addr_count {l : List AstFn} (h : (l.map addr).Nodup) {c : AstFn} (hc : c ∈ l) :
    (l.map addr).count (addr c) = 1 :=
  List.count_eq_one_of_mem h (List.mem_map_of_mem hc)

/-- **A closure that is walked to is visited once before anything is emitted, its struct and its
body are printed once, and its prototype once in each of the two passes of prototypes.**  It stands
in no upper bound of a slice, in no value of an array literal with keys, in no default, in no
`switch` and in no `do`. -/
theorem closures_emitted (p : Program) (e : Emission p) (h : OneEach (closures true p))
    (c : AstFn) (hc : c ∈ closures false p) :
    ((visited p).map addr).count (addr c) = 1 ∧
      ∃ g, emit p e ((closures true p).length + 1) = some g ∧
        g.log.count (.struct (addr c)) = 1 ∧ g.log.count (.body (addr c)) = 1 ∧
        g.log.count (.prototype (addr c)) = 2 := by
  have hv : c ∈ visited p := subset_visited h hc
  refine ⟨addr_count (visited_nodup p) hv, ?_⟩
  have h0 : Good p ⟨unique (visited p), [], []⟩ := by
    rw [unique_eq (visited_nodup p)]
    exact ⟨visited_nodup p, visited_subset p, fun a => by rw [if_neg List.not_mem_nil]; rfl⟩
  obtain ⟨h1, l1, e1⟩ := uses_spec h0 e.protos_sub
  have hc1 : c ∈ (e.protos.foldl Gen.use ⟨unique (visited p), [], []⟩).closures :=
    l1.closures.subset (by rwa [unique_eq (visited_nodup p)])
  rw [emit]
  generalize e.protos.foldl Gen.use ⟨unique (visited p), [], []⟩ = g1 at *
  obtain ⟨h2, l2, p2, e2, b2⟩ := prototypes_spec h1
  obtain ⟨h3, l3, e3⟩ := uses_spec h2 e.classes_sub
  obtain ⟨g4, hg4⟩ := @bodies_some _ _ _ e.inBody_sub ((closures true p).length + 1) _ h3
    (Nat.zero_le _) (by omega)
  obtain ⟨h4, l4, e4, b4⟩ := bodies_spec e.inBody_sub h3 hg4
  have hc4 : c ∈ g4.closures := (l2.trans (l3.trans l4)).closures.subset hc1
  obtain ⟨h5, l5, e5⟩ := uses_spec h4 e.fns_sub
  obtain ⟨h6, l6, -, e6, b6⟩ := prototypes_spec h5
  obtain ⟨h7, l7, e7⟩ := uses_spec h6 e.main_sub
  refine ⟨_, by rw [hg4]; rfl, ?_, ?_, ?_⟩
  · have hp : addr c ∈ _ := (l3.trans (l4.trans (l5.trans (l6.trans l7)))).printed (p2 c hc1)
    rw [h7.structs, if_pos hp]
  · rw [e7, b6, e5, b4, e3, b2, e1, List.drop_zero, addr_count h4.nodup hc4]
    rfl
  · rw [e7, e6, e5, e4, e3, e2, e1, addr_count h1.nodup hc1,
      addr_count h5.nodup (l5.closures.subset hc4)]
    rfl

def leaf (a : Nat) : AstFn := .mk a [] [] []

/-- `function f() { return function () { return function () {}; }; }` -/
def nested : Program :=
  ⟨[.fn (.mk 1 [] [] [.return_ (.closure (.mk 2 [] [] [.return_ (.closure (leaf 3))]))])], []⟩

def nestedUses : Emission nested where
  protos := []
  classes := []
  fns := closures true nested
  main := []
  inBody _ := [leaf 3]
  protos_sub := List.nil_subset _
  classes_sub := List.nil_subset _
  fns_sub := List.Subset.refl _
  main_sub := List.nil_subset _
  inBody_sub _ := List.subset_cons_self _ _

theorem closures_emitted_nested :
    ((visited nested).map addr).count 3 = 1 ∧
      ∃ g, emit nested nestedUses 3 = some g ∧ g.log.count (.struct 3) = 1 ∧
        g.log.count (.body 3) = 1 ∧ g.log.count (.prototype 3) = 2 :=
  closures_emitted nested nestedUses
    (by
      intro c hc d hd h
      rcases List.mem_pair.1 hc with rfl | rfl <;> rcases List.mem_pair.1 hd with rfl | rfl <;>
        first | rfl | cases h)
    (leaf 3) (List.mem_cons_of_mem _ List.mem_cons_self)

/-- `echo function () {};` -/
def atTop : Program := ⟨[], [.echo [.closure (leaf 1)]]⟩

/-- `function f($x) { switch ($x) { case 1: return function () {}; } }` -/
def inSwitch : Program :=
  ⟨[.fn (.mk 1 [] [] [.switch (.var none) [.mk [.literal] [.return_ (.closure (leaf 2))]]])], []⟩

def atTopUses : Emission atTop where
  protos := []
  classes := []
  fns := []
  main := [leaf 1]
  inBody _ := []
  protos_sub := List.nil_subset _
  classes_sub := List.nil_subset _
  fns_sub := List.nil_subset _
  main_sub := List.Subset.refl _
  inBody_sub _ := List.nil_subset _

def inSwitchUses : Emission inSwitch where
  protos := []
  classes := []
  fns := [leaf 2]
  main := []
  inBody _ := []
  protos_sub := List.nil_subset _
  classes_sub := List.nil_subset _
  fns_sub := List.Subset.refl _
  main_sub := List.nil_subset _
  inBody_sub _ := List.nil_subset _

/-- a prototype is printed twice; a closure in a `switch` is not visited, and has no body -/
theorem prototype_twice :
    (closures true atTop = [leaf 1] ∧ visited atTop = [leaf 1] ∧
      (emit atTop atTopUses 2).map Gen.log =
        some [.struct 1, .prototype 1, .body 1, .prototype 1]) ∧
    (closures true inSwitch = [leaf 2] ∧ visited inSwitch = [] ∧
      (emit inSwitch inSwitchUses 2).map Gen.log = some [.struct 2, .prototype 2]) :=
  ⟨⟨rfl, rfl, rfl⟩, rfl, rfl, rfl⟩

end Closures
end HolyPhp
