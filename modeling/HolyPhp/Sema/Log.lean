import HolyPhp.Sema.Runs
import Mathlib.Data.List.GetD
import Mathlib.Logic.Relation

/-!
# The log of an accepted body

Every function of the checker is a sequence of the steps of `Step`: one that leaves the log alone,
or one that adds a single use.  From that:

* `checkFnBody_good`  in the log of an accepted body no read of a symbol follows an assignment that
  marked it as moved, and no borrow meets a conflicting loan of the table that the log before it
  gives (`loansOf`);
* `checkFnBody_length`  the log of an accepted body has as many uses as its code has places.
-/

namespace HolyPhp
namespace Sema

open Flow State Relation

/-! ## the loans and the moves of a log -/

/-- the table of the loans, after one more use -/
def loanStep (ls : List Loan) : Use → List Loan
  | .borrow v isMut _ => pushLoan ls ⟨v.sym, isMut⟩
  | .release => []
  | _ => ls

/-- the table of the loans after the uses, from the table at the start -/
def loansOf (start : List Loan) (log : List Use) : List Loan := log.foldl loanStep start

/-- the ways of setting a variable that mark its source as moved -/
def How.marks : How → Bool
  | .fresh => false
  | .set smart => smart
  | .let_ isMut same => !isMut && !same

/-- the use takes the value out of an `own<T>` variable and marks its symbol as moved -/
def Use.moves (u : Use) (p : Nat) : Prop :=
  ∃ d src how, u = .assign d (.var src true true) how ∧ how.marks = true ∧ src.sym = p

/-- what a check without an error says of a use, after the uses of `log` -/
def Good (start : List Loan) (log : List Use) : Use → Prop
  | .read v => ∀ u ∈ log, ¬ u.moves v.sym
  | .borrow v isMut _ => mutLoan (loansOf start log) v.sym = false ∧
      (isMut = true → sharedLoan (loansOf start log) v.sym = false)
  | _ => True

def AllGood (start : List Loan) (log : List Use) : Prop :=
  ∀ l u r, log = l ++ u :: r → Good start l u

theorem AllGood.nil (start : List Loan) : AllGood start [] := fun l u r h => by cases l <;> cases h

theorem AllGood.snoc {start : List Loan} {log : List Use} {u : Use} (h : AllGood start log)
    (hu : Good start log u) : AllGood start (log ++ [u]) := by
  intro l v r heq
  rcases List.eq_nil_or_concat r with rfl | ⟨r', w, rfl⟩
  · obtain ⟨rfl, hv⟩ := List.append_inj' heq rfl
    cases hv
    exact hu
  · rw [List.concat_eq_append, ← List.cons_append, ← List.append_assoc] at heq
    exact h l v r' (List.append_inj' heq rfl).1

theorem mem_take_of_getElem? {α : Type} {l : List α} {a : α} {p q : Nat} (h : l[p]? = some a)
    (hpq : p < q) : a ∈ l.take q := by
  refine List.mem_of_getElem? (i := p) ?_
  rw [List.getElem?_take_of_lt hpq]
  exact h

theorem AllGood.at {start : List Loan} {log : List Use} {u : Use} {q : Nat}
    (h : AllGood start log) (hq : log[q]? = some u) : Good start (log.take q) u := by
  obtain ⟨hlt, hu⟩ := List.getElem?_eq_some_iff.mp hq
  refine h (log.take q) u (log.drop (q + 1)) ?_
  rw [← hu, ← List.drop_eq_getElem_cons hlt, List.take_append_drop]

/-! ## quiet steps -/

def State.moved (s : State) (p : Nat) : Prop := (s.sym p).movedFrom = true

/-- nothing is added to the log, no error and no mark is taken back -/
structure Quiet (s t : State) : Prop where
  ok : t.ok = true → s.ok = true
  log : t.log = s.log
  loans : t.loans = s.loans
  moved : ∀ p, s.moved p → t.moved p

namespace Quiet
variable {s t u : State}

theorem refl (s : State) : Quiet s s := ⟨id, rfl, rfl, fun _ => id⟩

theorem trans (h : Quiet s t) (h' : Quiet t u) : Quiet s u :=
  ⟨fun hu => h.ok (h'.ok hu), h'.log.trans h.log, h'.loans.trans h.loans,
    fun p hp => h'.moved p (h.moved p hp)⟩

/-- neither the symbols nor what the rest of `Quiet` is about have changed -/
theorem of_syms (ok : t.ok = true → s.ok = true) (log : t.log = s.log)
    (loans : t.loans = s.loans) (syms : t.syms = s.syms) : Quiet s t :=
  ⟨ok, log, loans, fun p hp => by rwa [State.moved, State.sym, syms]⟩

end Quiet

variable (s : State)

theorem err_quiet : Quiet s s.err := .of_syms (fun h => by cases h) rfl rfl rfl

theorem errIf_quiet (b : Bool) : Quiet s (s.errIf b) :=
  .of_syms (fun h => (Bool.and_eq_true_iff.mp h).1) rfl rfl rfl

theorem push_quiet : Quiet s s.push := .of_syms id rfl rfl rfl

theorem pop_quiet : Quiet s s.pop := .of_syms id rfl rfl rfl

theorem enterLoop_quiet : Quiet s (enterLoop s) := .of_syms id rfl rfl rfl

theorem leaveLoop_quiet : Quiet s (leaveLoop s) := .of_syms id rfl rfl rfl

theorem capture_quiet (p : Nat) : Quiet s (s.capture p) := by
  rw [capture]
  split
  · exact .refl s
  · exact .of_syms id rfl rfl rfl

theorem captureTop_quiet (p : Nat) : Quiet s (s.captureTop p) := by
  rw [captureTop]
  split
  · exact .refl s
  · split
    · exact .of_syms id rfl rfl rfl
    · exact .refl s

theorem expose_quiet (p : Nat) : Quiet s (s.expose p) := by
  rw [expose]
  split
  · exact .refl s
  · split
    · exact .of_syms id rfl rfl rfl
    · exact .refl s

theorem moved_lt {s : State} {p : Nat} (h : s.moved p) : p < s.syms.length := by
  by_contra hp
  rw [State.moved, State.sym, List.getD_eq_default _ _ (Nat.le_of_not_lt hp)] at h
  cases h

/-- more symbols at the end -/
theorem append_quiet {t : State} (l : List VarSym) (ok : t.ok = true → s.ok = true)
    (log : t.log = s.log) (loans : t.loans = s.loans) (syms : t.syms = s.syms ++ l) :
    Quiet s t := by
  refine ⟨ok, log, loans, ?_⟩
  intro p hp
  have hlt := moved_lt hp
  rw [State.moved, State.sym] at hp ⊢
  rw [syms, List.getD_append _ _ _ _ hlt]
  exact hp

theorem sym_setSym (f : VarSym → VarSym) (p q : Nat) (hp : p < s.syms.length) :
    (s.setSym p f).sym q = if p = q then f (s.sym q) else s.sym q := by
  simp only [State.sym, setSym, List.getD_eq_getElem?_getD, List.getElem?_modify]
  by_cases h : p = q
  · subst h
    simp [List.getElem?_eq_getElem hp]
  · simp [h]

theorem setSym_quiet (p : Nat) (f : VarSym → VarSym)
    (hf : ∀ v, v.movedFrom = true → (f v).movedFrom = true) : Quiet s (s.setSym p f) := by
  refine ⟨id, rfl, rfl, ?_⟩
  intro q hq
  by_cases hp : p < s.syms.length
  · rw [State.moved, sym_setSym s f p q hp]
    split
    · exact hf _ hq
    · exact hq
  · have hsyms : (s.setSym p f).syms = s.syms := List.modify_eq_self (Nat.le_of_not_lt hp)
    rwa [State.moved, State.sym, hsyms]

theorem move_quiet (p : Nat) : Quiet s (s.move p) := setSym_quiet s p _ fun _ _ => rfl

theorem move_moved {p : Nat} (hp : p < s.syms.length) : (s.move p).moved p := by
  rw [State.moved, State.move, sym_setSym s _ p p hp]
  simp

theorem declare_quiet (name : Bytes) (ty : Ty) (isMut : Bool) :
    Quiet s (s.declare name ty isMut).2 := by
  rw [declare]
  split
  · exact err_quiet s
  · split
    · exact append_quiet s _ id rfl rfl rfl
    · exact err_quiet s

theorem declareParams_quiet (ps : List Param) : Quiet s (declareParams ps s) := by
  induction ps generalizing s with
  | nil => exact .refl s
  | cons p ps ih => exact (declare_quiet s ..).trans (ih _)

theorem declareOut_quiet (out : Option Bytes) : Quiet s (declareOut out s) := by
  cases out with
  | none => exact .refl s
  | some name =>
    simp only [declareOut]
    split
    · exact .refl s
    · exact declare_quiet s ..

theorem exposeUse_quiet (p : Nat) : Quiet s (exposeUse p s) := by
  rw [exposeUse]
  split
  · exact expose_quiet s p
  · exact (expose_quiet s p).trans (.of_syms id rfl rfl rfl)

theorem checkUse_quiet (u : UseVar) : Quiet s (checkUse u s) := by
  rw [checkUse]
  split
  · exact err_quiet s
  · refine Quiet.trans ?_ (exposeUse_quiet _ _)
    split
    · exact setSym_quiet s _ _ fun _ h => h
    · exact .refl s

theorem checkUses_quiet (us : List UseVar) : Quiet s (checkUses us s) := by
  induction us generalizing s with
  | nil => exact .refl s
  | cons u us ih => exact (checkUse_quiet s u).trans (ih _)

theorem enterClosure_quiet (params : List Param) (uses : List UseVar) (ret : Option Ty) :
    Quiet s (enterClosure params uses ret s) := by
  refine Quiet.trans ?_ (checkUses_quiet _ uses)
  refine Quiet.trans ?_ (declareParams_quiet _ params)
  exact .of_syms id rfl rfl rfl

theorem checkSlots_quiet (sl : List Slot) : Quiet s (checkSlots sl s).2 := by
  induction sl generalizing s with
  | nil => exact .refl s
  | cons x sl ih =>
    cases x with
    | skip => exact ih s
    | other => exact (err_quiet s).trans (ih _)
    | var name =>
      simp only [checkSlots]
      split
      · exact ih s
      · exact (declare_quiet s ..).trans (ih _)

theorem finishAssign_quiet (op : AssignOp) (tt : Option Ty) (vt : Ty) :
    Quiet s (finishAssign op tt vt s).2 :=
  (errIf_quiet s _).trans (errIf_quiet _ _)

theorem globalSym_quiet (name : Bytes) : Quiet s (globalSym name s).2 := by
  simp only [globalSym]
  split
  · dsimp only
    split
    · exact .refl s
    · exact .of_syms id rfl rfl rfl
  · split
    · exact .refl s
    · exact append_quiet s _ id rfl rfl rfl

theorem exposeAlias_quiet (p : Nat) : Quiet s (exposeAlias p s) := by
  rw [exposeAlias]
  refine Quiet.trans ?_ (expose_quiet _ _)
  exact append_quiet s _ id rfl rfl rfl

theorem checkGlobal_quiet (name : Bytes) : Quiet s (checkGlobal name s) := by
  rw [checkGlobal]
  refine ((globalSym_quiet s name).trans ?_).trans (exposeAlias_quiet _ _)
  exact setSym_quiet _ _ _ fun _ h => h

theorem checkGlobals_quiet (names : List Bytes) : Quiet s (checkGlobals names s) := by
  induction names generalizing s with
  | nil => exact .refl s
  | cons name names ih => exact (checkGlobal_quiet s name).trans (ih _)

/-! ## steps -/

/-- a use that asks nothing of the state -/
def Use.isPlain : Use → Bool
  | .peek _ => true
  | .write _ => true
  | .nothing => true
  | _ => false

inductive Step : State → State → Prop
  | quiet {s t : State} : Quiet s t → Step s t
  | plain {s : State} (u : Use) : u.isPlain = true → Step s (s.note u)
  | read {s : State} (v : Ref) : (s.ok = true → ¬ s.moved v.sym) → Step s (s.note (.read v))
  | assign {s : State} (d : Ref) (w : Val) (how : How) :
      (∀ p, (Use.assign d w how).moves p → s.moved p) → Step s (s.note (.assign d w how))
  | borrow {s : State} (v : Ref) (isMut : Bool) (live : List Nat) :
      (s.ok = true → mutLoan s.loans v.sym = false ∧
        (isMut = true → sharedLoan s.loans v.sym = false)) →
      Step s { s.note (.borrow v isMut live) with loans := pushLoan s.loans ⟨v.sym, isMut⟩ }
  | release {s : State} : Step s s.release

abbrev Steps : State → State → Prop := ReflTransGen Step

variable {s} in
theorem Quiet.steps {t : State} (h : Quiet s t) : Steps s t := .single (.quiet h)

theorem Step.ok_of {s t : State} (h : Step s t) (ht : t.ok = true) : s.ok = true := by
  cases h with
  | quiet hq => exact hq.ok ht
  | plain u _ => exact ht
  | read v _ => exact ht
  | assign d w how _ => exact ht
  | borrow v isMut live _ => exact ht
  | release => exact ht

theorem Steps.ok_of {s t : State} (h : Steps s t) (ht : t.ok = true) : s.ok = true := by
  induction h with
  | refl => exact ht
  | tail _ hs ih => exact ih (hs.ok_of ht)

/-! ## the functions of the checker take steps -/

theorem checkVar_steps (name : Bytes) : Steps s (checkVar name s).2 := by
  rw [checkVar]
  split
  · exact (err_quiet s).steps.tail (.plain _ rfl)
  · rename_i p _
    have hq := (capture_quiet s p).trans (errIf_quiet _ (s.sym p).movedFrom)
    refine hq.steps.tail (.read _ ?_)
    intro hok hm
    have hsyms : ((s.capture p).errIf (s.sym p).movedFrom).syms = s.syms := by
      simp only [errIf, capture]
      split <;> rfl
    rw [State.moved, State.sym, hsyms] at hm
    have hf : (s.sym p).movedFrom = true := hm
    rw [errIf, hf] at hok
    simp at hok

theorem checkBorrow_steps (isMut : Bool) (operand : Expr) :
    Steps s (checkBorrow isMut operand s).2 := by
  cases operand with
  | var name =>
    simp only [checkBorrow]
    split
    · exact (err_quiet s).steps.tail (.plain _ rfl)
    · rename_i p _
      have hc := captureTop_quiet s p
      have hq := hc.trans (errIf_quiet _ (!borrowOk s.loans (s.sym p) p isMut))
      have hstep := Step.borrow (s := (s.captureTop p).errIf
        (!borrowOk s.loans (s.sym p) p isMut)) (s.refOf p) isMut
        (s.visible.map fun q => (s.sym q).uid) ?_
      · rw [hq.loans] at hstep
        exact hq.steps.tail hstep
      · intro hok
        rw [hq.loans]
        have hb : borrowOk s.loans (s.sym p) p isMut = true := by
          simp only [errIf, Bool.not_not, Bool.and_eq_true] at hok
          exact hok.2
        cases isMut <;> simp_all [borrowOk, refOf]
  | assign | store | destructure | borrow | closure | compact | other =>
    exact (err_quiet s).steps.tail (.plain _ rfl)

theorem find_lt {s : State} {name : Bytes} {p : Nat} (h : s.find name = some p) :
    p < s.syms.length := by
  have hn := List.find?_some h
  rw [named] at hn
  by_contra hp
  rw [List.getElem?_eq_none (Nat.le_of_not_lt hp)] at hn
  cases hn

theorem sourceOf_lt {e : Option Expr} {s : State} {p : Nat} (h : sourceOf e s = some p) :
    p < s.syms.length := by
  simp only [sourceOf] at h
  split at h
  · exact find_lt h
  · cases h

theorem notePeek_steps (op : AssignOp) (dst : Option Nat) : Steps s (notePeek op dst s) := by
  rw [notePeek]
  split
  · exact .refl
  · exact .single (.plain _ rfl)

theorem noteSet_steps (dst : Option Nat) (val : Val) (how : How)
    (hf : ∀ d p, (Use.assign d val how).moves p → s.moved p) :
    Steps s (noteSet dst val how s) := by
  cases dst with
  | none => exact .single (.plain _ rfl)
  | some d => exact .single (.assign _ _ _ (hf _))

theorem moves_other (d : Ref) (how : How) (p : Nat) : ¬ (Use.assign d .other how).moves p := by
  intro h
  obtain ⟨_, _, _, hu, _⟩ := h
  cases hu

theorem noteAssign_steps (op : AssignOp) (dst : Option Nat) (val : Val) (how : How)
    (hf : ∀ d p, (Use.assign d val how).moves p → s.moved p) :
    Steps s (noteAssign op dst val how s) := by
  refine (notePeek_steps s op dst).trans (noteSet_steps _ dst _ how ?_)
  intro d p hp
  have hm : s.moved p := by
    split at hp
    · exact hf d p hp
    · exact absurd hp (moves_other d how p)
  rw [notePeek]
  split
  · exact hm
  · exact hm

/-- the mark of a move: the symbol that an assignment marks, if any -/
theorem flag_steps (flag : Option Nat) (hf : ∀ p, flag = some p → p < s.syms.length) :
    Quiet s (flag.elim s s.move) ∧ ∀ p, flag = some p → (flag.elim s s.move).moved p := by
  cases flag with
  | none => exact ⟨.refl s, fun p h => by cases h⟩
  | some p =>
    refine ⟨move_quiet s p, ?_⟩
    intro q hq
    cases hq
    exact move_moved s (hf p rfl)

/-- the variable that a use takes the value from is the one that `scope_find` finds -/
theorem source_of_moves {value : Option Expr} {d : Ref} {how : How} {p : Nat}
    (h : (Use.assign d (valOf value s) how).moves p) :
    how.marks = true ∧ (s.sym p).ty.isOwn = true ∧
      ∃ x, value = some (.var x) ∧ s.find x = some p ∧ s.lookup x = some p := by
  obtain ⟨_, src, _, hu, hmarks, rfl⟩ := h
  injection hu with _ hval hhow
  subst hhow
  cases value with
  | none => cases hval
  | some e =>
    cases e with
    | var x =>
      cases hq : s.lookup x with
      | none =>
        simp only [valOf, hq] at hval
        cases hval
      | some q =>
        simp only [valOf, hq] at hval
        injection hval with hsrc hown hsc
        obtain ⟨q', hq'⟩ := Option.isSome_iff_exists.mp hsc
        have heq : q' = q := by
          rw [State.lookup, hq'] at hq
          exact Option.some.inj hq
        subst heq hsrc
        exact ⟨hmarks, hown, x, rfl, hq', hq⟩
    | borrow => cases hval
    | assign | store | destructure | closure | compact | other => cases hval

theorem Ty.isSmart_of_isOwn {t : Ty} (h : t.isOwn = true) : t.isSmart = true := by
  cases t <;> first | rfl | cases h

theorem assignVar_steps (name : Bytes) (op : AssignOp) (ann : Option Ty) (value : Option Expr)
    (vt : Ty) : Steps s (assignVar name op ann value vt s).2 := by
  simp only [assignVar]
  split
  · refine .trans ?_ (finishAssign_quiet _ op none vt).steps
    refine .trans ?_ (noteAssign_steps _ op _ _ .fresh fun d p h => ?_)
    · exact ((errIf_quiet s _).trans (declare_quiet _ ..)).steps
    · cases (source_of_moves s h).1
  · rename_i p _
    refine .trans ?_ (finishAssign_quiet _ op _ vt).steps
    refine (errIf_quiet s (!(s.sym p).isMut)).steps.trans ?_
    have hval : valOf value s = valOf value (s.errIf (!(s.sym p).isMut)) := rfl
    rw [hval]
    generalize s.errIf (!(s.sym p).isMut) = t
    have hf := flag_steps t (if (s.sym p).ty.isSmart then
      (sourceOf value t).filter fun q => (t.sym q).ty.isSmart else none) ?_
    · refine hf.1.steps.trans (noteAssign_steps _ op _ _ _ ?_)
      intro d q hm
      obtain ⟨hmarks, hown, x, rfl, hx, _⟩ := source_of_moves t hm
      have hsmart : (s.sym p).ty.isSmart = true := hmarks
      refine hf.2 q ?_
      simp [hsmart, sourceOf, hx, Ty.isSmart_of_isOwn hown]
    · intro q hq
      split at hq
      · exact sourceOf_lt (Option.filter_eq_some_iff.mp hq).1
      · cases hq

/-- a declaration hides no variable of another name -/
theorem find_declare {s : State} {x name : Bytes} {p : Nat} (ty : Ty) (isMut : Bool)
    (hx : s.find x = some p) (hne : x ≠ name) :
    (s.declare name ty isMut).2.find x = some p := by
  rw [declare]
  split
  · exact hx
  · rename_i sc rest hsc
    split
    · have hnamed : ∀ q, State.named { s with
          syms := s.syms ++ [⟨name, ty, isMut, s.uids, sc.seq, false, false, false⟩]
          uids := s.uids + 1
          scopes := { sc with vars := s.syms.length :: sc.vars } :: rest } x q =
            s.named x q := by
        intro q
        rw [named, named]
        rcases Nat.lt_trichotomy q s.syms.length with hlt | rfl | hgt
        · rw [List.getElem?_append_left hlt]
        · simp [hne.symm]
        · rw [List.getElem?_eq_none (Nat.le_of_lt hgt), List.getElem?_eq_none]
          rw [List.length_append]
          exact hgt
      rw [State.find] at hx ⊢
      rw [funext hnamed, visible, List.flatMap_cons, List.cons_append, List.find?_cons]
      have hnew : s.named x s.syms.length = false := by
        rw [named, List.getElem?_eq_none (Nat.le_refl _)]
        rfl
      rw [hnew]
      rw [visible, hsc, List.flatMap_cons] at hx
      exact hx
    · exact hx

theorem checkLet_steps (name : Bytes) (isMut : Bool) (ann : Option Ty) (init : Expr) (it : Ty)
    (hit : ∀ x p, init = .var x → s.lookup x = some p → it = (s.sym p).ty) :
    Steps s (checkLet name isMut ann init it s) := by
  have hd := (errIf_quiet s (ann.any fun a => !typesCompatible a it && !a.isMixed)).trans
    (declare_quiet _ name (ann.getD it) isMut)
  refine hd.steps.trans ?_
  rw [checkLet]
  have hf := flag_steps
    ((s.errIf (ann.any fun a => !typesCompatible a it && !a.isMixed)).declare name (ann.getD it)
      isMut).2
    (if it.isSmart && !isMut then sourceOf (some init)
      ((s.errIf (ann.any fun a => !typesCompatible a it && !a.isMixed)).declare name
        (ann.getD it) isMut).2 else none) ?_
  · refine hf.1.steps.trans (noteAssign_steps _ .eq _ _ _ ?_)
    intro d q hm
    obtain ⟨hmarks, hown, x, hinit, hx, hl⟩ := source_of_moves s hm
    cases hinit
    obtain ⟨hmut, hne⟩ := Bool.and_eq_true_iff.mp hmarks
    have hsmart : it.isSmart = true := hit x q rfl hl ▸ Ty.isSmart_of_isOwn hown
    have hxn : x ≠ name := by simpa [isVar] using hne
    refine hf.2 q ?_
    rw [if_pos (by rw [hsmart, hmut]; rfl)]
    exact find_declare _ _ hx hxn
  · intro q hq
    split at hq
    · exact sourceOf_lt hq
    · cases hq

theorem writeOut_steps (out : Option Bytes) : Steps s (writeOut out s) := by
  cases out with
  | none => exact .refl
  | some name => exact .single (.plain _ rfl)

theorem declareIter_steps (t : Ty) (var : Bytes) (kvar : Option Bytes) :
    Steps s (declareIter t var kvar s) := by
  have hd := ((errIf_quiet s (iterTys t).isNone).trans (push_quiet _)).trans
    (declare_quiet _ var ((iterTys t).getD (.mixed, .mixed)).1 false)
  cases kvar with
  | none => exact hd.steps.tail (.plain _ rfl)
  | some k => exact (hd.trans (declare_quiet ..)).steps.tail (.plain _ rfl)

theorem declareCatch_steps (ty : Ty) (var : Bytes) : Steps s (declareCatch ty var s) :=
  ((push_quiet s).trans (declare_quiet ..)).steps.tail (.plain _ rfl)

theorem leaveClosure_steps (s' : State) : Steps s' (leaveClosure s s') := by
  refine .tail (Quiet.steps ?_) (.plain _ rfl)
  exact .of_syms id rfl rfl rfl

theorem lookup_congr {s t : State} (hsyms : t.syms = s.syms) (hscopes : t.scopes = s.scopes)
    (hglobals : t.globals = s.globals) (x : Bytes) : t.lookup x = s.lookup x := by
  have hn : t.named x = s.named x := funext fun p => by rw [named, named, hsyms]
  rw [lookup, lookup, State.find, State.find, globalFind, globalFind, visible, visible, hn,
    hscopes, hglobals]

/-- the type of a variable is that of its symbol, also after the check -/
theorem checkExpr_var (e : Expr) (x : Bytes) (p : Nat) (he : e = .var x)
    (hp : (checkExpr e s).2.lookup x = some p) :
    (checkExpr e s).1 = ((checkExpr e s).2.sym p).ty := by
  subst he
  have hsame : (checkVar x s).2.syms = s.syms ∧ (checkVar x s).2.scopes = s.scopes ∧
      (checkVar x s).2.globals = s.globals := by
    rw [checkVar]
    split
    · exact ⟨rfl, rfl, rfl⟩
    · simp only [note, errIf, capture]
      split <;> exact ⟨rfl, rfl, rfl⟩
  have hl : s.lookup x = some p := by
    rw [← lookup_congr hsame.1 hsame.2.1 hsame.2.2 x]
    exact hp
  have hsym : (checkVar x s).2.sym p = s.sym p := by rw [State.sym, State.sym, hsame.1]
  show (checkVar x s).1 = ((checkVar x s).2.sym p).ty
  rw [hsym, checkVar, hl]

mutual

theorem checkExpr_steps : (e : Expr) → (s : State) → Steps s (checkExpr e s).2
  | .var name, s => checkVar_steps s name
  | .assign name op ann value, s => (checkOpt_steps value s).trans (assignVar_steps _ name op ann ..)
  | .store kind target op value, s => by
    have h := (checkExpr_steps value s).trans (checkExpr_steps target (checkExpr value s).2)
    cases kind with
    | index => exact h.trans (finishAssign_quiet ..).steps
    | field => exact h.trans (finishAssign_quiet ..).steps
    | other => exact h.trans ((err_quiet _).trans (finishAssign_quiet ..)).steps
  | .destructure keys slots value, s => by
    refine .tail (((checkExpr_steps value s).trans (checkExprs_steps keys _)).trans
      (checkSlots_quiet _ slots).steps) ?_
    exact .plain _ rfl
  | .borrow isMut operand, s => checkBorrow_steps s isMut operand
  | .closure params uses ret body, s => by
    simp only [checkExpr]
    split
    · exact ((enterClosure_quiet s params uses ret).steps.trans (checkStmts_steps body _)).trans
        (leaveClosure_steps s _)
    · exact (err_quiet s).steps
  | .compact dropped names, s => (checkExprs_steps dropped s).tail (.plain _ rfl)
  | .other out parts ty ok, s =>
    ((declareOut_quiet s out).steps.trans (checkParts_steps parts _)).trans
      ((errIf_quiet _ _).steps.trans (writeOut_steps _ out))

theorem checkOpt_steps : (e : Option Expr) → (s : State) → Steps s (checkOpt e s).2
  | none, _ => .refl
  | some e, s => checkExpr_steps e s

theorem checkExprs_steps : (es : List Expr) → (s : State) → Steps s (checkExprs es s)
  | [], _ => .refl
  | e :: es, s => (checkExpr_steps e s).trans (checkExprs_steps es _)

theorem checkParts_steps : (ps : List Part) → (s : State) → Steps s (checkParts ps s)
  | [], _ => .refl
  | .mk _ e :: ps, s => (checkExpr_steps e s).trans (checkParts_steps ps _)

theorem checkStmt_steps : (st : Stmt) → (s : State) → Steps s (checkStmt st s)
  | .expr e, s => checkExpr_steps e s
  | .global names, s => (checkGlobals_quiet s names).steps
  | .let_ name isMut ann init, s =>
    (checkExpr_steps init s).trans (checkLet_steps _ name isMut ann init _ (checkExpr_var s init))
  | .return_ value, s => (checkOpt_steps value s).trans (errIf_quiet ..).steps
  | .echo es, s => checkExprs_steps es s
  | .print e, s => checkExpr_steps e s
  | .if_ c t e, s =>
    ((checkExpr_steps c s).trans (errIf_quiet ..).steps).trans
      ((checkBlock_steps t _).trans (checkBlock_steps e _))
  | .while_ c b, s =>
    ((checkExpr_steps c s).trans ((errIf_quiet ..).trans (enterLoop_quiet _)).steps).trans
      ((checkBlock_steps b _).trans (leaveLoop_quiet _).steps)
  | .do_ b c, s =>
    ((enterLoop_quiet s).steps.trans ((checkBlock_steps b _).trans (leaveLoop_quiet _).steps)).trans
      ((checkExpr_steps c _).trans (errIf_quiet ..).steps)
  | .switch_ c cases, s =>
    ((checkExpr_steps c s).trans ((errIf_quiet ..).trans (enterLoop_quiet _)).steps).trans
      ((checkCases_steps cases _ _).trans (leaveLoop_quiet _).steps)
  | .for_ init cond step body, s =>
    (((checkStmts_steps init s).trans (checkOpt_steps cond _)).trans (errIf_quiet ..).steps).trans
      (((checkStmts_steps step _).trans (enterLoop_quiet _).steps).trans
        ((checkBlock_steps body _).trans (leaveLoop_quiet _).steps))
  | .foreach_ iter var kvar body, s =>
    ((checkExpr_steps iter s).trans (declareIter_steps ..)).trans
      (((enterLoop_quiet _).steps.trans (checkBlock_steps body _)).trans
        ((leaveLoop_quiet _).trans (pop_quiet _)).steps)
  | .break_, s => (errIf_quiet s _).steps
  | .continue_, s => (errIf_quiet s _).steps
  | .block b, s =>
    ((push_quiet s).steps.trans (checkBlock_steps b _)).trans (pop_quiet _).steps
  | .unsafeBlock b, s =>
    ((push_quiet s).steps.trans (checkBlock_steps b _)).trans (pop_quiet _).steps
  | .try_ body catches fin, s => by
    have h := (checkBlock_steps body s).trans (checkCatches_steps catches _)
    simp only [checkStmt]
    split
    · exact h
    · exact h.trans (checkBlock_steps fin _)
  | .throw_ e, s => (checkExpr_steps e s).trans (errIf_quiet ..).steps

theorem checkStmts_steps : (sts : List Stmt) → (s : State) → Steps s (checkStmts sts s)
  | [], _ => .refl
  | st :: sts, s => (checkStmt_steps st s).trans (checkStmts_steps sts _)

theorem checkBlock_steps : (sts : List Stmt) → (s : State) → Steps s (checkBlock sts s)
  | [], _ => .single .release
  | st :: sts, s => (checkStmt_steps st s).trans (checkBlock_steps sts _)

theorem checkPatterns_steps : (es : List Expr) → (ct : Ty) → (s : State) →
    Steps s (checkPatterns es ct s)
  | [], _, _ => .refl
  | e :: es, ct, s =>
    ((checkExpr_steps e s).trans (errIf_quiet ..).steps).trans (checkPatterns_steps es ct _)

theorem checkCases_steps : (cs : List Case) → (ct : Ty) → (s : State) →
    Steps s (checkCases cs ct s)
  | [], _, _ => .refl
  | .mk pats body :: cs, ct, s =>
    ((checkPatterns_steps pats ct s).trans (checkBlock_steps body _)).trans
      (checkCases_steps cs ct _)

theorem checkCatches_steps : (cs : List Catch) → (s : State) → Steps s (checkCatches cs s)
  | [], _ => .refl
  | .mk ty var body :: cs, s =>
    ((declareCatch_steps s ty var).trans (checkBlock_steps body _)).trans
      ((pop_quiet _).steps.trans (checkCatches_steps cs _))

end

/-! ## what holds of the log -/

/-- the table of the loans and the marks are those of the log, and without an error all is good -/
structure LogInv (start : List Loan) (s : State) : Prop where
  loans : s.loans = loansOf start s.log
  moved : ∀ u ∈ s.log, ∀ p, u.moves p → s.moved p
  good : s.ok = true → AllGood start s.log

theorem loansOf_snoc (start : List Loan) (log : List Use) (u : Use) :
    loansOf start (log ++ [u]) = loanStep (loansOf start log) u := by
  simp [loansOf, List.foldl_append]

/-- one more use in the log -/
theorem LogInv.snoc {start : List Loan} {s t : State} {u : Use} (h : LogInv start s)
    (hok : t.ok = s.ok) (hlog : t.log = s.log ++ [u]) (hsyms : t.syms = s.syms)
    (hloans : t.loans = loanStep s.loans u) (hmoved : ∀ p, u.moves p → s.moved p)
    (hgood : s.ok = true → Good start s.log u) : LogInv start t := by
  have hm : ∀ p, s.moved p → t.moved p := fun p hp => by rwa [State.moved, State.sym, hsyms]
  refine ⟨?_, ?_, ?_⟩
  · rw [hlog, loansOf_snoc, hloans, h.loans]
  · intro v hv p hp
    rw [hlog] at hv
    rcases List.mem_append.mp hv with hv | hv
    · exact hm p (h.moved v hv p hp)
    · exact hm p (hmoved p (List.mem_singleton.mp hv ▸ hp))
  · intro ht
    rw [hok] at ht
    rw [hlog]
    exact (h.good ht).snoc (hgood ht)

theorem LogInv.step {start : List Loan} {s t : State} (h : LogInv start s) (hs : Step s t) :
    LogInv start t := by
  cases hs with
  | quiet hq =>
    refine ⟨?_, ?_, ?_⟩
    · rw [hq.loans, hq.log, h.loans]
    · intro u hu p hp
      rw [hq.log] at hu
      exact hq.moved p (h.moved u hu p hp)
    · intro ht
      rw [hq.log]
      exact h.good (hq.ok ht)
  | plain u hu =>
    refine h.snoc rfl rfl rfl ?_ ?_ ?_
    · cases u <;> first | rfl | cases hu
    · intro p hp
      obtain ⟨_, _, _, rfl, _⟩ := hp
      cases hu
    · intro _
      cases u <;> trivial
  | read v hv =>
    refine h.snoc rfl rfl rfl rfl ?_ ?_
    · intro p hp
      obtain ⟨_, _, _, hu, _⟩ := hp
      cases hu
    · intro hok u hu hm
      exact hv hok (h.moved u hu _ hm)
  | assign d w how hm => exact h.snoc rfl rfl rfl rfl hm fun _ => trivial
  | borrow v isMut live hb =>
    refine h.snoc rfl rfl rfl rfl ?_ ?_
    · intro p hp
      obtain ⟨_, _, _, hu, _⟩ := hp
      cases hu
    · intro hok
      have hb' := hb hok
      rw [h.loans] at hb'
      exact hb'
  | release =>
    refine h.snoc rfl rfl rfl rfl ?_ fun _ => trivial
    intro p hp
    obtain ⟨_, _, _, hu, _⟩ := hp
    cases hu

theorem LogInv.steps {start : List Loan} {s t : State} (h : LogInv start s) (hs : Steps s t) :
    LogInv start t := by
  induction hs with
  | refl => exact h
  | tail _ hst ih => exact ih.step hst

theorem checkFnBody_steps (parent : List Scope) (fn : Fn) :
    Steps (enterFn parent fn s) (checkFnBody parent fn s) :=
  (declareParams_quiet _ fn.params).steps.trans (checkStmts_steps fn.body _)

/-- **In the log of an accepted body every use is good.** -/
theorem checkFnBody_good (parent : List Scope) (fn : Fn)
    (h : (checkFnBody parent fn s).ok = true) :
    AllGood s.loans (checkFnBody parent fn s).log := by
  have hinv : LogInv s.loans (enterFn parent fn s) :=
    ⟨rfl, fun _ hu => (by cases hu), fun _ => .nil _⟩
  exact (hinv.steps (checkFnBody_steps s parent fn)).good h

/-! ## the log has the places of the code -/

theorem Quiet.length {s t : State} (h : Quiet s t) : t.log.length = s.log.length := by rw [h.log]

@[simp] theorem note_length (u : Use) : (s.note u).log.length = s.log.length + 1 :=
  List.length_append

@[simp] theorem release_length : s.release.log.length = s.log.length + 1 := List.length_append

theorem checkVar_length (name : Bytes) : (checkVar name s).2.log.length = s.log.length + 1 := by
  rw [checkVar]
  split
  · exact note_length ..
  · rename_i p _
    rw [note_length, ((capture_quiet s p).trans (errIf_quiet _ _)).length]

theorem checkBorrow_length (isMut : Bool) (operand : Expr) :
    (checkBorrow isMut operand s).2.log.length = s.log.length + 1 := by
  cases operand with
  | var name =>
    simp only [checkBorrow]
    split
    · exact note_length ..
    · rename_i p _
      exact (note_length ..).trans (congrArg (· + 1)
        ((captureTop_quiet s p).trans (errIf_quiet _ _)).length)
  | assign | store | destructure | borrow | closure | compact | other => exact note_length ..

theorem noteSet_length (dst : Option Nat) (val : Val) (how : How) :
    (noteSet dst val how s).log.length = s.log.length + 1 := by
  cases dst <;> exact note_length ..

theorem noteAssign_length (op : AssignOp) (dst : Option Nat) (val : Val) (how : How) :
    (noteAssign op dst val how s).log.length =
      s.log.length + if op = .eq then 1 else 2 := by
  rw [noteAssign, noteSet_length, notePeek]
  split
  · rfl
  · rw [note_length]

theorem flag_length (flag : Option Nat) :
    (flag.elim s s.move).log.length = s.log.length := by
  cases flag <;> rfl

theorem assignVar_length (name : Bytes) (op : AssignOp) (ann : Option Ty) (value : Option Expr)
    (vt : Ty) : (assignVar name op ann value vt s).2.log.length =
      s.log.length + if op = .eq then 1 else 2 := by
  simp only [assignVar]
  split
  · rw [(finishAssign_quiet ..).length, noteAssign_length, (declare_quiet ..).length]
    rfl
  · rw [(finishAssign_quiet ..).length, noteAssign_length, flag_length]
    rfl

theorem checkLet_length (name : Bytes) (isMut : Bool) (ann : Option Ty) (init : Expr) (it : Ty) :
    (checkLet name isMut ann init it s).log.length = s.log.length + 1 := by
  rw [checkLet, noteAssign_length, flag_length, (declare_quiet ..).length]
  rfl

theorem writeOut_length (out : Option Bytes) :
    (writeOut out s).log.length = s.log.length + if out.isSome then 1 else 0 := by
  cases out with
  | none => rfl
  | some name => exact note_length ..

theorem declareIter_length (t : Ty) (var : Bytes) (kvar : Option Bytes) :
    (declareIter t var kvar s).log.length = s.log.length + 1 := by
  refine (note_length ..).trans (congrArg (· + 1) ?_)
  cases kvar with
  | none => exact (declare_quiet ..).length
  | some k =>
    simp only [Option.elim_some]
    rw [(declare_quiet ..).length, (declare_quiet ..).length]
    rfl

theorem declareCatch_length (ty : Ty) (var : Bytes) :
    (declareCatch ty var s).log.length = s.log.length + 1 :=
  (note_length ..).trans (congrArg (· + 1) (declare_quiet ..).length)

theorem leaveClosure_length (s' : State) :
    (leaveClosure s s').log.length = s'.log.length + 1 := note_length ..

mutual

theorem checkExpr_length : (e : Expr) → (s : State) → (checkExpr e s).2.ok = true →
    (checkExpr e s).2.log.length = (codeExpr e s.log.length).2
  | .var name, s, _ => checkVar_length s name
  | .assign name op ann value, s, h => by
    have hv := checkOpt_length value s ((assignVar_steps ..).ok_of h)
    simp only [checkExpr, codeExpr, assignVar_length, hv]
    split
    · rfl
    · split <;> rfl
  | .store kind target op value, s, h => by
    have hok : (checkExpr target (checkExpr value s).2).2.ok = true := by
      cases kind with
      | index => exact (finishAssign_quiet ..).ok h
      | field => exact (finishAssign_quiet ..).ok h
      | other => exact (err_quiet _).ok ((finishAssign_quiet ..).ok h)
    have hv := checkExpr_length value s ((checkExpr_steps target _).ok_of hok)
    have ht := checkExpr_length target _ hok
    rw [hv] at ht
    have hl : (checkExpr (.store kind target op value) s).2.log.length =
        (checkExpr target (checkExpr value s).2).2.log.length := by
      cases kind with
      | index => exact (finishAssign_quiet ..).length
      | field => exact (finishAssign_quiet ..).length
      | other => exact (finishAssign_quiet ..).length
    rw [hl, ht]
    simp only [codeExpr]
    split <;> rfl
  | .destructure keys slots value, s, h => by
    have hk : (checkExprs keys (checkExpr value s).2).ok = true :=
      (checkSlots_quiet _ slots).ok h
    have hv := checkExpr_length value s ((checkExprs_steps keys _).ok_of hk)
    have hks := checkExprs_length keys _ hk
    rw [hv] at hks
    simp only [checkExpr, codeExpr, note_length, (checkSlots_quiet _ slots).length, hks]
  | .borrow isMut operand, s, _ => checkBorrow_length s isMut operand
  | .closure params uses ret body, s, h => by
    simp only [checkExpr] at h ⊢
    split
    · rename_i hlt
      rw [if_pos hlt] at h
      have hb := checkStmts_length body _ ((leaveClosure_steps s _).ok_of h)
      rw [(enterClosure_quiet s params uses ret).length] at hb
      rw [leaveClosure_length, hb]
      rfl
    · rename_i hlt
      rw [if_neg hlt] at h
      cases h
  | .compact dropped names, s, h => by
    have hd := checkExprs_length dropped s h
    simp only [checkExpr, codeExpr, note_length, hd]
  | .other out parts ty ok, s, h => by
    have he := (writeOut_steps _ out).ok_of h
    have hp := checkParts_length parts _ ((errIf_quiet _ _).ok he)
    rw [(declareOut_quiet s out).length] at hp
    simp only [checkExpr, codeExpr, writeOut_length, (errIf_quiet _ _).length, hp]
    split <;> rfl

theorem checkOpt_length : (e : Option Expr) → (s : State) → (checkOpt e s).2.ok = true →
    (checkOpt e s).2.log.length = (codeOpt e s.log.length).2
  | none, _, _ => rfl
  | some e, s, h => checkExpr_length e s h

theorem checkExprs_length : (es : List Expr) → (s : State) → (checkExprs es s).ok = true →
    (checkExprs es s).log.length = (codeExprs es s.log.length).2
  | [], _, _ => rfl
  | e :: es, s, h => by
    have he := checkExpr_length e s ((checkExprs_steps es _).ok_of h)
    have hes := checkExprs_length es _ h
    rwa [he] at hes

theorem checkParts_length : (ps : List Part) → (s : State) → (checkParts ps s).ok = true →
    (checkParts ps s).log.length = (codeParts ps s.log.length).2
  | [], _, _ => rfl
  | .mk _ e :: ps, s, h => by
    have he := checkExpr_length e s ((checkParts_steps ps _).ok_of h)
    have hps := checkParts_length ps _ h
    rwa [he] at hps

theorem checkStmt_length : (st : Stmt) → (s : State) → (checkStmt st s).ok = true →
    (checkStmt st s).log.length = (codeStmt st s.log.length).2
  | .expr e, s, h => checkExpr_length e s h
  | .global names, s, _ => (checkGlobals_quiet s names).length
  | .let_ name isMut ann init, s, h => by
    have hl := checkLet_steps _ name isMut ann init _ (checkExpr_var s init)
    have hi := checkExpr_length init s (hl.ok_of h)
    simp only [checkStmt, codeStmt, checkLet_length, hi]
  | .return_ value, s, h => by
    have hv := checkOpt_length value s ((errIf_quiet ..).ok h)
    simp only [checkStmt, codeStmt, (errIf_quiet ..).length, hv]
  | .echo es, s, h => checkExprs_length es s h
  | .print e, s, h => checkExpr_length e s h
  | .if_ c t e, s, h => by
    have h1 := (checkBlock_steps e _).ok_of h
    have h2 := (checkBlock_steps t _).ok_of h1
    have hc := checkExpr_length c s ((errIf_quiet ..).ok h2)
    have ht := checkBlock_length t _ h1
    have he := checkBlock_length e _ h
    rw [ht, (errIf_quiet ..).length, hc] at he
    exact he
  | .while_ c b, s, h => by
    have h1 := (leaveLoop_quiet _).ok h
    have h2 := (checkBlock_steps b _).ok_of h1
    have hc := checkExpr_length c s (((errIf_quiet ..).trans (enterLoop_quiet _)).ok h2)
    have hb := checkBlock_length b _ h1
    rw [((errIf_quiet ..).trans (enterLoop_quiet _)).length, hc] at hb
    exact hb
  | .do_ b c, s, h => by
    have h1 := (errIf_quiet ..).ok h
    have h2 := (leaveLoop_quiet _).ok ((checkExpr_steps c _).ok_of h1)
    have hb := checkBlock_length b _ h2
    have hc := checkExpr_length c _ h1
    rw [(leaveLoop_quiet _).length, hb] at hc
    exact hc
  | .switch_ c cases, s, h => by
    have h1 := (leaveLoop_quiet _).ok h
    have h2 := (checkCases_steps cases _ _).ok_of h1
    have hc := checkExpr_length c s (((errIf_quiet ..).trans (enterLoop_quiet _)).ok h2)
    have hs := checkCases_length cases _ _ h1
    rw [((errIf_quiet ..).trans (enterLoop_quiet _)).length, hc] at hs
    exact hs
  | .for_ init cond step body, s, h => by
    have h1 := (leaveLoop_quiet _).ok h
    have h2 := (enterLoop_quiet _).ok ((checkBlock_steps body _).ok_of h1)
    have h3 := (errIf_quiet ..).ok ((checkStmts_steps step _).ok_of h2)
    have hi := checkStmts_length init s ((checkOpt_steps cond _).ok_of h3)
    have hc := checkOpt_length cond _ h3
    have hs := checkStmts_length step _ h2
    have hb := checkBlock_length body _ h1
    rw [(enterLoop_quiet _).length, hs, (errIf_quiet ..).length, hc, hi] at hb
    exact hb
  | .foreach_ iter var kvar body, s, h => by
    have h1 := (leaveLoop_quiet _).ok ((pop_quiet _).ok h)
    have h2 := (enterLoop_quiet _).ok ((checkBlock_steps body _).ok_of h1)
    have hi := checkExpr_length iter s ((declareIter_steps ..).ok_of h2)
    have hb := checkBlock_length body _ h1
    rw [(enterLoop_quiet _).length, declareIter_length, hi] at hb
    exact hb
  | .break_, _, _ => rfl
  | .continue_, _, _ => rfl
  | .block b, s, h => checkBlock_length b s.push h
  | .unsafeBlock b, s, h => checkBlock_length b s.push h
  | .try_ body catches fin, s, h => by
    simp only [checkStmt] at h ⊢
    have hc : (checkCatches catches (checkBlock body s)).ok = true := by
      split at h
      · exact h
      · exact (checkBlock_steps fin _).ok_of h
    have hb := checkBlock_length body s ((checkCatches_steps catches _).ok_of hc)
    have hh := checkCatches_length catches _ hc
    rw [hb] at hh
    simp only [codeStmt]
    split
    · exact hh
    · rename_i hf
      rw [if_neg hf] at h
      have hfin := checkBlock_length fin _ h
      rwa [hh] at hfin
  | .throw_ e, s, h => checkExpr_length e s ((errIf_quiet ..).ok h)

theorem checkStmts_length : (sts : List Stmt) → (s : State) → (checkStmts sts s).ok = true →
    (checkStmts sts s).log.length = (codeStmts sts s.log.length).2
  | [], _, _ => rfl
  | st :: sts, s, h => by
    have hst := checkStmt_length st s ((checkStmts_steps sts _).ok_of h)
    have hsts := checkStmts_length sts _ h
    rwa [hst] at hsts

theorem checkBlock_length : (sts : List Stmt) → (s : State) → (checkBlock sts s).ok = true →
    (checkBlock sts s).log.length = (codeBlock sts s.log.length).2
  | [], s, _ => release_length s
  | st :: sts, s, h => by
    have hst := checkStmt_length st s ((checkBlock_steps sts _).ok_of h)
    have hsts := checkBlock_length sts _ h
    rwa [hst] at hsts

theorem checkPatterns_length : (es : List Expr) → (ct : Ty) → (s : State) →
    (checkPatterns es ct s).ok = true →
    (checkPatterns es ct s).log.length = (codeExprs es s.log.length).2
  | [], _, _, _ => rfl
  | e :: es, ct, s, h => by
    have he := checkExpr_length e s ((errIf_quiet ..).ok ((checkPatterns_steps es ct _).ok_of h))
    have hes := checkPatterns_length es ct _ h
    rw [(errIf_quiet ..).length, he] at hes
    exact hes

theorem checkCases_length : (cs : List Case) → (ct : Ty) → (s : State) →
    (checkCases cs ct s).ok = true →
    (checkCases cs ct s).log.length = (codeCases cs s.log.length).2
  | [], _, _, _ => rfl
  | .mk pats body :: cs, ct, s, h => by
    have h1 := (checkCases_steps cs ct _).ok_of h
    have hp := checkPatterns_length pats ct s ((checkBlock_steps body _).ok_of h1)
    have hb := checkBlock_length body _ h1
    have hc := checkCases_length cs ct _ h
    rw [hb, hp] at hc
    exact hc

theorem checkCatches_length : (cs : List Catch) → (s : State) → (checkCatches cs s).ok = true →
    (checkCatches cs s).log.length = (codeCatches cs s.log.length).2
  | [], _, _ => rfl
  | .mk ty var body :: cs, s, h => by
    have h1 := (pop_quiet _).ok ((checkCatches_steps cs _).ok_of h)
    have hb := checkBlock_length body _ h1
    have hc := checkCatches_length cs _ h
    rw [(pop_quiet _).length, hb, declareCatch_length] at hc
    exact hc

end

/-- **An accepted body has as many uses in its log as its code has places.** -/
theorem checkFnBody_length (parent : List Scope) (fn : Fn)
    (h : (checkFnBody parent fn s).ok = true) :
    (checkFnBody parent fn s).log.length = (codeStmts fn.body 0).2 := by
  have hl := checkStmts_length fn.body _ h
  rw [(declareParams_quiet _ fn.params).length] at hl
  exact hl

end Sema
end HolyPhp
