import Mathlib.Data.List.Nodup
import HolyPhp.Lib.Exits
import HolyPhp.Runtime.Value

/-!
# `switch`

* `SwitchCase`           a label, or `default`, and what stands there;
* `caseLabels`, `CInt`   the `switch` of C that is emitted for integers;
* `ifChain`, `CStr`      the chain in `do { .. } while (0)` that is emitted for strings;
* `runInt`, `runStr`     what these run;
* `switch_iff`           **when both run the same.**
-/

set_option autoImplicit false

namespace HolyPhp
namespace Switch
open Exits

/-! ## the statement -/

/-- how a body is left; `cont` is a `continue` that belongs to no loop in the body -/
inductive Exit (ε : Type) where
  | next
  | brk
  | cont
  | leave (e : ε)

def Exit.goes {ε : Type} : Exit ε → Bool
  | .next => true
  | _ => false

/-- the statements of a case, one at least -/
structure Body (σ ε : Type) where
  run : σ → σ × Exit ε
  continues : Bool
  continues_of_cont : ∀ s, (run s).2 = .cont → continues = true

/-- The parser gives one pattern to a `case`, and none to `default`. -/
structure SwitchCase (α σ ε : Type) where
  label : Option α
  body : Option (Body σ ε)

/-- where the C stands: `hp_cont_l` is the label of a loop around, `loop` says that there is a loop
of C around -/
structure Context where
  label : Bool
  loop : Bool

section
variable {α β σ ε : Type} [DecidableEq α] [DecidableEq β]

def SwitchCase.rename (f : α → β) (c : SwitchCase α σ ε) : SwitchCase β σ ε :=
  ⟨c.label.map f, c.body⟩

def SwitchCase.continues (c : SwitchCase α σ ε) : Bool := c.body.any Body.continues

/-! ## what runs -/

/-- the bodies that have been run, and the state -/
abbrev Trace (σ ε : Type) : Type := List (Body σ ε) × σ

def start : Option (Body σ ε) → Trace σ ε → Trace σ ε × Exit ε
  | none, st => (st, .next)
  | some b, (t, s) => ((t ++ [b], (b.run s).1), (b.run s).2)

def starts (bodies : List (Option (Body σ ε))) : Trace σ ε → Trace σ ε × Exit ε :=
  runAll Exit.goes .next (bodies.map start)

/-! ## integers -/

/-- `switch (..) { case p: .. default: .. }` -/
structure CInt (α σ ε : Type) where
  cases : List (SwitchCase α σ ε)

def caseLabels (cases : List (SwitchCase α σ ε)) : CInt α σ ε := ⟨cases⟩

namespace CInt

/-- no label twice, and a `continue;` has a loop -/
def legal (k : Context) (c : CInt α σ ε) : Bool :=
  decide (c.cases.map SwitchCase.label).Nodup &&
    (k.label || k.loop || c.cases.all fun c => !c.continues)

/-- the bodies from the label of the value on, or from `default` on -/
def jump (c : CInt α σ ε) (v : α) : List (Option (Body σ ε)) :=
  match c.cases.dropWhile fun c => decide (c.label ≠ some v) with
  | [] => (c.cases.dropWhile fun c => c.label.isSome).map SwitchCase.body
  | l => l.map SwitchCase.body

/-- a `continue` goes to the loop around -/
def endSwitch : Trace σ ε × Exit ε → Trace σ ε × Exit ε
  | (st, .brk) => (st, .next)
  | r => r

/-- `none`: a C compiler refuses it -/
def run (k : Context) (c : CInt α σ ε) (v : α) (s : σ) : Option (Trace σ ε × Exit ε) :=
  if c.legal k then some (endSwitch (starts (c.jump v) ([], s))) else none

end CInt

/-! ## strings -/

inductive CItem (α σ ε : Type) where
  /-- `if (hp_str_eq(hp_sw_v, p)) { .. break; }` -/
  | test (p : α) (body : Option (Body σ ε))
  | plain (body : Option (Body σ ε))

/-- `do { hstr *hp_sw_v = ..; .. } while (0);` -/
structure CStr (α σ ε : Type) where
  items : List (CItem α σ ε)

/-- the cases, and then the bodies of `default` -/
def ifChain (cases : List (SwitchCase α σ ε)) : CStr α σ ε :=
  ⟨(cases.filterMap fun c => c.label.map fun p => .test p c.body) ++
    (cases.filter fun c => c.label.isNone).map fun c => .plain c.body⟩

/-- `break;` after the body -/
def thenBreak : Trace σ ε × Exit ε → Trace σ ε × Exit ε
  | (st, .next) => (st, .brk)
  | r => r

def CItem.run (v : α) : CItem α σ ε → Trace σ ε → Trace σ ε × Exit ε
  | .test p b => fun st => if v = p then thenBreak (start b st) else (st, .next)
  | .plain b => start b

namespace CStr

/-- `continue;` leads to the test, and so out -/
def endOnce (k : Context) : Trace σ ε × Exit ε → Trace σ ε × Exit ε
  | (st, .brk) => (st, .next)
  | (st, .cont) => (st, if k.label then .cont else .next)
  | r => r

def run (k : Context) (c : CStr α σ ε) (v : α) (s : σ) : Trace σ ε × Exit ε :=
  endOnce k (runAll Exit.goes .next (c.items.map (CItem.run v)) ([], s))

end CStr

def runInt (k : Context) (cases : List (SwitchCase α σ ε)) (v : α) (s : σ) :
    Option (Trace σ ε × Exit ε) :=
  (caseLabels cases).run k v s

def runStr (k : Context) (cases : List (SwitchCase α σ ε)) (v : α) (s : σ) : Trace σ ε × Exit ε :=
  (ifChain cases).run k v s

/-! ## when both are one -/

/-- The body that is entered first is the last one that there is, or leaves the switch; a
`continue` in it has a loop in the source. -/
def Stops (k : Context) (s : σ) : List (Option (Body σ ε)) → Prop
  | [] => True
  | b :: bs =>
    ((start b ([], s)).2.goes = true → ∀ b' ∈ bs, b' = none) ∧
      ((start b ([], s)).2 = .cont → k.label = true)

/-! ### runs of bodies -/

variable {k : Context} {b : Option (Body σ ε)} {bs : List (Option (Body σ ε))} {st : Trace σ ε}
  {c : SwitchCase α σ ε} {cases : List (SwitchCase α σ ε)} {v : α} {s : σ}

theorem starts_cons_goes (h : (start b st).2.goes = true) :
    starts (b :: bs) st = starts bs (start b st).1 := runAll_goes h

theorem starts_cons_leaves (h : (start b st).2.goes = false) : starts (b :: bs) st = start b st :=
  runAll_leaves h

/-- bodies with no statements -/
theorem starts_empty (h : ∀ b ∈ bs, b = none) : starts bs st = (st, .next) := by
  induction bs with
  | nil => rfl
  | cons b bs ih =>
    obtain ⟨rfl, hbs⟩ := List.forall_mem_cons.1 h
    exact ih hbs

theorem goes_iff {e : Exit ε} : e.goes = true ↔ e = .next := by
  cases e <;> simp [Exit.goes]

theorem length_start (b : Option (Body σ ε)) (st : Trace σ ε) :
    st.1.length ≤ (start b st).1.1.length := by
  cases b with
  | none => exact Nat.le_refl _
  | some b =>
    show st.1.length ≤ (st.1 ++ [b]).length
    rw [List.length_append]
    exact Nat.le_add_right _ _

theorem length_starts (bs : List (Option (Body σ ε))) (st : Trace σ ε) :
    st.1.length ≤ (starts bs st).1.1.length := by
  induction bs generalizing st with
  | nil => exact Nat.le_refl _
  | cons b bs ih =>
    cases h : (start b st).2.goes with
    | true =>
      rw [starts_cons_goes h]
      exact Nat.le_trans (length_start b st) (ih _)
    | false =>
      rw [starts_cons_leaves h]
      exact length_start b st

/-- some body with statements is run -/
theorem length_starts_lt (h : ¬ ∀ b ∈ bs, b = none) (st : Trace σ ε) :
    st.1.length < (starts bs st).1.1.length := by
  induction bs with
  | nil => exact absurd (List.forall_mem_nil _) h
  | cons b bs ih =>
    cases b with
    | none => exact ih fun hbs => h (List.forall_mem_cons.2 ⟨rfl, hbs⟩)
    | some b =>
      have hlt : st.1.length < (start (some b) st).1.1.length := by
        show st.1.length < (st.1 ++ [b]).length
        rw [List.length_append]
        exact Nat.lt_succ_self _
      cases hg : (start (some b) st).2.goes with
      | true =>
        rw [starts_cons_goes hg]
        exact Nat.lt_of_lt_of_le hlt (length_starts bs _)
      | false =>
        rw [starts_cons_leaves hg]
        exact hlt

/-! ### both ends -/

theorem endSwitch_fst (r : Trace σ ε × Exit ε) : (CInt.endSwitch r).1 = r.1 := by
  obtain ⟨st, e⟩ := r
  cases e <;> rfl

theorem endOnce_fst (k : Context) (r : Trace σ ε × Exit ε) : (CStr.endOnce k r).1 = r.1 := by
  obtain ⟨st, e⟩ := r
  cases e <;> rfl

/-- a `break` after the body makes no difference at the end -/
theorem endOnce_thenBreak (k : Context) (r : Trace σ ε × Exit ε) :
    CStr.endOnce k (thenBreak r) = CStr.endOnce k r := by
  obtain ⟨st, e⟩ := r
  cases e <;> rfl

theorem ends_eq_iff (k : Context) (r : Trace σ ε × Exit ε) :
    CStr.endOnce k r = CInt.endSwitch r ↔ (r.2 = .cont → k.label = true) := by
  obtain ⟨st, e⟩ := r
  cases e with
  | cont => cases hk : k.label <;> simp [CStr.endOnce, CInt.endSwitch, hk]
  | _ => simp [CStr.endOnce, CInt.endSwitch]

/-- **One body, and that body with what follows it**, are left alike just if the body stops. -/
theorem stops_iff :
    CStr.endOnce k (start b ([], s)) = CInt.endSwitch (starts (b :: bs) ([], s)) ↔
      Stops k s (b :: bs) := by
  cases hg : (start b ([], s)).2.goes with
  | false =>
    rw [starts_cons_leaves hg, ends_eq_iff, Stops, hg]
    simp
  | true =>
    have hn := goes_iff.1 hg
    rw [starts_cons_goes hg, Stops, hn]
    constructor
    · intro h
      refine ⟨fun _ => ?_, fun hc => nomatch hc⟩
      by_contra hbs
      have hlt := length_starts_lt hbs (start b ([], s)).1
      have heq := congrArg (fun r => r.1.1.length) h
      simp only [endOnce_fst, endSwitch_fst] at heq
      omega
    · intro h
      have hst : start b ([], s) = ((start b ([], s)).1, .next) := Prod.ext rfl hn
      rw [starts_empty (h.1 rfl), hst]
      rfl

/-! ### the chain -/

theorem thenBreak_leaves (r : Trace σ ε × Exit ε) : (thenBreak r).2.goes = false := by
  obtain ⟨st, e⟩ := r
  cases e <;> rfl

/-- the `if`s -/
def tests (v : α) (cases : List (SwitchCase α σ ε)) : List (Trace σ ε → Trace σ ε × Exit ε) :=
  cases.filterMap fun c => c.label.map fun p => CItem.run v (.test p c.body)

theorem tests_some (v p : α) (b : Option (Body σ ε)) (cases : List (SwitchCase α σ ε)) :
    tests v (⟨some p, b⟩ :: cases) = CItem.run v (.test p b) :: tests v cases := rfl

/-- the `if`s, up to the one whose pattern is the value -/
theorem run_tests (rest : List (Trace σ ε → Trace σ ε × Exit ε)) (st : Trace σ ε) :
    runAll Exit.goes .next (tests v cases ++ rest) st =
      match cases.dropWhile fun c => decide (c.label ≠ some v) with
      | [] => runAll Exit.goes .next rest st
      | c :: _ => thenBreak (start c.body st) := by
  induction cases with
  | nil => rfl
  | cons c cases ih =>
    obtain ⟨label, body⟩ := c
    cases label with
    | none => exact ih
    | some p =>
      by_cases hp : v = p
      · subst hp
        have hrun : CItem.run v (.test v body) st = thenBreak (start body st) := if_pos rfl
        rw [List.dropWhile_cons_of_neg (by simp), tests_some, List.cons_append,
          runAll_leaves (hrun ▸ thenBreak_leaves _)]
        exact hrun
      · have hrun : CItem.run v (.test p body) st = (st, .next) := if_neg hp
        have hne : p ≠ v := fun h => hp h.symm
        rw [List.dropWhile_cons_of_pos (by simpa using hne), tests_some,
          List.cons_append, runAll_goes (by rw [hrun]; rfl), hrun]
        exact ih

omit [DecidableEq α] in
/-- there is one `default` at most -/
theorem filter_default (h : (cases.map SwitchCase.label).Nodup) :
    cases.filter (fun c => c.label.isNone) =
      (cases.dropWhile fun c => c.label.isSome).take 1 := by
  induction cases with
  | nil => rfl
  | cons c cases ih =>
    obtain ⟨hc, hcs⟩ := List.nodup_cons.1 h
    cases hl : c.label with
    | none =>
      have hnil : cases.filter (fun c => c.label.isNone) = [] := by
        rw [List.filter_eq_nil_iff]
        intro d hd hn
        exact hc (List.mem_map.2 ⟨d, hd, (Option.isNone_iff_eq_none.1 hn).trans hl.symm⟩)
      rw [List.filter_cons_of_pos (by rw [hl]; rfl), hnil,
        List.dropWhile_cons_of_neg (by rw [hl]; exact Bool.false_ne_true)]
      rfl
    | some p =>
      rw [List.filter_cons_of_neg (by rw [hl]; exact Bool.false_ne_true), ih hcs,
        List.dropWhile_cons_of_pos (by rw [hl]; rfl)]

theorem starts_single (b : Option (Body σ ε)) (st : Trace σ ε) : starts [b] st = start b st := by
  cases h : (start b st).2.goes with
  | true =>
    rw [starts_cons_goes h]
    exact Prod.ext rfl (goes_iff.1 h).symm
  | false => exact starts_cons_leaves h

/-- the chain, after the renaming -/
theorem items_rename {f : α → β} (hf : Function.Injective f) :
    (ifChain (cases.map (SwitchCase.rename f))).items.map (CItem.run (f v)) =
      tests v cases ++ (cases.filter fun c => c.label.isNone).map fun c => start c.body := by
  have htest : ∀ p (b : Option (Body σ ε)), CItem.run (f v) (.test (f p) b) =
      CItem.run v (.test p b) := by
    intro p b
    funext st
    show (if f v = f p then _ else _) = if v = p then _ else _
    simp only [hf.eq_iff]
  rw [ifChain, List.map_append]
  congr 1
  · induction cases with
    | nil => rfl
    | cons c cases ih =>
      obtain ⟨label, body⟩ := c
      cases label with
      | none => exact ih
      | some p => exact congrArg₂ List.cons (htest p body) ih
  · induction cases with
    | nil => rfl
    | cons c cases ih =>
      obtain ⟨label, body⟩ := c
      cases label with
      | none => exact congrArg (List.cons (start body)) ih
      | some p => exact ih

/-- **The chain runs the body that the `switch` of C enters first**, and no other one. -/
theorem runStr_rename {f : α → β} (hf : Function.Injective f)
    (hnodup : (cases.map SwitchCase.label).Nodup) :
    runStr k (cases.map (SwitchCase.rename f)) (f v) s =
      match (caseLabels cases).jump v with
      | [] => (([], s), .next)
      | b :: _ => CStr.endOnce k (start b ([], s)) := by
  rw [runStr, CStr.run, items_rename hf, run_tests, filter_default hnodup, CInt.jump, caseLabels]
  cases cases.dropWhile fun c => decide (c.label ≠ some v) with
  | cons c l => exact endOnce_thenBreak k _
  | nil =>
    cases cases.dropWhile fun c => c.label.isSome with
    | nil => rfl
    | cons c l => exact congrArg (CStr.endOnce k) (starts_single c.body _)

end

/-- **A `switch` on strings runs what the one on integers runs**, just if C takes the latter and
the body that is entered first stops. -/
theorem switch_iff {σ ε : Type} {f : Int64 → Bytes} (hf : Function.Injective f) (k : Context)
    (cases : List (SwitchCase Int64 σ ε)) (v : Int64) (s : σ) :
    runInt k cases v s = some (runStr k (cases.map (SwitchCase.rename f)) (f v) s) ↔
      (caseLabels cases).legal k = true ∧ Stops k s ((caseLabels cases).jump v) := by
  rw [runInt, CInt.run]
  split
  next hl =>
    have hnodup : (cases.map SwitchCase.label).Nodup :=
      of_decide_eq_true (Bool.and_eq_true_iff.1 hl).1
    rw [runStr_rename hf hnodup, Option.some_inj]
    cases (caseLabels cases).jump v with
    | nil => simp [Stops, hl, CInt.endSwitch, starts, runAll]
    | cons b bs => exact eq_comm.trans (stops_iff.trans (and_iff_right hl).symm)
  next hl => simp [hl]

/-- strings for numbers -/
def asText (i : Int64) : Bytes := List.replicate i.toUInt64.toNat 49

theorem asText_injective : Function.Injective asText := by
  intro i j h
  have hlen := congrArg List.length h
  simp only [asText, List.length_replicate] at hlen
  exact Int64.toBitVec_inj.1 (congrArg UInt64.toBitVec (UInt64.toNat_inj.1 hlen))

def plainBody (n : Nat) : Body (List Nat) Unit := ⟨fun s => (s ++ [n], .next), false, nofun⟩

/-- `case 1: a(); case 2: b();` -/
def twoCases : List (SwitchCase Int64 (List Nat) Unit) :=
  [⟨some 1, some (plainBody 1)⟩, ⟨some 2, some (plainBody 2)⟩]

/-- the last body need not stop -/
theorem switch_last : runInt ⟨false, false⟩ twoCases 2 [] =
    some (runStr ⟨false, false⟩ (twoCases.map (SwitchCase.rename asText)) (asText 2) []) := by
  have hs : Stops ⟨false, false⟩ [] [some (plainBody 2)] :=
    ⟨fun _ => List.forall_mem_nil _, fun h => nomatch h⟩
  exact (switch_iff asText_injective _ twoCases 2 []).2 ⟨rfl, hs⟩

/-- The statements of the second case are not run. -/
theorem switch_no_fallthrough : runInt ⟨false, false⟩ twoCases 1 [] ≠
    some (runStr ⟨false, false⟩ (twoCases.map (SwitchCase.rename asText)) (asText 1) []) := by
  intro h
  have hi : (runInt ⟨false, false⟩ twoCases 1 []).map (fun r => r.1.2) = some [1, 2] := rfl
  have hs : (runStr ⟨false, false⟩ (twoCases.map (SwitchCase.rename asText)) (asText 1) []).1.2 = [1] :=
    rfl
  rw [h, Option.map_some, hs] at hi
  cases hi

end Switch
end HolyPhp
