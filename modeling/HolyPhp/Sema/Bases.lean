import Mathlib.Data.Fintype.EquivFin
import Mathlib.Data.List.Sort
import HolyPhp.Lib.Climb
import HolyPhp.Runtime.Value

/-!
# Bases of classes

`declare_decls` links every class to the class it extends, by name, and nothing asks whether a
class comes back to itself.

* `findBase`, `base`, `errors`  what `declare_decls` resolves and reports;
* `classFindField`, `classDerives`, `classFindCtor`, `classRoot`, `anyDerived`  the loops along the
                                bases, for at most `n` classes;
* `Extends`, `Cyclic`           a class and the class it is declared to extend;
* `terminates_iff`              **all loops end, and every cycle is reported, if and only if there is
                                no cycle.**
-/

set_option autoImplicit false

namespace HolyPhp
namespace Bases
open Relation Climb

structure ClassDecl where
  name : Bytes
  extends_ : Option Bytes
  /-- `DK_INTERFACE` -/
  isInterface : Bool
  fields : List Bytes
  methods : List Bytes
  deriving DecidableEq

/-- the declarations of classes, interfaces and traits, in the order of the program -/
abbrev Program := List ClassDecl

/-- `"unknown base class '%s'"`, at the name of a class -/
structure SemaError (p : Program) where
  cls : Fin p.length
  base : Bytes

/-- `__construct` -/
def construct : Bytes := [95, 95, 99, 111, 110, 115, 116, 114, 117, 99, 116]

section
variable (p : Program)

/-! ## `declare_decls` -/

/-- `classes`, to which a declaration is added at the front -/
def classes : List (Fin p.length) := (List.finRange p.length).reverse

/-- the inner loop: the first class with that name -/
def findBase (name : Bytes) : Option (Fin p.length) :=
  (classes p).find? fun b => decide ((p.get b).name = name)

/-- `c->base` -/
def base (c : Fin p.length) : Option (Fin p.length) :=
  (p.get c).extends_.bind (findBase p)

def errors : List (SemaError p) :=
  (classes p).filterMap fun c =>
    match (p.get c).extends_ with
    | none => none
    | some name => if base p c = none then some ⟨c, name⟩ else none

/-! ## loops along the bases -/

variable (n : Nat)

/-- `class_find_field`: the class that declares the field -/
def classFindField (c : Fin p.length) (name : Bytes) : Option (Option (Fin p.length)) :=
  climb (base p) (fun k => if name ∈ (p.get k).fields then some k else none) n c

/-- `class_derives` -/
def classDerives (c d : Fin p.length) : Option Bool :=
  (climb (base p) (fun k => if k = d then some () else none) n c).map Option.isSome

/-- `class_find_ctor`: the class that declares it -/
def classFindCtor (c : Fin p.length) : Option (Option (Fin p.length)) :=
  climb (base p) (fun k => if construct ∈ (p.get k).methods then some k else none) n c

/-- `class_root` -/
def classRoot (c : Fin p.length) : Option (Option (Fin p.length)) :=
  climb (base p) (fun k => if base p k = none then some k else none) n c

/-- the loop over the bases of `k` that looks for `c` -/
def isBelow (c k : Fin p.length) : Option Bool :=
  match base p k with
  | none => some false
  | some b => classDerives p n b c

/-- is there a class below `c`, and what is asked of it? -/
def anyDerived (asked : Fin p.length → Bool) (c : Fin p.length) :
    List (Fin p.length) → Option Bool
  | [] => some false
  | k :: ks =>
    if (p.get k).isInterface then anyDerived asked c ks
    else
      match isBelow p n c k with
      | none => none
      | some below => if below && asked k then some true else anyDerived asked c ks

/-- `class_has_derived` -/
def classHasDerived (c : Fin p.length) : Option Bool :=
  anyDerived p n (fun _ => true) c (List.finRange p.length)

/-- `method_overridden` -/
def methodOverridden (owner : Fin p.length) (m : Bytes) : Option Bool :=
  anyDerived p n (fun k => decide (m ∈ (p.get k).methods)) owner
    ((List.finRange p.length).filter fun k => decide (k ≠ owner))

/-! ## cycles -/

/-- `c` is declared to extend `b`, the last declaration with that name -/
def Extends (c b : Fin p.length) : Prop :=
  (p.get c).extends_ = some (p.get b).name ∧ ∀ d, b < d → (p.get d).name ≠ (p.get b).name

/-- a class that comes back to itself -/
def Cyclic (c : Fin p.length) : Prop := TransGen (Extends p) c c

/-- a loop ends, for some number of classes -/
def Done {α : Type} (f : Nat → Option α) : Prop := ∃ n r, f n = some r

structure Terminates : Prop where
  findField : ∀ c name, Done fun n => classFindField p n c name
  derives : ∀ c d, Done fun n => classDerives p n c d
  findCtor : ∀ c, Done fun n => classFindCtor p n c
  root : ∀ c, Done fun n => classRoot p n c
  hasDerived : ∀ c, Done fun n => classHasDerived p n c
  overridden : ∀ c m, Done fun n => methodOverridden p n c m

/-- an error stands at a class of every cycle -/
def CyclesReported : Prop :=
  ∀ c, Cyclic p c → ∃ e ∈ errors p, ReflTransGen (Extends p) c e.cls

end

section
variable {p : Program} {c b : Fin p.length}

theorem mem_classes (c : Fin p.length) : c ∈ classes p :=
  List.mem_reverse.2 (List.mem_finRange c)

/-- the first that is found is the last that is declared -/
theorem findBase_spec {name : Bytes} (h : findBase p name = some b) :
    (p.get b).name = name ∧ ∀ d, b < d → (p.get d).name ≠ name := by
  obtain ⟨hb, before, behind, hl, hbefore⟩ := List.find?_eq_some_iff_append.1 h
  refine ⟨of_decide_eq_true hb, fun d hd hn => ?_⟩
  have hsorted : (classes p).Pairwise fun x y => y < x :=
    List.pairwise_reverse.2 (List.sortedLT_finRange p.length).pairwise
  have hmem := mem_classes d
  rw [hl] at hsorted hmem
  rcases List.mem_append.1 hmem with hm | hm
  · have hnot := hbefore d hm
    rw [decide_eq_true hn] at hnot
    cases hnot
  · rcases List.mem_cons.1 hm with rfl | hm
    · exact Nat.lt_irrefl _ hd
    · have hlt := (List.pairwise_cons.1 (List.pairwise_append.1 hsorted).2.1).1 d hm
      exact Nat.lt_asymm hd hlt

theorem findBase_eq_some {name : Bytes} : findBase p name = some b ↔
    (p.get b).name = name ∧ ∀ d, b < d → (p.get d).name ≠ name := by
  refine ⟨findBase_spec, fun ⟨hb, hlast⟩ => ?_⟩
  cases hf : findBase p name with
  | none => exact absurd (decide_eq_true hb) (List.find?_eq_none.1 hf b (mem_classes b))
  | some b' =>
    obtain ⟨hb', hlast'⟩ := findBase_spec hf
    rcases lt_trichotomy b b' with h | h | h
    · exact absurd hb' (hlast b' h)
    · rw [h]
    · exact absurd hb (hlast' b h)

theorem base_eq_some : base p c = some b ↔ Extends p c b := by
  rw [base, Option.bind_eq_some_iff, Extends]
  constructor
  · rintro ⟨name, he, hf⟩
    obtain ⟨rfl, hd⟩ := findBase_eq_some.1 hf
    exact ⟨he, hd⟩
  · rintro ⟨he, hd⟩
    exact ⟨_, he, findBase_eq_some.2 ⟨rfl, hd⟩⟩

theorem next_eq : Next (base p) = Extends p := by
  funext c b
  exact propext base_eq_some

/-- **What a cycle gets**: its class has a base, so there is no error at it. -/
theorem not_reported (h : Cyclic p c) : ∀ e ∈ errors p, e.cls ≠ c := by
  intro e he hc
  obtain ⟨b, hb, -⟩ := TransGen.head'_iff.1 h
  obtain ⟨k, -, hk⟩ := List.mem_filterMap.1 he
  cases hx : (p.get k).extends_ with
  | none =>
    rw [hx] at hk
    cases hk
  | some name =>
    rw [hx] at hk
    simp only at hk
    split at hk
    · next hbase =>
      cases hk
      rw [← hc, ← base_eq_some, hbase] at hb
      cases hb
    · cases hk

theorem done_of_ends {α β : Type} {stop : Fin p.length → Option α} {f : Option α → β}
    (h : Ends (base p) stop c) : Done fun n => (climb (base p) stop n c).map f := by
  obtain ⟨n, r, hr⟩ := h
  exact ⟨n, f r, congrArg (Option.map f) hr⟩

theorem isBelow_mono {n m : Nat} {k : Fin p.length} {r : Bool} (h : isBelow p n c k = some r)
    (hm : n ≤ m) : isBelow p m c k = some r := by
  unfold isBelow at h ⊢
  cases hb : base p k with
  | none => rwa [hb] at h
  | some b =>
    rw [hb] at h
    obtain ⟨x, hx, rfl⟩ := Option.map_eq_some_iff.1 h
    exact Option.map_eq_some_iff.2 ⟨x, climb_mono hx hm, rfl⟩

theorem anyDerived_mono {n m : Nat} {asked : Fin p.length → Bool} {ks : List (Fin p.length)}
    {r : Bool} (h : anyDerived p n asked c ks = some r) (hm : n ≤ m) :
    anyDerived p m asked c ks = some r := by
  induction ks with
  | nil => exact h
  | cons k ks ih =>
    rw [anyDerived] at h ⊢
    split
    · next hi =>
      rw [if_pos hi] at h
      exact ih h
    · next hi =>
      rw [if_neg hi] at h
      cases hb : isBelow p n c k with
      | none =>
        rw [hb] at h
        cases h
      | some below =>
        rw [hb] at h
        rw [isBelow_mono hb hm]
        simp only at h ⊢
        split at h
        · next ha => rwa [if_pos ha]
        · next ha =>
          rw [if_neg ha]
          exact ih h

theorem isBelow_done (h : ∀ k d, Done fun n => classDerives p n k d) (c k : Fin p.length) :
    Done fun n => isBelow p n c k := by
  unfold isBelow
  cases hb : base p k with
  | none => exact ⟨0, false, rfl⟩
  | some b => exact h b c

/-- the loop over all classes needs as many steps as the longest of its walks -/
theorem anyDerived_done (h : ∀ k d, Done fun n => classDerives p n k d)
    (asked : Fin p.length → Bool) (c : Fin p.length) (ks : List (Fin p.length)) :
    Done fun n => anyDerived p n asked c ks := by
  induction ks with
  | nil => exact ⟨0, false, rfl⟩
  | cons k ks ih =>
    obtain ⟨n, r, hr⟩ := ih
    obtain ⟨m, below, hb⟩ := isBelow_done h c k
    have hr' := anyDerived_mono hr (Nat.le_max_left n m)
    have hb' := isBelow_mono hb (Nat.le_max_right n m)
    refine ⟨max n m, ?_⟩
    simp only [anyDerived, hb', hr']
    split
    · exact ⟨r, rfl⟩
    · split
      · exact ⟨true, rfl⟩
      · exact ⟨r, rfl⟩

/-- **Loops and cycles.** -/
theorem terminates_iff (p : Program) :
    Terminates p ∧ CyclesReported p ↔ ∀ c, ¬ Cyclic p c := by
  constructor
  · rintro ⟨h, -⟩ c hc
    obtain ⟨n, r, hr⟩ := h.root c
    refine @not_ends_of_cycle _ _ (base p) _ _ (next_eq ▸ hc) ?_ ⟨n, r, hr⟩
    intro b hb
    obtain ⟨d, hd, -⟩ := TransGen.head'_iff.1 (transGen_of_cycle (next_eq ▸ hc) hb)
    exact if_neg (hd.trans_ne (Option.some_ne_none d))
  · intro h
    have hends : ∀ {α : Type} (stop : Fin p.length → Option α) c, Ends (base p) stop c :=
      fun stop c => ends_of_acyclic (next_eq ▸ h) c
    have hderives : ∀ k d, Done fun n => classDerives p n k d := fun k d => done_of_ends (hends _ k)
    exact ⟨⟨fun c name => hends _ c, hderives, fun c => hends _ c, fun c => hends _ c,
      fun c => anyDerived_done hderives _ c _, fun c m => anyDerived_done hderives _ c _⟩,
      fun c hc => absurd hc (h c)⟩

end

/-- `class A extends A {}` -/
def selfish : Program := [⟨[65], some [65], false, [], []⟩]

/-- no error, and a look for a field does not end -/
theorem selfish_lost : errors selfish = [] ∧ base selfish ⟨0, Nat.one_pos⟩ = some ⟨0, Nat.one_pos⟩ ∧
    ∀ n, classFindField selfish n ⟨0, Nat.one_pos⟩ [120] = none := by
  refine ⟨rfl, rfl, fun n => ?_⟩
  induction n with
  | zero => rfl
  | succ n ih => exact ih

end Bases
end HolyPhp
