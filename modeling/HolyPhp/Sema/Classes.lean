import HolyPhp.Lib.Forest
import HolyPhp.Runtime.Value

/-!
# Classes and their members

The class declarations of a program, with resolved bases, and the lookups of sema in them.

* `classFindMethod`  looks into one class, `classFindField` into all from a class up to its root;
* `findMethodUp`     the lookup of method calls and constructors: the class and its base;
* `checkMethodCall`, `checkNew`, `checkField`  what a member expression is resolved to;
* `classFindCtor`    the constructor that the emitter runs.

The law is `Forest.nearest`: the first class on the way up that declares the name.
-/

namespace HolyPhp
namespace Classes

/-! ## declarations -/

structure AstFn where
  name : Bytes
  isStatic : Bool
  /-- it has no body -/
  isAbstract : Bool
  /-- the number of its parameters -/
  params : Nat
  deriving DecidableEq

structure StructField where
  name : Bytes
  isStatic : Bool
  deriving DecidableEq

/-- classes are known by their place in `prog->decls` -/
structure AstClass where
  base : Option Nat
  fields : List StructField
  methods : List AstFn

/-- the classes of a program on which the loops along the bases end (`Bases.terminates_iff`): every
base is declared, and no class is derived from itself -/
structure Program where
  classes : List AstClass
  rank : Nat → Nat
  acyclic : ∀ c d : Nat, classes[c]?.bind AstClass.base = some d → rank d < rank c
  declared : ∀ c d : Nat, classes[c]?.bind AstClass.base = some d → d < classes.length

/-- `__construct` -/
def construct : Bytes := [95, 95, 99, 111, 110, 115, 116, 114, 117, 99, 116]

namespace Program
variable (P : Program)

def base (c : Nat) : Option Nat := P.classes[c]?.bind AstClass.base

def fields (c : Nat) : List StructField := (P.classes[c]?.map AstClass.fields).getD []

def methods (c : Nat) : List AstFn := (P.classes[c]?.map AstClass.methods).getD []

/-- a class and the classes above it -/
def forest : Forest Nat := ⟨P.base, P.rank, P.acyclic⟩

end Program

/-! ## lookups -/

section
variable (P : Program)

/-- `class_find_method` -/
def classFindMethod (c : Nat) (name : Bytes) : Option AstFn :=
  (P.methods c).find? fun m => m.name = name

/-- the field of the class itself -/
def ownField (c : Nat) (name : Bytes) : Option StructField :=
  (P.fields c).find? fun f => f.name = name

/-- `class_find_field`, with the class that declares the field -/
def classFindField (c : Nat) (name : Bytes) : Option (Nat × StructField) :=
  (P.forest.chain c).findSome? fun k => (ownField P k name).map fun f => (k, f)

/-- in the class, or else in its base -/
def findMethodUp (c : Nat) (name : Bytes) : Option (Nat × AstFn) :=
  match classFindMethod P c name with
  | some m => some (c, m)
  | none => (P.base c).bind fun b => (classFindMethod P b name).map fun m => (b, m)

/-- what is called; `property`: a closure in a field of that name -/
inductive Callee where
  | method (cls : Nat) (m : AstFn)
  | property (cls : Nat) (f : StructField)
  | rejected
  deriving DecidableEq

/-- `check_method_call` for a receiver of class `c`; `smart`: it is a smart pointer or a reference -/
def checkMethodCall (smart : Bool) (c : Nat) (name : Bytes) : Callee :=
  match findMethodUp P c name with
  | some (k, m) => .method k m
  | none =>
    if smart then .rejected
    else match classFindField P c name with
      | some (k, f) => .property k f
      | none => .rejected

/-- `EX_NEW`: the constructor that the arguments are checked against -/
def checkNew (c : Nat) : Option (Nat × AstFn) := findMethodUp P c construct

/-- `EX_FIELD` for a receiver of class `c` -/
def checkField (c : Nat) (name : Bytes) : Option (Nat × StructField) := classFindField P c name

/-- `class_find_ctor` of the emitter: the whole way up -/
def classFindCtor (c : Nat) : Option (Nat × AstFn) :=
  (P.forest.chain c).findSome? fun k => (classFindMethod P k construct).map fun m => (k, m)

def declaresMethod (name : Bytes) (c : Nat) : Bool := (classFindMethod P c name).isSome

def declaresField (name : Bytes) (c : Nat) : Bool := (ownField P c name).isSome

end

/-! ## the law of lookups -/

section law
variable {P : Program} {c : Nat} {name : Bytes}

/-- a lookup along the chain finds the member of the nearest class that has one -/
theorem findSome_chain {α : Type} {F : Forest Nat} (look : Nat → Option α) (c : Nat) :
    ((F.chain c).findSome? fun k => (look k).map fun x => (k, x)) =
      (F.nearest (fun k => (look k).isSome) c).bind fun k => (look k).map fun x => (k, x) := by
  rw [Forest.nearest]
  induction F.chain c with
  | nil => rfl
  | cons k ks ih =>
    cases hk : look k with
    | none =>
      rw [List.findSome?_cons, hk, List.find?_cons_of_neg (by simp [hk])]
      exact ih
    | some x =>
      rw [List.findSome?_cons, hk, List.find?_cons_of_pos (by simp [hk]), Option.bind_some, hk]
      rfl

/-- sema finds the field of the nearest class that declares it, and every field -/
theorem checkField_eq : checkField P c name =
    (P.forest.nearest (declaresField P name) c).bind fun k =>
      (ownField P k name).map fun f => (k, f) :=
  findSome_chain (fun k => ownField P k name) c

/-- the emitter runs the constructor of the nearest class that declares one -/
theorem classFindCtor_eq : classFindCtor P c =
    (P.forest.nearest (declaresMethod P construct) c).bind fun k =>
      (classFindMethod P k construct).map fun m => (k, m) :=
  findSome_chain (fun k => classFindMethod P k construct) c

/-- the nearest class that declares the method, with the declaration -/
def nearestMethod (P : Program) (c : Nat) (name : Bytes) : Option (Nat × AstFn) :=
  (P.forest.nearest (declaresMethod P name) c).bind fun k =>
    (classFindMethod P k name).map fun m => (k, m)

theorem nearestMethod_self {m : AstFn} (h : classFindMethod P c name = some m) :
    nearestMethod P c name = some (c, m) := by
  have hd : declaresMethod P name c = true := by rw [declaresMethod, h]; rfl
  rw [nearestMethod, Forest.nearest_self hd, Option.bind_some, h]
  rfl

theorem nearestMethod_base {b : Nat} (hb : P.base c = some b)
    (h : classFindMethod P c name = none) : nearestMethod P c name = nearestMethod P b name := by
  have hd : declaresMethod P name c = false := by rw [declaresMethod, h]; rfl
  rw [nearestMethod, Forest.nearest_child (F := P.forest) hb hd, nearestMethod]

theorem nearestMethod_root (hb : P.base c = none) (h : classFindMethod P c name = none) :
    nearestMethod P c name = none := by
  have hd : declaresMethod P name c = false := by rw [declaresMethod, h]; rfl
  rw [nearestMethod, Forest.nearest_root (F := P.forest) hb hd]
  rfl

/-- how far up the method is declared -/
def methodLevel (P : Program) (c : Nat) (name : Bytes) : Option Nat :=
  P.forest.level (declaresMethod P name) c

theorem methodLevel_isSome : (methodLevel P c name).isSome = (nearestMethod P c name).isSome := by
  rw [methodLevel, Forest.level_isSome, nearestMethod]
  cases hn : P.forest.nearest (declaresMethod P name) c with
  | none => rfl
  | some k =>
    have hk : declaresMethod P name k = true := Forest.nearest_spec hn
    rw [declaresMethod] at hk
    rw [Option.bind_some, Option.isSome_map, hk]
    rfl

theorem findMethodUp_self {m : AstFn} (h : classFindMethod P c name = some m) :
    findMethodUp P c name = some (c, m) := by
  rw [findMethodUp, h]

theorem findMethodUp_root (hb : P.base c = none) (h : classFindMethod P c name = none) :
    findMethodUp P c name = none := by
  rw [findMethodUp, h, hb]
  rfl

theorem findMethodUp_base {b : Nat} (hb : P.base c = some b)
    (h : classFindMethod P c name = none) :
    findMethodUp P c name = (classFindMethod P b name).map fun m => (b, m) := by
  rw [findMethodUp, h, hb]
  rfl

/-- the lookup that looks one class up finds the nearest method exactly where it is not declared
further up -/
theorem findMethodUp_iff : findMethodUp P c name = nearestMethod P c name ↔
    ∀ k, methodLevel P c name = some k → k ≤ 1 := by
  cases hm : classFindMethod P c name with
  | some m =>
    have hd : declaresMethod P name c = true := by rw [declaresMethod, hm]; rfl
    rw [findMethodUp_self hm, nearestMethod_self hm, methodLevel, Forest.level_self hd]
    refine ⟨fun _ k hk => ?_, fun _ => rfl⟩
    cases hk
    exact Nat.zero_le 1
  | none =>
    have hd : declaresMethod P name c = false := by rw [declaresMethod, hm]; rfl
    cases hb : P.base c with
    | none =>
      rw [findMethodUp_root hb hm, nearestMethod_root hb hm, methodLevel,
        Forest.level_root (F := P.forest) hb hd]
      refine ⟨fun _ k hk => ?_, fun _ => rfl⟩
      cases hk
    | some b =>
      rw [findMethodUp_base hb hm, nearestMethod_base hb hm, methodLevel,
        Forest.level_child (F := P.forest) hb hd]
      cases hmb : classFindMethod P b name with
      | some m =>
        have hdb : declaresMethod P name b = true := by rw [declaresMethod, hmb]; rfl
        rw [nearestMethod_self hmb, Forest.level_self hdb]
        refine ⟨fun _ k hk => ?_, fun _ => rfl⟩
        cases hk
        exact Nat.le_refl 1
      | none =>
        have hdb : declaresMethod P name b = false := by rw [declaresMethod, hmb]; rfl
        rw [Option.map_none]
        have hlevel : (methodLevel P b name).isSome = (nearestMethod P b name).isSome :=
          methodLevel_isSome
        rw [methodLevel] at hlevel
        cases hl : P.forest.level (declaresMethod P name) b with
        | none =>
          rw [hl] at hlevel
          have hn : nearestMethod P b name = none := by simpa using hlevel.symm
          refine ⟨fun _ k hk => ?_, fun _ => hn.symm⟩
          cases hk
        | some k =>
          -- it is not declared in `b`, so it is declared above `b`
          have hk : 0 < k := Forest.level_pos hdb hl
          rw [hl] at hlevel
          refine ⟨fun h => ?_, fun h => absurd (h (k + 1) rfl) (by omega)⟩
          rw [← h] at hlevel
          cases hlevel

/-- what the lookup finds is the nearest -/
theorem findMethodUp_sound {r : Nat × AstFn} (h : findMethodUp P c name = some r) :
    nearestMethod P c name = some r := by
  cases hm : classFindMethod P c name with
  | some m =>
    rw [findMethodUp_self hm] at h
    rw [nearestMethod_self hm, h]
  | none =>
    cases hb : P.base c with
    | none =>
      rw [findMethodUp_root hb hm] at h
      cases h
    | some b =>
      rw [findMethodUp_base hb hm, Option.map_eq_some_iff] at h
      obtain ⟨m, hmb, rfl⟩ := h
      rw [nearestMethod_base hb hm, nearestMethod_self hmb]

theorem nearestMethod_spec {k : Nat} {m : AstFn} (h : nearestMethod P c name = some (k, m)) :
    k ∈ P.forest.chain c ∧ classFindMethod P k name = some m := by
  rw [nearestMethod, Option.bind_eq_some_iff] at h
  obtain ⟨k', hk, hmap⟩ := h
  rw [Option.map_eq_some_iff] at hmap
  obtain ⟨m', hm, heq⟩ := hmap
  cases heq
  exact ⟨Forest.nearest_mem hk, hm⟩

/-! ## calls, constructors and fields -/

/-- a method call is resolved to the nearest declaration; it is to none where there is none -/
def MethodLaw (P : Program) (smart : Bool) (c : Nat) (name : Bytes) : Prop :=
  match nearestMethod P c name with
  | some (k, m) => checkMethodCall P smart c name = .method k m
  | none => ∀ k m, checkMethodCall P smart c name ≠ .method k m

/-- `new` checks the arguments against the nearest constructor -/
def CtorLaw (P : Program) (c : Nat) : Prop := checkNew P c = nearestMethod P c construct

/-- a field access is resolved to the nearest declaration, and refused where there is none -/
def FieldLaw (P : Program) (c : Nat) (name : Bytes) : Prop :=
  checkField P c name = (P.forest.nearest (declaresField P name) c).bind fun k =>
    (ownField P k name).map fun f => (k, f)

theorem checkMethodCall_of_some (smart : Bool) {k : Nat} {m : AstFn}
    (h : findMethodUp P c name = some (k, m)) : checkMethodCall P smart c name = .method k m := by
  rw [checkMethodCall, h]

theorem checkMethodCall_of_none (smart : Bool) (h : findMethodUp P c name = none) (k : Nat)
    (m : AstFn) : checkMethodCall P smart c name ≠ .method k m := by
  rw [checkMethodCall, h]
  cases smart with
  | true => exact nofun
  | false =>
    show (match classFindField P c name with
      | some (k, f) => Callee.property k f
      | none => .rejected) ≠ _
    cases classFindField P c name with
    | none => exact nofun
    | some r => exact nofun

theorem methodLaw_iff (smart : Bool) : MethodLaw P smart c name ↔
    ∀ k, methodLevel P c name = some k → k ≤ 1 := by
  rw [← findMethodUp_iff, MethodLaw]
  cases hu : findMethodUp P c name with
  | none =>
    cases nearestMethod P c name with
    | none => exact ⟨fun _ => rfl, fun _ => checkMethodCall_of_none smart hu⟩
    | some r => exact ⟨fun h => absurd h (checkMethodCall_of_none smart hu _ _), nofun⟩
  | some r =>
    have hc := checkMethodCall_of_some smart hu
    cases nearestMethod P c name with
    | none => exact ⟨fun h => absurd hc (h _ _), nofun⟩
    | some r' =>
      show checkMethodCall P smart c name = .method r'.1 r'.2 ↔ _
      rw [hc, Callee.method.injEq, Option.some.injEq, Prod.ext_iff]

end law

end Classes
end HolyPhp
