import HolyPhp.Codegen.Conditional

/-!
# The arguments of a constructor

* `Param`, `Dflt`   parameters, with the literals that are their defaults;
* `Arg`             an argument, by the type of C in which it is emitted;
* `emitNew`         what `new C(..)` passes to `C_new_args`;
* `readParams`      what that makes of it with `va_arg`;
* `Fits`            the types of C are the ones that are read;
* `ctor_iff`        **which calls pass the arguments unchanged.**
-/

set_option autoImplicit false

namespace HolyPhp
namespace Codegen
namespace Ctor
open Cmp (Val)

/-! ## types and values -/

/-- parameter types; one with no type is `mixed` -/
inductive PTy where
  | int
  | float
  | bool
  | string
  | array
  | object (cls : Nat)
  | mixed
  deriving DecidableEq

/-- with pointers to objects of a class -/
inductive ATy where
  | val (t : CTy)
  | obj (cls : Nat)
  deriving DecidableEq

inductive CArg where
  | val (x : CVal)
  | obj (cls : Nat) (p : Option Addr)

def CArg.ty : CArg → ATy
  | .val x => .val x.ty
  | .obj cls _ => .obj cls

/-- the promotions of an argument for which there is no parameter -/
def CArg.promote : CArg → CArg
  | .val (.bool b) => .val (.int (if b then 1 else 0))
  | x => x

inductive Arg where
  | part (o : Operand)
  | object (cls : Nat) (p : Option Addr)

def Arg.v : Arg → Val
  | .part o => o.v
  | .object _ p => .obj p

/-- `emit_expr` -/
def Arg.emit : Arg → CArg
  | .part o => .val o.c
  | .object cls p => .obj cls p

/-- `to_hval` -/
def Arg.toHval : Arg → Option CArg
  | .part o => (o.ty.box o.c).map fun v => .val (.hval v)
  | .object _ p => some (.val (.hval (.obj p)))

/-- a default; sema gives it no type -/
inductive Dflt where
  | int (i : Int64)
  | float (d : Double)
  | bool (b : Bool)
  | string (s : Bytes)
  | array (a : Addr)
  | null

def Dflt.v : Dflt → Val
  | .int i => .int i
  | .float d => .float d
  | .bool b => .bool b
  | .string s => .str (some s)
  | .array a => .arr (some a)
  | .null => .null

/-- `emit_expr`: `true` is an `int` of C -/
def Dflt.emit : Dflt → CArg
  | .int i => .val (.int64 i)
  | .float d => .val (.double d)
  | .bool b => .val (.int (if b then 1 else 0))
  | .string s => .val (.str (some s))
  | .array a => .val (.arr (some a))
  | .null => .val (.hval .null)

structure Param where
  ty : PTy
  dflt : Option Dflt

/-- a class, with the parameters of its own `__construct` -/
inductive AstClass where
  | root (ctor : Option (List Param))
  | derived (ctor : Option (List Param)) (base : AstClass)

/-- `class_find_ctor` -/
def classFindCtor : AstClass → Option (List Param)
  | .root ctor => ctor
  | .derived (some ps) _ => some ps
  | .derived none base => classFindCtor base

/-! ## the call -/

def emitArg : PTy → Arg → Option CArg
  | .mixed, a => a.toHval
  | _, a => some a.emit

/-- `emit_param_default`: for an object `null` is `0` -/
def emitParamDefault : PTy → Dflt → CArg
  | .mixed, d => .val (.hval d.v)
  | .object _, .null => .val (.int 0)
  | _, d => d.emit

def emitMissingDefaults : List Param → List CArg
  | [] => []
  | p :: ps =>
    match p.dflt with
    | none => []
    | some d => emitParamDefault p.ty d :: emitMissingDefaults ps

def emitNew : List Param → List Arg → Option (List CArg)
  | p :: ps, a :: as => (emitArg p.ty a).bind fun x => (emitNew ps as).map fun xs => x :: xs
  | ps, [] => some (emitMissingDefaults ps)
  | [], as => some (as.map Arg.emit)

/-! ## `C_new_args` -/

/-- the type that `va_arg` is given -/
def PTy.vaType : PTy → ATy
  | .int => .val .int
  | .bool => .val .int
  | .float => .val .double
  | .string => .val .str
  | .array => .val .arr
  | .object cls => .obj cls
  | .mixed => .val .hval

/-- the value of a parameter, from an argument of the type that is read -/
def PTy.param : PTy → CArg → Option Val
  | .int, .val x => x.toInt64.map .int
  | .float, .val x => x.toDouble.map .float
  | .bool, .val x => x.truth.map .bool
  | .string, .val (.str s) => some (.str s)
  | .array, .val (.arr a) => some (.arr a)
  | .object _, .obj _ p => some (.obj p)
  | .mixed, .val (.hval v) => some v
  | _, _ => none

/-- `none`: C does not define what `va_arg` returns for an argument of another type -/
def PTy.readArg (t : PTy) (x : CArg) : Option Val :=
  if x.promote.ty = t.vaType then t.param x.promote else none

/-- the values in `__construct`, from the arguments that there are -/
def readParams : List Param → List CArg → Option (List Val)
  | [], _ => some []
  | _ :: _, [] => none
  | p :: ps, x :: xs => (p.ty.readArg x).bind fun v => (readParams ps xs).map fun vs => v :: vs

def inConstruct (ps : List Param) (as : List Arg) : Option (List Val) :=
  (emitNew ps as).bind (readParams ps)

/-! ## what arrives -/

/-- a value as one of the parameter type -/
def PTy.convert (rt : Rt) : PTy → Val → Val
  | .int, v => .int (hpValToInt v)
  | .float, v => .float (Cmp.hpValToFloat rt.strtod v)
  | .bool, v => .bool (hpValToBool rt v)
  | .string, .str s => .str s
  | .string, v => .str (some (Std.hpValToStr rt.fromDouble v))
  | .array, .arr a => .arr a
  | .array, v => .arr (hpValToArr rt v)
  | .object _, .null => .obj none
  | .object _, v => v
  | .mixed, v => v

/-- the arguments as values of the parameter types, then the defaults; `none`: one is missing -/
def expected (rt : Rt) : List Param → List Arg → Option (List Val)
  | [], _ => some []
  | p :: ps, a :: as => (expected rt ps as).map fun vs => p.ty.convert rt a.v :: vs
  | p :: ps, [] =>
    p.dflt.bind fun d => (expected rt ps []).map fun vs => p.ty.convert rt d.v :: vs

/-- each parameter of the constructor is the argument, or the default -/
def Arrives (rt : Rt) (c : AstClass) (as : List Arg) : Prop :=
  ∀ ps, classFindCtor c = some ps → ∃ vs, expected rt ps as = some vs ∧ inConstruct ps as = some vs

/-- the type of the argument in C is read: `int` for integers -/
def PTy.fits : PTy → Arg → Bool
  | .mixed, _ => true
  | .int, .part ⟨.cint, _, _, _⟩ => true
  | .int, .part ⟨.bool, _, _, _⟩ => true
  | .int, .part ⟨.cbool, _, _, _⟩ => true
  | .bool, .part ⟨.cint, _, _, _⟩ => true
  | .bool, .part ⟨.bool, _, _, _⟩ => true
  | .bool, .part ⟨.cbool, _, _, _⟩ => true
  | .float, .part ⟨.float, _, _, _⟩ => true
  | .string, .part ⟨.string, _, _, _⟩ => true
  | .array, .part ⟨.array _, _, _, _⟩ => true
  | .object cls, .object cls' _ => decide (cls = cls')
  | _, _ => false

def PTy.fitsDflt : PTy → Dflt → Bool
  | .mixed, _ => true
  | .int, .bool _ => true
  | .bool, .bool _ => true
  | .float, .float _ => true
  | .string, .string _ => true
  | .array, .array _ => true
  | _, _ => false

def Fits : List Param → List Arg → Prop
  | [], _ => True
  | p :: ps, a :: as => p.ty.fits a = true ∧ Fits ps as
  | p :: ps, [] => (∃ d, p.dflt = some d ∧ p.ty.fitsDflt d = true) ∧ Fits ps []

/-! ## single arguments -/

section
variable {rt : Rt} {p : Param} {ps : List Param} {as : List Arg}

/-- **An argument arrives just if its type in C is the one that is read.** -/
theorem read_arg (rt : Rt) (t : PTy) (a : Arg) :
    (emitArg t a).bind t.readArg = if t.fits a then some (t.convert rt a.v) else none := by
  cases a with
  | object cls q =>
    cases t with
    | object cls' =>
      by_cases h : cls = cls'
      · subst h
        have hfit : PTy.fits (.object cls) (.object cls q) = true := decide_eq_true rfl
        rw [hfit]
        exact if_pos rfl
      · have hfit : PTy.fits (.object cls') (.object cls q) = false :=
          decide_eq_false fun h' => h h'.symm
        rw [hfit]
        exact if_neg fun h' => h (ATy.obj.inj h')
    | _ => rfl
  | part o =>
    obtain ⟨part, x, v, h⟩ := o
    cases t with
    | mixed =>
      show (((part.ty.box x).map fun v => CArg.val (.hval v)).bind _) = some v
      rw [h.box (.inl rfl)]
      rfl
    | bool =>
      cases h with
      | bool b => cases b <;> rfl
      | cbool b => cases b <;> rfl
      | _ => rfl
    | _ => cases h <;> rfl

theorem read_dflt (rt : Rt) (t : PTy) (d : Dflt) :
    t.readArg (emitParamDefault t d) = if t.fitsDflt d then some (t.convert rt d.v) else none := by
  cases t with
  | bool =>
    cases d with
    | bool b => cases b <;> rfl
    | _ => rfl
  | _ => cases d <;> rfl

/-! ## all of them -/

theorem inConstruct_cons (p : Param) (ps : List Param) (a : Arg) (as : List Arg) :
    inConstruct (p :: ps) (a :: as) =
      ((emitArg p.ty a).bind p.ty.readArg).bind fun v => (inConstruct ps as).map fun vs => v :: vs := by
  unfold inConstruct
  rw [emitNew]
  cases emitArg p.ty a with
  | none => rfl
  | some x =>
    cases emitNew ps as with
    | none => cases h : p.ty.readArg x <;> simp [h]
    | some xs => rfl

theorem emitNew_nil (ps : List Param) : emitNew ps [] = some (emitMissingDefaults ps) := by
  cases ps <;> rfl

theorem inConstruct_dflt {d : Dflt} (h : p.dflt = some d) (ps : List Param) :
    inConstruct (p :: ps) [] =
      (p.ty.readArg (emitParamDefault p.ty d)).bind fun v =>
        (inConstruct ps []).map fun vs => v :: vs := by
  have he : emitMissingDefaults (p :: ps) =
      emitParamDefault p.ty d :: emitMissingDefaults ps := by
    rw [emitMissingDefaults, h]
  unfold inConstruct
  rw [emitNew_nil, emitNew_nil, he]
  rfl

theorem inConstruct_missing (h : p.dflt = none) (ps : List Param) :
    inConstruct (p :: ps) [] = none := by
  have he : emitMissingDefaults (p :: ps) = [] := by
    rw [emitMissingDefaults, h]
  unfold inConstruct
  rw [emitNew_nil, he]
  rfl

theorem arrives_of_fits (rt : Rt) (h : Fits ps as) :
    ∃ vs, expected rt ps as = some vs ∧ inConstruct ps as = some vs := by
  induction ps generalizing as with
  | nil =>
    refine ⟨[], by cases as <;> rfl, ?_⟩
    cases as <;> rfl
  | cons p ps ih =>
    cases as with
    | cons a as =>
      obtain ⟨vs, hexp, hin⟩ := ih h.2
      refine ⟨p.ty.convert rt a.v :: vs, by rw [expected, hexp]; rfl, ?_⟩
      rw [inConstruct_cons, read_arg rt, if_pos h.1, hin]
      rfl
    | nil =>
      obtain ⟨⟨d, hd, hfit⟩, hrest⟩ := h
      obtain ⟨vs, hexp, hin⟩ := ih hrest
      refine ⟨p.ty.convert rt d.v :: vs, by rw [expected, hd, Option.bind_some, hexp]; rfl, ?_⟩
      rw [inConstruct_dflt hd, read_dflt rt, if_pos hfit, hin]
      rfl

/-- what the constructor gets at all has fit -/
theorem fits_of_inConstruct {vs : List Val} (h : inConstruct ps as = some vs) : Fits ps as := by
  induction ps generalizing as vs with
  | nil => cases as <;> trivial
  | cons p ps ih =>
    cases as with
    | cons a as =>
      rw [inConstruct_cons, read_arg someRt] at h
      obtain ⟨v, hv, h⟩ := Option.bind_eq_some_iff.1 h
      obtain ⟨ws, hws, -⟩ := Option.map_eq_some_iff.1 h
      refine ⟨?_, ih hws⟩
      by_contra hfit
      rw [if_neg hfit] at hv
      cases hv
    | nil =>
      cases hd : p.dflt with
      | none =>
        rw [inConstruct_missing hd] at h
        cases h
      | some d =>
        rw [inConstruct_dflt hd, read_dflt someRt] at h
        obtain ⟨v, hv, h⟩ := Option.bind_eq_some_iff.1 h
        obtain ⟨ws, hws, -⟩ := Option.map_eq_some_iff.1 h
        refine ⟨⟨d, hd, ?_⟩, ih hws⟩
        by_contra hfit
        rw [if_neg hfit] at hv
        cases hv

end

/-- **The arguments arrive in the constructor** of a class, its own or an inherited one, just if
their types in C are the ones that it reads. -/
theorem ctor_iff (rt : Rt) (c : AstClass) (as : List Arg) :
    Arrives rt c as ↔ ∀ ps, classFindCtor c = some ps → Fits ps as := by
  constructor
  · intro h ps hps
    obtain ⟨vs, -, hin⟩ := h ps hps
    exact fits_of_inConstruct hin
  · intro h ps hps
    exact arrives_of_fits rt (h ps hps)

/-- An `int` does not arrive. -/
theorem ctor_int : ¬ Arrives someRt (.root (some [⟨.int, none⟩]))
    [.part ⟨_, _, _, .int 5000000000⟩] := by
  intro h
  obtain ⟨vs, -, hin⟩ := h _ rfl
  exact Bool.false_ne_true (fits_of_inConstruct hin).1

end Ctor
end Codegen
end HolyPhp
