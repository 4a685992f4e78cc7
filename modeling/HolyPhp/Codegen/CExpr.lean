import HolyPhp.Json.Decode
import HolyPhp.Runtime.Cmp
import HolyPhp.Sema.Ast

/-!
# Expressions of C that values flow through

* `CTy`, `CVal`   the types of C that values have, and the values;
* `Rt`            the runtime: its library functions and the arrays of the heap;
* `hv`            the macro of that name; `STy.box` is `to_hval`;
* `CExpr`         calls of the runtime and `?:`, with `typeOf` and `eval`;
* `eval_ty`       what an expression returns has its type.
-/

set_option autoImplicit false

namespace HolyPhp
namespace Codegen
open Cmp (Val)
open Sema (Ty)

inductive CTy where
  | int | int64 | double | bool | str | arr | hval
  deriving DecidableEq

/-- the `int` of a comparison is 0 or 1 -/
inductive CVal where
  | int (i : Int64)
  | int64 (i : Int64)
  | double (d : Double)
  | bool (b : Bool)
  | str (s : Option Bytes)
  | arr (a : Option Addr)
  | hval (v : Val)
  deriving DecidableEq

def CVal.ty : CVal → CTy
  | .int _ => .int
  | .int64 _ => .int64
  | .double _ => .double
  | .bool _ => .bool
  | .str _ => .str
  | .arr _ => .arr
  | .hval _ => .hval

def CTy.isArith : CTy → Bool
  | .int | .int64 | .double | .bool => true
  | _ => false

/-! ## the runtime -/

/-- `strtod`, what `snprintf` makes of a `double`, the lengths of arrays, and the address of a new
one -/
structure Rt where
  strtod : Bytes → Double
  fromDouble : Double → Bytes
  len : Addr → Nat
  fresh : Addr

/-- `f != 0.0` -/
def nonzero (d : Double) : Bool := decide (d.magnitude ≠ 0)

def hpValToBool (rt : Rt) : Val → Bool
  | .null => false
  | .int i => i != 0
  | .float f => nonzero f
  | .bool b => b
  | .str s => decide (s.getD [] ≠ [])
  | .arr a => a.any fun p => decide (0 < rt.len p)
  | .obj p => p.isSome
  | .clo c => c.isSome

def hpValEq (rt : Rt) : Val → Val → Bool
  | .str a, .str b => decide (a = b)
  | .arr a, .arr b => decide (a = b)
  | .null, .null => true
  | .null, b => hpValToBool rt b == false
  | a, .null => hpValToBool rt a == false
  | .bool a, b => a == hpValToBool rt b
  | a, .bool b => hpValToBool rt a == b
  | .float a, b => a.eq (Cmp.hpValToFloat rt.strtod b)
  | a, .float b => (Cmp.hpValToFloat rt.strtod a).eq b
  | .int a, b => (Double.ofInt64 a).eq (Cmp.hpValToFloat rt.strtod b)
  | a, .int b => (Cmp.hpValToFloat rt.strtod a).eq (Double.ofInt64 b)
  | _, _ => false

def hpValToArr (rt : Rt) : Val → Option Addr
  | .arr (some p) => some p
  | _ => some rt.fresh

def hpNullcoal (a b : Val) : Val := if a = .null then b else a

def hpMatchAny (rt : Rt) (subj : Val) (pats : List Val) : Bool := pats.any (hpValEq rt subj)

/-! ## conversions -/

/-- to `int64_t` -/
def CVal.toInt64 : CVal → Option Int64
  | .int i => some i
  | .int64 i => some i
  | .double d => some d.toInt64
  | .bool b => some (if b then 1 else 0)
  | _ => none

/-- to `double` -/
def CVal.toDouble : CVal → Option Double
  | .int i => some (Double.ofInt64 i)
  | .int64 i => some (Double.ofInt64 i)
  | .double d => some d
  | .bool b => some (Double.ofInt64 (if b then 1 else 0))
  | _ => none

/-- to `bool`, and as a condition -/
def CVal.truth : CVal → Option Bool
  | .int i => some (i != 0)
  | .int64 i => some (i != 0)
  | .double d => some (nonzero d)
  | .bool b => some b
  | .str s => some s.isSome
  | .arr a => some a.isSome
  | .hval _ => none

/-- the macro `hv` -/
def hv : CVal → Val
  | .int i => .int i
  | .int64 i => .int i
  | .double d => .float d
  | .bool b => .bool b
  | .str s => .str s
  | .arr a => .arr a
  | .hval v => v

/-- the type of `c ? a : b` -/
def CTy.common (s t : CTy) : Option CTy :=
  if s.isArith && t.isArith then
    some (if s = .double ∨ t = .double then .double
      else if s = .int64 ∨ t = .int64 then .int64 else .int)
  else if s = t then some s else none

/-- to the type of `c ? a : b` -/
def CVal.convert : CTy → CVal → Option CVal
  | .double, x => x.toDouble.map .double
  | .int64, x => x.toInt64.map .int64
  | .int, x => x.toInt64.map .int
  | _, x => some x

/-! ## static types -/

inductive STy where
  | int
  | float
  | bool
  | string
  | array (elem : Ty)
  | mixed

def STy.ty : STy → Ty
  | .int => .int
  | .float => .prim .float
  | .bool => .bool
  | .string => .string
  | .array e => .array e
  | .mixed => .mixed

/-- the tag of the values of a type, if they have one -/
def STy.tag : STy → Option HKind
  | .int => some .int
  | .float => some .float
  | .bool => some .bool
  | .string => some .str
  | .array _ => some .arr
  | .mixed => none

/-- `to_hval` of an expression of the type -/
def STy.box : STy → CVal → Option Val
  | .int, x => x.toInt64.map .int
  | .float, x => x.toDouble.map .float
  | .bool, x => x.truth.map .bool
  | .string, .str s => some (.str s)
  | .array _, .arr a => some (.arr a)
  | .mixed, x => some (hv x)
  | _, _ => none

/-- the types of C that `to_hval` can be applied to -/
def STy.takes : STy → CTy → Bool
  | .int, s => s.isArith
  | .float, s => s.isArith
  | .bool, s => s ≠ .hval
  | .string, s => s = .str
  | .array _, s => s = .arr
  | .mixed, _ => true

/-! ## expressions -/

/-- the functions `hp_val_to_int`, .. -/
inductive Conv where
  | int | float | bool | str | arr

def Conv.ty : Conv → CTy
  | .int => .int64
  | .float => .double
  | .bool => .bool
  | .str => .str
  | .arr => .arr

def Conv.call (rt : Rt) : Conv → Val → CVal
  | .int, v => .int64 (hpValToInt v)
  | .float, v => .double (Cmp.hpValToFloat rt.strtod v)
  | .bool, v => .bool (hpValToBool rt v)
  | .str, v => .str (some (Std.hpValToStr rt.fromDouble v))
  | .arr, v => .arr (hpValToArr rt v)

inductive CExpr where
  | val (x : CVal)
  | hv (e : CExpr)
  | conv (f : Conv) (e : CExpr)
  | box (t : STy) (e : CExpr)
  | cond (c a b : CExpr)
  | nullcoal (a b : CExpr)
  | matchAny (subj : CExpr) (pats : List Val)
  | noDefault

namespace CExpr

/-- `none`: a C compiler refuses it -/
def typeOf : CExpr → Option CTy
  | .val x => some x.ty
  | .hv e => (typeOf e).map fun _ => .hval
  | .conv f e => if typeOf e = some .hval then some f.ty else none
  | .box t e => (typeOf e).bind fun s => if t.takes s then some .hval else none
  | .cond c a b =>
    if (typeOf c).any fun s => s ≠ .hval then
      (typeOf a).bind fun s => (typeOf b).bind fun t => s.common t
    else none
  | .nullcoal a b => if typeOf a = some .hval ∧ typeOf b = some .hval then some .hval else none
  | .matchAny s _ => if typeOf s = some .hval then some .hval else none
  | .noDefault => some .hval

/-- the value in a `hval` -/
def unwrap : CVal → Option Val
  | .hval v => some v
  | _ => none

/-- `none`: an exception is thrown, or there is no type -/
def eval (rt : Rt) : CExpr → Option CVal
  | .val x => some x
  | .hv e => (eval rt e).map fun x => .hval (Codegen.hv x)
  | .conv f e => ((eval rt e).bind unwrap).map (f.call rt)
  | .box t e => ((eval rt e).bind t.box).map .hval
  | .cond c a b => ((eval rt c).bind CVal.truth).bind fun t =>
    (typeOf (.cond c a b)).bind fun s => (if t then eval rt a else eval rt b).bind (CVal.convert s)
  | .nullcoal a b => ((eval rt a).bind unwrap).bind fun v =>
    ((eval rt b).bind unwrap).map fun w => .hval (hpNullcoal v w)
  | .matchAny s pats => ((eval rt s).bind unwrap).map fun v =>
    .hval (.bool (hpMatchAny rt v pats))
  | .noDefault => none

end CExpr

/-! ## types and values -/

section
variable {rt : Rt} {x y : CVal} {s t u : CTy} {e a b c : CExpr} {v : Val} {k : HKind} {p : STy}

theorem convert_ty (h : x.convert s = some y) (hx : s.isArith = false ∨ s = .bool → x.ty = s) :
    y.ty = s := by
  cases s with
  | double =>
    obtain ⟨d, -, rfl⟩ := Option.map_eq_some_iff.1 h
    rfl
  | int64 =>
    obtain ⟨d, -, rfl⟩ := Option.map_eq_some_iff.1 h
    rfl
  | int =>
    obtain ⟨d, -, rfl⟩ := Option.map_eq_some_iff.1 h
    rfl
  | bool => exact Option.some.inj h ▸ hx (.inr rfl)
  | str => exact Option.some.inj h ▸ hx (.inl rfl)
  | arr => exact Option.some.inj h ▸ hx (.inl rfl)
  | hval => exact Option.some.inj h ▸ hx (.inl rfl)

/-- a type that is no number is the type of both -/
theorem common_cases (h : s.common t = some u) :
    (s.isArith = true ∧ t.isArith = true ∧ (u = .double ∨ u = .int64 ∨ u = .int)) ∨
      (u.isArith = false ∧ s = u ∧ t = u) := by
  unfold CTy.common at h
  split at h
  next ha =>
    obtain ⟨hs, ht⟩ := Bool.and_eq_true_iff.1 ha
    obtain rfl := Option.some.inj h
    refine .inl ⟨hs, ht, ?_⟩
    split
    · exact .inl rfl
    · split
      · exact .inr (.inl rfl)
      · exact .inr (.inr rfl)
  next ha =>
    split at h
    next hst =>
      obtain rfl := Option.some.inj h
      subst hst
      rw [Bool.and_self] at ha
      exact .inr ⟨Bool.eq_false_of_not_eq_true ha, rfl, rfl⟩
    · cases h

theorem typeOf_cond (h : (CExpr.cond c a b).typeOf = some u) :
    ∃ s t, a.typeOf = some s ∧ b.typeOf = some t ∧ s.common t = some u := by
  rw [CExpr.typeOf] at h
  split at h
  · obtain ⟨s, hs, h⟩ := Option.bind_eq_some_iff.1 h
    obtain ⟨t, ht, h⟩ := Option.bind_eq_some_iff.1 h
    exact ⟨s, t, hs, ht, h⟩
  · cases h

/-- **What an expression returns has its type.** -/
theorem eval_ty (ht : e.typeOf = some s) (h : e.eval rt = some x) : x.ty = s := by
  induction e generalizing s x with
  | val y =>
    cases h
    exact Option.some.inj ht
  | hv e ih =>
    obtain ⟨y, -, rfl⟩ := Option.map_eq_some_iff.1 h
    obtain ⟨-, -, rfl⟩ := Option.map_eq_some_iff.1 ht
    rfl
  | conv f e ih =>
    rw [CExpr.typeOf] at ht
    obtain ⟨v, -, rfl⟩ := Option.map_eq_some_iff.1 h
    split at ht
    · obtain rfl := Option.some.inj ht
      cases f <;> rfl
    · cases ht
  | box t e ih =>
    obtain ⟨v, -, rfl⟩ := Option.map_eq_some_iff.1 h
    obtain ⟨s', -, ht⟩ := Option.bind_eq_some_iff.1 ht
    split at ht
    · exact Option.some.inj ht
    · cases ht
  | cond c a b _ iha ihb =>
    obtain ⟨t, -, h⟩ := Option.bind_eq_some_iff.1 h
    obtain ⟨s', hs', h⟩ := Option.bind_eq_some_iff.1 h
    obtain rfl := Option.some.inj (ht.symm.trans hs')
    obtain ⟨sa, sb, ha, hb, hc⟩ := typeOf_cond ht
    obtain ⟨y, hy, h⟩ := Option.bind_eq_some_iff.1 h
    refine convert_ty h fun hs => ?_
    rcases common_cases hc with ⟨-, -, rfl | rfl | rfl⟩ | ⟨-, rfl, rfl⟩
    · rcases hs with hs | hs <;> cases hs
    · rcases hs with hs | hs <;> cases hs
    · rcases hs with hs | hs <;> cases hs
    · split at hy
      · exact iha ha hy
      · exact ihb hb hy
  | nullcoal a b iha ihb =>
    rw [CExpr.typeOf] at ht
    obtain ⟨v, -, h⟩ := Option.bind_eq_some_iff.1 h
    obtain ⟨w, -, rfl⟩ := Option.map_eq_some_iff.1 h
    split at ht
    · exact Option.some.inj ht
    · cases ht
  | matchAny e pats ih =>
    rw [CExpr.typeOf] at ht
    obtain ⟨v, -, rfl⟩ := Option.map_eq_some_iff.1 h
    split at ht
    · exact Option.some.inj ht
    · cases ht
  | noDefault => cases h

/-- a box of a type has its tag -/
theorem box_tag (h : p.box x = some v) (hk : p.tag = some k) : v.tag = k := by
  cases p with
  | int =>
    obtain ⟨i, -, rfl⟩ := Option.map_eq_some_iff.1 h
    exact Option.some.inj hk
  | float =>
    obtain ⟨i, -, rfl⟩ := Option.map_eq_some_iff.1 h
    exact Option.some.inj hk
  | bool =>
    obtain ⟨i, -, rfl⟩ := Option.map_eq_some_iff.1 h
    exact Option.some.inj hk
  | string =>
    cases x <;> cases h
    exact Option.some.inj hk
  | array e =>
    cases x <;> cases h
    exact Option.some.inj hk
  | mixed => cases hk

end

end Codegen
end HolyPhp
