import HolyPhp.Codegen.Virt
import HolyPhp.Json.DecodeSpec
import HolyPhp.Lib.Split

/-!
# The C names of functions, methods, shims and closures

The underscore stands between the parts of a name and in the parts.

* `mangleFn`, `mangleMethod`, `closureCName`  the names of `codegen.c`;
* `Source`, `entities`  what a program has that gets a name, `cName` the name;
* `Clash`               two of them have one name, in terms of the names in the source;
* `names_nodup_iff`     **the names are different if and only if no two of them clash.**
-/

set_option autoImplicit false

namespace HolyPhp
namespace Names
open Classes Json HolyPhp.Std

/-! ## names -/

/-- `_virt` -/
def virt : Bytes := [95, 118, 105, 114, 116]

def mangleFn (name : Bytes) : Bytes := ascii "hpu_" ++ name

def mangleMethod (cls name : Bytes) : Bytes := ascii "hpu_" ++ (cls ++ 95 :: name)

/-- 24 bits of the address of the `AstFn` -/
def closureCName (addr : Nat) : Bytes := ascii "closure_" ++ decimal (addr &&& 0xffffff)

/-! ## programs -/

/-- a program that sema accepts: names are not compared there -/
structure Source where
  program : Program
  className : Nat → Bytes
  functions : List Bytes
  /-- the addresses of the closures -/
  closures : List Nat

inductive Entity where
  | fn (name : Bytes)
  | method (cls name : Bytes)
  /-- the function that dispatches the calls of a method -/
  | shim (cls name : Bytes)
  | closure (addr : Nat)
  deriving DecidableEq

def cName : Entity → Bytes
  | .fn name => mangleFn name
  | .method cls name => mangleMethod cls name
  | .shim cls name => mangleMethod cls name ++ virt
  | .closure addr => closureCName addr

/-- `emit_class`: a method with a body, or a constructor -/
def isEmitted (m : AstFn) : Bool := m.name = construct || !m.isAbstract

/-- the functions of a class -/
def classEntities (S : Source) (c : Nat) : List Entity :=
  (((S.program.methods c).filter isEmitted).map fun m => .method (S.className c) m.name) ++
    ((S.program.methods c).filter (hasShim S.program c)).map fun m => .shim (S.className c) m.name

def entities (S : Source) : List Entity :=
  S.functions.map .fn ++
    ((List.range S.program.classes.length).flatMap (classEntities S) ++ S.closures.map .closure)

/-! ## clashes -/

/-- the names of two methods with their classes: they are the same, or the underscore of one stands
in the class of the other -/
def SameParts (c m c' m' : Bytes) : Prop :=
  (c = c' ∧ m = m') ∨ (∃ x, c' = c ++ 95 :: x ∧ m = x ++ 95 :: m') ∨
    ∃ x, c = c' ++ 95 :: x ∧ m' = x ++ 95 :: m

def Clash : Entity → Entity → Prop
  | .fn f, .fn g => f = g
  | .fn f, .method c m => f = c ++ 95 :: m
  | .method c m, .fn f => f = c ++ 95 :: m
  | .fn f, .shim c m => f = c ++ 95 :: (m ++ virt)
  | .shim c m, .fn f => f = c ++ 95 :: (m ++ virt)
  | .method c m, .method c' m' => SameParts c m c' m'
  | .method c m, .shim c' m' => SameParts c m c' (m' ++ virt)
  | .shim c m, .method c' m' => SameParts c' m' c (m ++ virt)
  | .shim c m, .shim c' m' => SameParts c m c' m'
  | .closure a, .closure b => a % 2 ^ 24 = b % 2 ^ 24
  | .closure _, _ => False
  | _, .closure _ => False

theorem mangleMethod_inj {c m c' m' : Bytes} :
    mangleMethod c m = mangleMethod c' m' ↔ SameParts c m c' m' := by
  rw [mangleMethod, mangleMethod, List.append_cancel_left_eq, Substr.append_cons_eq]
  exact Iff.rfl

theorem mangleFn_eq_method {f c m : Bytes} :
    mangleFn f = mangleMethod c m ↔ f = c ++ 95 :: m := by
  rw [mangleFn, mangleMethod, List.append_cancel_left_eq]

theorem mangleFn_inj {f g : Bytes} : mangleFn f = mangleFn g ↔ f = g := by
  rw [mangleFn, mangleFn, List.append_cancel_left_eq]

theorem cName_shim (c m : Bytes) : cName (.shim c m) = mangleMethod c (m ++ virt) := by
  rw [cName, mangleMethod, mangleMethod, List.append_assoc, List.append_assoc, List.cons_append]

theorem decimal_inj {a b : Nat} : decimal a = decimal b ↔ a = b := by
  refine ⟨fun h => ?_, congrArg decimal⟩
  rw [← leadingNat_decimal a, h, leadingNat_decimal]

theorem closureCName_inj {a b : Nat} :
    closureCName a = closureCName b ↔ a % 2 ^ 24 = b % 2 ^ 24 := by
  rw [closureCName, closureCName, List.append_cancel_left_eq, decimal_inj]
  have h : ∀ n : Nat, n &&& 0xffffff = n % 2 ^ 24 := fun n => Nat.and_two_pow_sub_one_eq_mod n 24
  rw [h, h]

/-- a closure begins with another letter -/
theorem closureCName_ne {a : Nat} {s : Bytes} : closureCName a ≠ ascii "hpu_" ++ s := by
  intro h
  have h0 := congrArg List.head? h
  rw [closureCName, List.head?_append_of_ne_nil _ (by decide),
    List.head?_append_of_ne_nil _ (by decide)] at h0
  exact absurd h0 (by decide)

theorem cName_eq_iff (a b : Entity) : cName a = cName b ↔ Clash a b := by
  cases a with
  | fn f =>
    cases b with
    | fn g => exact mangleFn_inj
    | method c m => exact mangleFn_eq_method
    | shim c m =>
      rw [cName_shim]
      exact mangleFn_eq_method
    | closure a => exact iff_of_false (fun h => closureCName_ne h.symm) id
  | method c m =>
    cases b with
    | fn g => exact eq_comm.trans mangleFn_eq_method
    | method c' m' => exact mangleMethod_inj
    | shim c' m' =>
      rw [cName_shim]
      exact mangleMethod_inj
    | closure a => exact iff_of_false (fun h => closureCName_ne h.symm) id
  | shim c m =>
    cases b with
    | fn g =>
      rw [cName_shim]
      exact eq_comm.trans mangleFn_eq_method
    | method c' m' =>
      rw [cName_shim]
      exact eq_comm.trans mangleMethod_inj
    | shim c' m' =>
      show mangleMethod c m ++ virt = mangleMethod c' m' ++ virt ↔ _
      rw [List.append_cancel_right_eq]
      exact mangleMethod_inj
    | closure a =>
      rw [cName_shim]
      exact iff_of_false (fun h => closureCName_ne h.symm) id
  | closure a =>
    cases b with
    | fn g => exact iff_of_false closureCName_ne id
    | method c m => exact iff_of_false closureCName_ne id
    | shim c m =>
      rw [cName_shim]
      exact iff_of_false closureCName_ne id
    | closure b => exact closureCName_inj

/-- **The C names of a program.** -/
theorem names_nodup_iff (S : Source) :
    ((entities S).map cName).Nodup ↔ (entities S).Pairwise fun a b => ¬ Clash a b := by
  rw [List.Nodup, List.pairwise_map]
  have h : ∀ a b, cName a ≠ cName b ↔ ¬ Clash a b := fun a b => not_congr (cName_eq_iff a b)
  simp only [h]

/-- `class A { pub fn f() {} }` and `function A_f() {}` -/
def twoOfOneName : Source where
  program :=
    { classes := [⟨none, [], [⟨[102], false, false, 0⟩]⟩]
      rank := fun _ => 0
      acyclic := by
        intro c d h
        cases c with
        | zero => cases h
        | succ c => cases h
      declared := by
        intro c d h
        cases c with
        | zero => cases h
        | succ c => cases h }
  className _ := [65]
  functions := [[65, 95, 102]]
  closures := []

/-- both are `hpu_A_f` -/
theorem two_of_one_name :
    (entities twoOfOneName).map cName = [ascii "hpu_A_f", ascii "hpu_A_f"] ∧
      ¬ ((entities twoOfOneName).map cName).Nodup := by
  have h : (entities twoOfOneName).map cName = [ascii "hpu_A_f", ascii "hpu_A_f"] := rfl
  refine ⟨h, ?_⟩
  rw [h]
  exact fun hn => (List.nodup_cons.1 hn).1 List.mem_cons_self

end Names
end HolyPhp
