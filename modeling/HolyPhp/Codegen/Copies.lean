import HolyPhp.Runtime.Owned
import HolyPhp.Sema.Ast

/-!
# Copies of arrays between names

A name is a slot of the emitted C: a variable, a parameter, a field, an entry of a closure's
environment.  Where a value goes from an expression to a name, the emitter writes a clone at some
forms, by the static types, and hands over the pointer at the others.  No writer of an array makes
a copy: `hp_arr_cow` copies where the reference count is above 1, and nothing raises it.

* `Form.clones`      where the emitter writes `hp_arr_clone`;
* `Cmd`, `step`      what the emitted code does to the names and the heap;
* `Write.run`        writes to elements through a name;
* `Separate`         no write through a name is seen through another;
* `Copied`           an array that a name or an element holds already is cloned, or stays there;
* `separate_of_copied`  **in every run whose steps are so, every state is `Separate`.**
-/

set_option autoImplicit false

namespace HolyPhp
namespace Copies
open Arr hiding hpArrClone
open Clone (hpArrClone)
open Held Owners Runs Function
open HolyPhp.Std (Heap)
open Sema (Ty)

/-! ## what is cloned -/

/-- `array`, `Vec`, `Map` or `Set` -/
def isArr : Ty → Bool
  | .array _ | .vec _ | .map _ _ | .set _ => true
  | _ => false

/-- the ways from an expression to a name -/
inductive Form where
  /-- `$x = e` -/
  | assign
  /-- `$x ??= e` -/
  | coalesce
  /-- `let $x = e` -/
  | let_
  /-- an argument of a declared function; the type of the parameter, if it has one -/
  | arg (param : Option Ty)
  /-- an argument of a method, a static method, a constructor or a closure -/
  | otherArg
  /-- a variable that a closure captures by value -/
  | capture
  /-- `$o->f = e` -/
  | field

/-- by the static type of the expression -/
def Form.clones : Form → Ty → Bool
  | .assign, t => isArr t
  | .arg (some param), t => isArr t && !param.isMixed
  | _, _ => false

/-! ## the machine -/

structure St where
  heap : Heap
  slots : Nat → Val

/-- an expression: a result that is no array, a result that nothing else holds (a slot that no
other command names), or `$x[k₁][k₂]..` -/
inductive Source where
  | value (v : Val) (no : ∀ q, v ≠ .arr (some q))
  | fresh (t : Nat)
  | place (x : Nat) (ks : List Val)

def Source.eval (s : St) : Source → Option (Val × St)
  | .value v _ => some (v, s)
  | .fresh t => some (s.slots t, { s with slots := update s.slots t .null })
  | .place x ks => (read s.heap (s.slots x) ks).map fun v => (v, s)

/-- a write to an element of `$x` or of `$x[k₁][k₂]..` -/
inductive Write where
  | set (ks : List Val) (k v : Val)
  | push (ks : List Val) (v : Val)
  | unset (k : Val)

/-- a new array with the name `x` -/
def St.alloc (s : St) (x : Nat) (a : Harr) : St :=
  ⟨s.heap ++ [a], update s.slots x (.arr (some s.heap.length))⟩

def St.modify (s : St) (p : Addr) (f : Harr → Option Harr) : Option St :=
  s.heap[p]?.bind fun a => (f a).map fun b => { s with heap := s.heap.set p b }

section
variable (junk : Nat → Val)

/-- `hp_arr_set_v`, `hp_arr_push_vv` and `hpbi_unset`; a push into null makes an array -/
def Write.run (x : Nat) (s : St) : Write → Option St
  | .set ks k v => (read s.heap (s.slots x) ks).bind fun
    | .arr (some p) => s.modify p fun a => hpArrSet a k v
    | _ => some s
  | .push ks v => (read s.heap (s.slots x) ks).bind fun
    | .arr (some p) => s.modify p fun a => some (hpArrPush a v)
    | .null => some (if ks = [] then s.alloc x (hpArrPush (hpArrNew junk) v) else s)
    | _ => some s
  | .unset k => match s.slots x with
    | .arr (some p) => s.modify p fun a => hpArrUnset a k
    | _ => some s

inductive Cmd where
  /-- a literal, before its elements -/
  | new (x : Nat) (isMap : Bool)
  | store (x : Nat) (form : Form) (type : Ty) (e : Source)
  | set (x : Nat) (ks : List Val) (k : Val) (e : Source)
  | push (x : Nat) (ks : List Val) (e : Source)
  | unset (x : Nat) (k : Val)

variable (fuel : Nat)

/-- `hp_arr_clone` of the value, where it is written; `fuel` bounds the nesting -/
def St.copy (clones : Bool) (v : Val) (s : St) : Option (Val × St) :=
  if clones then
    match v with
    | .arr (some p) => (hpArrClone junk fuel s.heap p).map fun (q, h) =>
        (.arr (some q), { s with heap := h })
    | _ => none
  else some (v, s)

def step (s : St) : Cmd → Option St
  | .new x isMap => some (s.alloc x { hpArrNew junk with isMap })
  | .store x form type e => (e.eval s).bind fun (v, s) =>
    (s.copy junk fuel (form.clones type) v).map fun (v, s) =>
      { s with slots := update s.slots x v }
  | .set x ks k e => (e.eval s).bind fun (v, s) => Write.run junk x s (.set ks k v)
  | .push x ks e => (e.eval s).bind fun (v, s) => Write.run junk x s (.push ks v)
  | .unset x k => Write.run junk x s (.unset k)

/-- at the start all names are null -/
def names : Sys St Cmd := ⟨fun s => s = ⟨[], fun _ => .null⟩, step junk fuel⟩

/-- a write through a name is not seen through another -/
def Separate (s : St) : Prop :=
  ∀ x y, x ≠ y → ∀ w t, Write.run junk x s w = some t →
    ∀ ks, read t.heap (t.slots y) ks = read s.heap (s.slots y) ks

end

/-! ## the condition -/

/-- the expression is an array that something holds already -/
def Source.Shares (s : St) : Source → Prop
  | .place x ks => ∃ q, read s.heap (s.slots x) ks = some (.arr (some q))
  | _ => False

/-- an array that something holds already goes to names by forms that clone it, and to no
element -/
def Copied (s : St) : Cmd → Prop
  | .store _ form type e => e.Shares s → form.clones type = true
  | .set _ _ _ e | .push _ _ e => ¬ e.Shares s
  | _ => True

/-! ## every array has one holder -/

section
variable {junk : Nat → Val} {fuel x y : Nat} {s t : St} {hw : Addr → Nat} {v w : Val}
  {e : Source} {ι : Type} {roots : ι → Val}

/-- a value that is no array may go along -/
theorem owned_aside (ho : Owned s.heap roots hw) (hv : ∀ q, v ≠ .arr (some q)) :
    Owned s.heap (Sum.elim roots fun _ : Unit => v) hw := by
  refine ho.move Sum.inl fun y q hy => ?_
  cases y with
  | inl i => exact ⟨i, hy, rfl⟩
  | inr u => exact absurd hy (hv q)

/-- the name takes the value -/
theorem owned_name (ho : Owned s.heap (Sum.elim s.slots fun _ : Unit => v) hw) (x : Nat) :
    Owned s.heap (update s.slots x v) hw := by
  refine ho.move (Sum.elim id fun _ => x) fun y q hy => ?_
  by_cases hyx : y = x
  · rw [hyx, update_self] at hy
    exact ⟨.inr (), hy, hyx.symm⟩
  · rw [update_of_ne hyx] at hy
    exact ⟨.inl y, hy, rfl⟩

/-- the value beside the names is dropped -/
theorem owned_drop (ho : Owned s.heap (Sum.elim s.slots fun _ : Unit => v) hw) :
    Owned s.heap s.slots hw :=
  ho.move (Sum.elim id fun _ => 0) fun y _ hy => ⟨.inl y, hy, rfl⟩

/-- the value of an expression that shares nothing has no holder -/
theorem eval_owned (ho : Owned s.heap s.slots hw) (he : ¬ e.Shares s)
    (h : e.eval s = some (v, t)) : Owned t.heap (Sum.elim t.slots fun _ : Unit => v) hw := by
  cases e with
  | value u no =>
    cases h
    exact owned_aside ho no
  | fresh x =>
    cases h
    refine ho.move (fun i => if i = x then .inr () else .inl i) fun y q hy => ?_
    cases y with
    | inl i =>
      by_cases hi : i = x
      · change update s.slots x .null i = _ at hy
        rw [hi, update_self] at hy
        cases hy
      · change update s.slots x .null i = _ at hy
        rw [update_of_ne hi] at hy
        exact ⟨i, hy, if_neg hi⟩
    | inr u => exact ⟨x, hy, if_pos rfl⟩
  | place x ks =>
    obtain ⟨u, hu, h⟩ := Option.map_eq_some_iff.mp h
    obtain ⟨rfl, rfl⟩ := Prod.mk.inj h
    exact owned_aside ho fun q hq => he ⟨q, hu.trans (congrArg some hq)⟩

theorem eval_keeps (ho : Owned s.heap s.slots hw) (h : e.eval s = some (v, t)) :
    Owned t.heap t.slots hw := by
  by_cases he : e.Shares s
  · cases e with
    | value u no => exact he.elim
    | fresh x => exact he.elim
    | place x ks =>
      obtain ⟨u, -, h⟩ := Option.map_eq_some_iff.mp h
      exact (Prod.mk.inj h).2 ▸ ho
  · exact owned_drop (eval_owned ho he h)

/-- a clone has no holder -/
theorem copy_owned (ho : Owned s.heap roots hw) (h : s.copy junk fuel true v = some (w, t)) :
    t.slots = s.slots ∧ ∃ hw', Owned t.heap (Sum.elim roots fun _ : Unit => w) hw' := by
  rw [St.copy.eq_def, if_pos rfl] at h
  split at h
  · obtain ⟨⟨q, h'⟩, hclone, h⟩ := Option.map_eq_some_iff.mp h
    obtain ⟨rfl, rfl⟩ := Prod.mk.inj h
    exact ⟨rfl, Owned.clone junk fuel _ _ _ _ _ _ _ hclone ho⟩
  · cases h

/-- a write to an element takes in a value that nothing holds -/
theorem modify_owned {p : Addr} {f : Harr → Option Harr}
    (ho : Owned s.heap (Sum.elim s.slots fun _ : Unit => v) hw)
    (hf : ∀ a b n, Bounded a n → f a = some b → ∃ m, Touched a b n m v)
    (h : s.modify p f = some t) : t.slots = s.slots ∧ ∃ hw', Owned t.heap t.slots hw' := by
  obtain ⟨a, ha, h⟩ := Option.bind_eq_some_iff.mp h
  obtain ⟨b, hb, rfl⟩ := Option.map_eq_some_iff.mp h
  obtain ⟨m, hm⟩ := hf a b _ (ho.bounded p a ha) hb
  exact ⟨rfl, _, ho.modify ha hm⟩

theorem alloc_owned {vs : Nat → Val} {a : Harr} {n : Nat} (x : Nat)
    (ho : Owned s.heap (Sum.elim s.slots vs) hw) (ha : Bounded a n)
    (hvals : ∀ i < n, a.vals i = vs i) : ∃ hw', Owned (s.alloc x a).heap (s.alloc x a).slots hw' :=
  ⟨_, owned_name (s := ⟨s.heap ++ [a], s.slots⟩) (ho.pack ha hvals) x⟩

/-- what a write puts in -/
def Write.value : Write → Val
  | .set _ _ v | .push _ v => v
  | .unset _ => .null

/-- an array without elements holds nothing -/
theorem bounded_new (junk : Nat → Val) : Bounded (hpArrNew junk) 0 :=
  ⟨Nat.le_refl 0, fun _ hx => nomatch hx⟩

theorem push_null_owned (ho : Owned s.heap (Sum.elim s.slots fun _ : Unit => v) hw) (x : Nat) :
    ∃ hw', Owned (s.alloc x (hpArrPush (hpArrNew junk) v)).heap
      (s.alloc x (hpArrPush (hpArrNew junk) v)).slots hw' := by
  have hpush := (bounded_new junk).push v
  -- the value goes to one place, so the others are null
  have hvs : Owned s.heap (Sum.elim s.slots fun i => if i = 0 then v else .null) hw := by
    refine ho.move (Sum.elim Sum.inl fun _ => Sum.inr 0) fun y q hy => ?_
    cases y with
    | inl y => exact ⟨.inl y, hy, rfl⟩
    | inr i =>
      change (if i = 0 then v else .null) = _ at hy
      split at hy
      · next hi => exact ⟨.inr (), hy, by rw [hi]; rfl⟩
      · cases hy
  refine alloc_owned (n := 1) x hvs hpush.bounded fun i hi => ?_
  rw [if_pos (Nat.lt_one_iff.mp hi)]
  exact (hpush.vals i hi).resolve_right fun ⟨j, hj, _⟩ => absurd hj (Nat.not_lt_zero j)

theorem write_owned (wr : Write)
    (ho : Owned s.heap (Sum.elim s.slots fun _ : Unit => wr.value) hw)
    (h : wr.run junk x s = some t) : ∃ hw', Owned t.heap t.slots hw' := by
  have hsame : ∃ hw', Owned s.heap s.slots hw' := ⟨hw, owned_drop ho⟩
  cases wr with
  | set ks k v =>
    obtain ⟨c, -, h⟩ := Option.bind_eq_some_iff.mp h
    split at h
    · exact (modify_owned ho (fun a b n ha hb => ha.set hb) h).2
    · exact Option.some.inj h ▸ hsame
  | push ks v =>
    obtain ⟨c, -, h⟩ := Option.bind_eq_some_iff.mp h
    split at h
    · refine (modify_owned ho (fun a b n ha hb => ?_) h).2
      exact ⟨_, Option.some.inj hb ▸ ha.push v⟩
    · rw [← Option.some.inj h]
      split
      · exact push_null_owned ho x
      · exact hsame
    · exact Option.some.inj h ▸ hsame
  | unset k =>
    rw [Write.run] at h
    split at h
    · exact (modify_owned ho (fun a b n ha hb => ⟨n, ha.unset hb⟩) h).2
    · exact Option.some.inj h ▸ hsame

/-! ## what a write leaves alone -/

theorem reach_lt {i : ι} {q : Addr} (ho : Owned s.heap roots hw)
    (h : Reach (Holds s.heap roots hw) i q) : q < s.heap.length := by
  cases h with
  | root hq => exact ho.range _ _ hq
  | node _ hq => exact ho.range _ _ hq

theorem modify_frame {p : Addr} {f : Harr → Option Harr} (ho : Owned s.heap s.slots hw)
    (hp : Reach (Holds s.heap s.slots hw) x p) (hxy : x ≠ y) (h : s.modify p f = some t)
    (ks : List Val) : read t.heap (t.slots y) ks = read s.heap (s.slots y) ks := by
  obtain ⟨a, -, h⟩ := Option.bind_eq_some_iff.mp h
  obtain ⟨b, -, rfl⟩ := Option.map_eq_some_iff.mp h
  refine read_congr ho (fun q hq => List.getElem?_set_ne ?_) ks (.root y)
  rintro rfl
  exact hxy (ho.unique.reach hp hq)

theorem alloc_frame (ho : Owned s.heap s.slots hw) (hxy : x ≠ y) (a : Harr) (ks : List Val) :
    read (s.alloc x a).heap ((s.alloc x a).slots y) ks = read s.heap (s.slots y) ks := by
  have hy : (s.alloc x a).slots y = s.slots y := update_of_ne (Ne.symm hxy) ..
  rw [hy]
  exact read_congr ho (fun q hq => List.getElem?_append_left (reach_lt ho hq)) ks (.root y)

/-- **Names that hold nothing together** are separate. -/
theorem separate_of_owned (ho : Owned s.heap s.slots hw) : Separate junk s := by
  intro x y hxy wr t h ks
  cases wr with
  | set path k v =>
    obtain ⟨c, hc, h⟩ := Option.bind_eq_some_iff.mp h
    split at h
    · exact modify_frame ho ((From.root x).read ho hc _ rfl) hxy h ks
    · rw [← Option.some.inj h]
  | push path v =>
    obtain ⟨c, hc, h⟩ := Option.bind_eq_some_iff.mp h
    split at h
    · exact modify_frame ho ((From.root x).read ho hc _ rfl) hxy h ks
    · rw [← Option.some.inj h]
      split
      · exact alloc_frame ho hxy _ ks
      · rfl
    · rw [← Option.some.inj h]
  | unset k =>
    rw [Write.run] at h
    split at h
    · next p hp => exact modify_frame ho (.root hp) hxy h ks
    · rw [← Option.some.inj h]

/-! ## the runs -/

theorem store_owned {form : Form} {type : Ty} (ho : Owned s.heap s.slots hw)
    (hc : e.Shares s → form.clones type = true)
    (h : step junk fuel s (.store x form type e) = some t) :
    ∃ hw', Owned t.heap t.slots hw' := by
  obtain ⟨⟨v, s₁⟩, he, h⟩ := Option.bind_eq_some_iff.mp h
  obtain ⟨⟨w, s₂⟩, hcopy, rfl⟩ := Option.map_eq_some_iff.mp h
  cases hf : form.clones type with
  | true =>
    rw [hf] at hcopy
    obtain ⟨hslots, hw', ho'⟩ := copy_owned (eval_keeps ho he) hcopy
    exact ⟨hw', owned_name (hslots ▸ ho') x⟩
  | false =>
    have hns : ¬ e.Shares s := fun hs => Bool.noConfusion (hf.symm.trans (hc hs))
    rw [hf] at hcopy
    cases hcopy
    exact ⟨hw, owned_name (eval_owned ho hns he) x⟩

/-- **A step** under the condition leaves no array with two holders. -/
theorem step_owned {c : Cmd} (ho : Owned s.heap s.slots hw) (hc : Copied s c)
    (h : step junk fuel s c = some t) : ∃ hw', Owned t.heap t.slots hw' := by
  cases c with
  | new x isMap =>
    rw [← Option.some.inj h]
    have hvs : Owned s.heap (Sum.elim s.slots fun _ : Nat => .null) hw := by
      refine ho.move Sum.inl fun y q hy => ?_
      cases y with
      | inl y => exact ⟨y, hy, rfl⟩
      | inr i => cases hy
    exact alloc_owned (n := 0) x hvs ⟨Nat.le_refl 0, fun _ hx => nomatch hx⟩ fun i hi => nomatch hi
  | store x form type e => exact store_owned ho hc h
  | set x ks k e =>
    obtain ⟨⟨v, s₁⟩, he, h⟩ := Option.bind_eq_some_iff.mp h
    exact write_owned (.set ks k v) (eval_owned ho hc he) h
  | push x ks e =>
    obtain ⟨⟨v, s₁⟩, he, h⟩ := Option.bind_eq_some_iff.mp h
    exact write_owned (.push ks v) (eval_owned ho hc he) h
  | unset x k =>
    change Write.run junk x s (.unset k) = some t at h
    have ho' : Owned s.heap (Sum.elim s.slots fun _ : Unit => Write.value (.unset k)) hw :=
      owned_aside ho (by simp [Write.value])
    exact write_owned (.unset k) ho' h

theorem owned_reach (hs : (names junk fuel).ReachIf Copied s) :
    ∃ hw, Owned s.heap s.slots hw := by
  refine hs.inv (I := fun s => ∃ hw, Owned s.heap s.slots hw) ?_ fun s c t ⟨hw, ho⟩ hc h =>
    step_owned ho hc h
  rintro s rfl
  have hno : ∀ x q, ¬ Holds [] (fun _ : Nat => .null) (fun _ => 0) x q := by
    intro x q hx
    cases x with
    | inl i => cases hx
    | inr p => obtain ⟨a, ha, -⟩ := hx; cases ha
  refine ⟨fun _ => 0, fun p a ha => ?_, fun x q hx => absurd hx (hno x q),
    fun x y q hx => absurd hx (hno x q)⟩
  cases ha

/-- **Every state of a run is separate**, if arrays that something holds are cloned. -/
theorem separate_of_copied (hs : (names junk fuel).ReachIf Copied s) : Separate junk s := by
  obtain ⟨hw, ho⟩ := owned_reach hs
  exact separate_of_owned ho

/-- `$x = []; $y = $x;` -/
theorem separate_assigned : ∃ s, (names blank 1).run ⟨[], fun _ => .null⟩
    [.new 0 false, .store 1 .assign (.array .int) (.place 0 [])] = some s ∧ Separate blank s := by
  have h0 : (names blank 1).ReachIf Copied ⟨[], fun _ => .null⟩ := .init rfl
  have h1 := h0.step (l := Cmd.new 0 false) trivial rfl
  have h2 := h1.step (l := Cmd.store 1 .assign (.array .int) (.place 0 [])) (fun _ => rfl) rfl
  exact ⟨_, rfl, separate_of_copied h2⟩

/-- a form that does not clone gives one array two names -/
theorem shared_of_plain (form : Form) (type : Ty) (hf : form.clones type = false) :
    ∃ s, (names blank 1).Reach s ∧ ¬ Separate blank s := by
  have h0 : (names blank 1).Reach ⟨[], fun _ => .null⟩ := .init rfl
  have h1 := h0.step (l := Cmd.new 0 false) rfl
  have h2 := h1.step (l := Cmd.store 1 form type (.place 0 []))
    (show (St.copy blank 1 (form.clones type) (.arr (some 0)) _).map _ = _ by rw [hf]; rfl)
  refine ⟨_, h2, fun h => ?_⟩
  have := h 0 1 (by decide) (.push [] (.int 1)) _ rfl [.int 0]
  cases this

/-- `let $y = $x; $x[] = 1;` is seen through `$y` -/
theorem let_shares : ¬ ∀ s, (names blank 1).Reach s → Separate blank s := by
  intro h
  obtain ⟨s, hs, hn⟩ := shared_of_plain .let_ (.array .int) rfl
  exact hn (h s hs)

end

end Copies
end HolyPhp
