import HolyPhp.Lib.Sections
import HolyPhp.Runtime.Value
import Mathlib.Data.List.Find

/-!
# Shared counters: `hpbi_atomic_new`, `_get`, `_set`, `_add`, `_cas`

All five work under `g_at_reg`.  `g_at` is an array that `realloc` moves: a pointer is a storage
and an index in it, as in `Thread.Mutex`, and here it never leaves the section that found it.

* `hpbiAtomic o`  the section of the call `o`, one step for each access to the memory;
* `exec`          what the call is for: a counter for each id;
* `sections_exec` a section does what the call is for;
* `atomic_refines`  so do all calls of all threads, each at one point;
* `counter_total` if all write to a counter through `add`, no addition is lost;
* `tickets`       `add(id, 1)` hands out consecutive numbers, each of them once;
* `cas_once`      of the `cas` that expect the same value one wins.

The end of the process when memory runs out is left out, and the counters are modulo `2 ^ 64`.
-/

set_option autoImplicit false

namespace HolyPhp
namespace Atomic
open Function Runs Sections

/-! ## the calls -/

abbrev Ptr := Nat × Nat

structure AtRec where
  id : Int64
  v : Int64
  deriving DecidableEq

/-- `g_at` in the storage `gen`, `g_at_len`, `g_at_cap`, `g_at_next` -/
structure Mem where
  gen : Nat
  cell : Nat → Nat → AtRec
  len : Nat
  cap : Nat
  next : Int64

/-- a call and its arguments -/
inductive Op where
  | new (init : HVal Bytes)
  | get (idv : HVal Bytes)
  | set (idv v : HVal Bytes)
  | add (idv delta : HVal Bytes)
  | cas (idv expect set : HVal Bytes)
  deriving DecidableEq

/-- the local variables: `AtRec *a`, `int64_t v` (`old`, `id`), `bool ok` -/
structure Regs where
  a : Option Ptr
  v : Int64
  ok : Bool

namespace Mem

def deref (m : Mem) (p : Ptr) : AtRec := m.cell p.1 p.2

def write (m : Mem) (p : Ptr) (r : AtRec) : Mem :=
  { m with cell := update m.cell p.1 (update (m.cell p.1) p.2 r) }

end Mem

def atRec (m : Mem) (i : Int64) : Option Ptr :=
  ((List.range m.len).find? fun k => (m.cell m.gen k).id == i).map fun k => (m.gen, k)

/-- a step of a section -/
abbrev Step := Mem × Regs → Mem × Regs

/-- `a = at_rec(id)` -/
def find (idv : HVal Bytes) : Step := fun x => (x.1, { x.2 with a := atRec x.1 (hpValToInt idv) })

/-- `v = a ? a->v : 0` -/
def load : Step := fun x =>
  (x.1, { x.2 with
    v := match x.2.a with
      | some p => (x.1.deref p).v
      | none => 0 })

/-- `ok = a && a->v == e` -/
def equals (e : Int64) : Step := fun x =>
  (x.1, { x.2 with
    ok := match x.2.a with
      | some p => (x.1.deref p).v == e
      | none => false })

/-- `if (c && a) a->v = v` -/
def store (c : Regs → Bool) (v : Regs → Int64) : Step := fun x =>
  match x.2.a with
  | some p => if c x.2 then (x.1.write p { x.1.deref p with v := v x.2 }, x.2) else x
  | none => x

/-- `g_at_cap = g_at_cap ? g_at_cap * 2 : 8; g_at = realloc(..)` -/
def grow : Step := fun x =>
  let m := x.1
  if m.len = m.cap then
    ({ m with
      gen := m.gen + 1
      cell := update m.cell (m.gen + 1) (m.cell m.gen)
      cap := if m.cap = 0 then 8 else m.cap * 2 }, x.2)
  else x

/-- `a = &g_at[g_at_len++]` -/
def append : Step := fun x =>
  ({ x.1 with len := x.1.len + 1 }, { x.2 with a := some (x.1.gen, x.1.len) })

/-- `a->id = g_at_next++` -/
def nameIt : Step := fun x =>
  match x.2.a with
  | some p => ({ x.1.write p { x.1.deref p with id := x.1.next } with next := x.1.next + 1 }, x.2)
  | none => x

/-- `id = a->id` -/
def readId : Step := fun x =>
  match x.2.a with
  | some p => (x.1, { x.2 with v := (x.1.deref p).id })
  | none => x

def hpbiAtomicNew (init : HVal Bytes) : List Step :=
  [grow, append, nameIt, store (fun _ => true) (fun _ => hpValToInt init), readId]

def hpbiAtomicGet (idv : HVal Bytes) : List Step := [find idv, load]

def hpbiAtomicSet (idv v : HVal Bytes) : List Step :=
  [find idv, store (fun _ => true) fun _ => hpValToInt v]

def hpbiAtomicAdd (idv delta : HVal Bytes) : List Step :=
  [find idv, load, store (fun _ => true) fun r => r.v + hpValToInt delta]

def hpbiAtomicCas (idv expect set : HVal Bytes) : List Step :=
  [find idv, equals (hpValToInt expect), store Regs.ok fun _ => hpValToInt set]

def hpbiAtomic : Op → List Step
  | .new init => hpbiAtomicNew init
  | .get idv => hpbiAtomicGet idv
  | .set idv v => hpbiAtomicSet idv v
  | .add idv delta => hpbiAtomicAdd idv delta
  | .cas idv expect set => hpbiAtomicCas idv expect set

/-- what the call returns, after the unlock -/
def result : Op → Regs → HVal Bytes
  | .new _, r => .int r.v
  | .get _, r => .int r.v
  | .set _ _, r => .bool r.a.isSome
  | .add _ _, r => .int r.v
  | .cas _ _ _, r => .bool r.ok

def atomics : Object Mem Regs Op (HVal Bytes) where
  enter _ := ⟨none, 0, false⟩
  body := hpbiAtomic
  answer := result

/-- the registry before the first call; what its storage holds is not known -/
def Start (m : Mem) : Prop := m.gen = 0 ∧ m.len = 0 ∧ m.cap = 0 ∧ m.next = 1

/-! ## what the calls are for -/

/-- the counter of each id, and the next id -/
structure Counters where
  val : Int64 → Option Int64
  next : Int64

def Counters.put (c : Counters) (i v : Int64) : Counters :=
  { c with val := update c.val i (some v) }

def exec : Spec Counters Op (HVal Bytes)
  | .new init, c =>
    -- an id that came round again stays with its first counter
    ({ (if (c.val c.next).isSome then c else c.put c.next (hpValToInt init)) with
        next := c.next + 1 }, .int c.next)
  | .get idv, c => (c, .int ((c.val (hpValToInt idv)).getD 0))
  | .set idv v, c =>
    match c.val (hpValToInt idv) with
    | some _ => (c.put (hpValToInt idv) (hpValToInt v), .bool true)
    | none => (c, .bool false)
  | .add idv delta, c =>
    match c.val (hpValToInt idv) with
    | some x => (c.put (hpValToInt idv) (x + hpValToInt delta), .int x)
    | none => (c, .int 0)
  | .cas idv expect set, c =>
    match c.val (hpValToInt idv) with
    | some x =>
      if x = hpValToInt expect then (c.put (hpValToInt idv) (hpValToInt set), .bool true)
      else (c, .bool false)
    | none => (c, .bool false)

/-- what the registry stands for -/
def counters (m : Mem) : Counters where
  val i := (atRec m i).map fun p => (m.deref p).v
  next := m.next

/-! ## lemmas on the registry -/

theorem atRec_some {m : Mem} {i : Int64} {p : Ptr} (h : atRec m i = some p) :
    p.1 = m.gen ∧ p.2 < m.len ∧ (m.deref p).id = i := by
  obtain ⟨k, hk, rfl⟩ := Option.map_eq_some_iff.1 h
  have hm := List.mem_of_find?_eq_some hk
  have hid := List.find?_some hk
  exact ⟨rfl, List.mem_range.1 hm, beq_iff_eq.1 hid⟩

theorem write_self (m : Mem) (p : Ptr) (r : AtRec) : (m.write p r).deref p = r := by
  show update m.cell p.1 (update (m.cell p.1) p.2 r) p.1 p.2 = r
  rw [update_self, update_self]

theorem write_other (m : Mem) {p q : Ptr} (r : AtRec) (h : q ≠ p) :
    (m.write p r).deref q = m.deref q := by
  show update m.cell p.1 (update (m.cell p.1) p.2 r) q.1 q.2 = m.cell q.1 q.2
  by_cases e : q.1 = p.1
  · have e2 : q.2 ≠ p.2 := fun e2 => h (Prod.ext e e2)
    rw [e, update_self, update_of_ne e2]
  · rw [update_of_ne e]

theorem val_some {m : Mem} {i : Int64} {p : Ptr} (h : atRec m i = some p) :
    (counters m).val i = some (m.deref p).v := by
  show (atRec m i).map _ = _
  rw [h]
  rfl

theorem val_none {m : Mem} {i : Int64} (h : atRec m i = none) : (counters m).val i = none := by
  show (atRec m i).map _ = _
  rw [h]
  rfl

/-- a write that keeps the id moves no record -/
theorem atRec_write (m : Mem) (p : Ptr) (v i : Int64) :
    atRec (m.write p { m.deref p with v := v }) i = atRec m i := by
  have hid : ∀ q, ((m.write p { m.deref p with v := v }).deref q).id = (m.deref q).id := by
    intro q
    by_cases e : q = p
    · rw [e, write_self]
    · rw [write_other m _ e]
  unfold atRec
  congr 2
  exact funext fun k => congrArg (· == i) (hid (m.gen, k))

theorem counters_write {m : Mem} {i : Int64} {p : Ptr} (h : atRec m i = some p) (v : Int64) :
    counters (m.write p { m.deref p with v := v }) = (counters m).put i v := by
  obtain ⟨_, _, hid⟩ := atRec_some h
  refine Counters.mk.injEq .. |>.mpr ⟨funext fun j => ?_, rfl⟩
  show (atRec (m.write p _) j).map _ = update (counters m).val i (some v) j
  rw [atRec_write]
  by_cases e : j = i
  · subst e
    rw [update_self, h, Option.map_some, write_self]
  · rw [update_of_ne e]
    refine Option.map_congr fun q hq => ?_
    have hne : q ≠ p := by
      intro e'
      subst e'
      exact e ((atRec_some hq).2.2.symm.trans hid)
    rw [write_other m _ hne]

theorem counters_grow (m : Mem) (r : Regs) :
    counters (grow (m, r)).1 = counters m ∧ (grow (m, r)).2 = r := by
  unfold grow
  dsimp only
  by_cases h : m.len = m.cap
  · rw [if_pos h]
    refine ⟨Counters.mk.injEq .. |>.mpr ⟨funext fun i => ?_, rfl⟩, rfl⟩
    simp only [atRec, Mem.deref, update_self, Option.map_map]
    refine Option.map_congr fun k _ => ?_
    simp only [comp_apply, update_self]
  · rw [if_neg h]
    exact ⟨rfl, rfl⟩

theorem write_write (m : Mem) (p : Ptr) (r r' : AtRec) :
    (m.write p r).write p r' = m.write p r' := by
  unfold Mem.write
  simp only [update_self, update_idem]

/-- the memory behind `hpbi_atomic_new` in an array that is not full -/
def placed (m : Mem) (v : Int64) : Mem :=
  { m.write (m.gen, m.len) ⟨m.next, v⟩ with len := m.len + 1, next := m.next + 1 }

theorem new_eq (m : Mem) (r : Regs) (v : Int64) :
    let x := runs [append, nameIt, store (fun _ => true) (fun _ => v), readId] (m, r)
    x.1 = placed m v ∧ x.2.v = m.next := by
  let m' : Mem := { m with len := m.len + 1 }
  let m1 : Mem := { m'.write (m.gen, m.len) { m'.deref (m.gen, m.len) with id := m.next } with
    next := m.next + 1 }
  have h1 : m1.deref (m.gen, m.len) = { m.deref (m.gen, m.len) with id := m.next } :=
    write_self m' _ _
  have h2 : m1.write (m.gen, m.len) { m1.deref (m.gen, m.len) with v := v } = placed m v := by
    rw [h1]
    exact congrArg (fun w : Mem => { w with len := m.len + 1, next := m.next + 1 })
      (write_write m (m.gen, m.len) _ _)
  refine ⟨h2, ?_⟩
  show (Mem.deref (m1.write (m.gen, m.len) { m1.deref (m.gen, m.len) with v := v })
    (m.gen, m.len)).id = m.next
  rw [write_self, h1]

theorem placed_old (m : Mem) (v : Int64) {k : Nat} (hk : k < m.len) :
    (placed m v).deref (m.gen, k) = m.deref (m.gen, k) :=
  write_other m _ fun e => Nat.ne_of_lt hk (congrArg Prod.snd e)

/-- the new record is found behind all the others -/
theorem atRec_placed (m : Mem) (v i : Int64) :
    atRec (placed m v) i =
      (atRec m i).or (if m.next = i then some (m.gen, m.len) else none) := by
  have hold : (List.range m.len).find? (fun k => ((placed m v).deref (m.gen, k)).id == i) =
      (List.range m.len).find? fun k => (m.deref (m.gen, k)).id == i := by
    refine List.find?_congr fun k hk => ?_
    rw [placed_old m v (List.mem_range.1 hk)]
  have hnew : ((placed m v).deref (m.gen, m.len)).id = m.next :=
    congrArg AtRec.id (write_self m (m.gen, m.len) _)
  show ((List.range (m.len + 1)).find? fun k => ((placed m v).deref (m.gen, k)).id == i).map _ = _
  rw [List.range_succ, List.find?_append, hold, Option.map_or]
  congr 1
  rw [List.find?_singleton, hnew]
  by_cases h : m.next = i
  · rw [if_pos h, if_pos (beq_iff_eq.2 h)]
    rfl
  · rw [if_neg h, if_neg (by simpa using h)]
    rfl

theorem counters_placed (m : Mem) (v : Int64) :
    counters (placed m v) =
      { (if ((counters m).val m.next).isSome then counters m else (counters m).put m.next v) with
        next := m.next + 1 } := by
  have hsome : ((counters m).val m.next).isSome = (atRec m m.next).isSome := Option.isSome_map
  have hold : ∀ i p, atRec m i = some p →
      ((placed m v).deref p).v = (m.deref p).v := by
    intro i p hp
    obtain ⟨hg, hk, _⟩ := atRec_some hp
    obtain ⟨g, k⟩ := p
    obtain rfl : g = m.gen := hg
    rw [placed_old m v hk]
  refine Counters.mk.injEq .. |>.mpr ⟨funext fun i => ?_, rfl⟩
  show (atRec (placed m v) i).map (fun p => ((placed m v).deref p).v) = _
  rw [atRec_placed, hsome]
  cases h : atRec m i with
  | some p =>
    rw [Option.some_or, Option.map_some, hold i p h]
    by_cases hs : (atRec m m.next).isSome = true
    · rw [if_pos hs, val_some h]
    · have hne : i ≠ m.next := by
        intro e
        exact hs (by rw [← e, h]; rfl)
      rw [if_neg hs]
      exact ((update_of_ne hne _ _).trans (val_some h)).symm
  | none =>
    rw [Option.none_or]
    by_cases e : m.next = i
    · subst e
      rw [if_pos rfl, h, if_neg (by simp), Option.map_some]
      show some ((m.write (m.gen, m.len) ⟨m.next, v⟩).deref (m.gen, m.len)).v = _
      rw [write_self]
      exact (update_self (f := (counters m).val) ..).symm
    · rw [if_neg e]
      by_cases hs : (atRec m m.next).isSome = true
      · rw [if_pos hs, val_none h]
        rfl
      · rw [if_neg hs]
        exact ((update_of_ne (Ne.symm e) _ _).trans (val_none h)).symm

/-- **A section does what the call is for.** -/
theorem sections_exec (op : Op) (m : Mem) :
    exec op (counters m) = (counters (atomics.exec op m).1, (atomics.exec op m).2) := by
  cases op with
  | new init =>
    obtain ⟨h1, h2⟩ := counters_grow m (atomics.enter (.new init))
    obtain ⟨h3, h4⟩ := new_eq (grow (m, atomics.enter (.new init))).1
      (grow (m, atomics.enter (.new init))).2 (hpValToInt init)
    have hn : (grow (m, atomics.enter (.new init))).1.next = m.next :=
      congrArg Counters.next h1
    refine Prod.ext ?_ ?_
    · refine Eq.trans ?_ (congrArg counters h3).symm
      rw [counters_placed, h1, hn]
      rfl
    · exact congrArg HVal.int (h4.trans hn).symm
  | get idv =>
    cases h : atRec m (hpValToInt idv) with
    | some p =>
      simp only [exec, val_some h, Object.exec, atomics, hpbiAtomic, hpbiAtomicGet, runs, find,
        load, result, h, List.foldl_cons, List.foldl_nil, Option.getD_some]
    | none =>
      simp only [exec, val_none h, Object.exec, atomics, hpbiAtomic, hpbiAtomicGet, runs, find,
        load, result, h, List.foldl_cons, List.foldl_nil, Option.getD_none]
  | set idv v =>
    cases h : atRec m (hpValToInt idv) with
    | some p =>
      simp only [exec, val_some h, Object.exec, atomics, hpbiAtomic, hpbiAtomicSet, runs, find,
        store, result, h, List.foldl_cons, List.foldl_nil, if_true, counters_write h,
        Option.isSome_some]
    | none =>
      simp only [exec, val_none h, Object.exec, atomics, hpbiAtomic, hpbiAtomicSet, runs, find,
        store, result, h, List.foldl_cons, List.foldl_nil, Option.isSome_none]
  | add idv delta =>
    cases h : atRec m (hpValToInt idv) with
    | some p =>
      simp only [exec, val_some h, Object.exec, atomics, hpbiAtomic, hpbiAtomicAdd, runs, find,
        load, store, result, h, List.foldl_cons, List.foldl_nil, if_true, counters_write h]
    | none =>
      simp only [exec, val_none h, Object.exec, atomics, hpbiAtomic, hpbiAtomicAdd, runs, find,
        load, store, result, h, List.foldl_cons, List.foldl_nil]
  | cas idv expect set =>
    cases h : atRec m (hpValToInt idv) with
    | some p =>
      by_cases e : (m.deref p).v = hpValToInt expect
      · simp only [exec, val_some h, Object.exec, atomics, hpbiAtomic, hpbiAtomicCas, runs, find,
          equals, store, result, h, List.foldl_cons, List.foldl_nil, e, beq_self_eq_true, if_true,
          counters_write h]
      · have hb : ((m.deref p).v == hpValToInt expect) = false := beq_eq_false_iff_ne.2 e
        simp only [exec, val_some h, Object.exec, atomics, hpbiAtomic, hpbiAtomicCas, runs, find,
          equals, store, result, h, List.foldl_cons, List.foldl_nil, hb, if_neg e,
          Bool.false_eq_true, if_false]
    | none =>
      simp only [exec, val_none h, Object.exec, atomics, hpbiAtomic, hpbiAtomicCas, runs, find,
        equals, store, result, h, List.foldl_cons, List.foldl_nil]

/-! ## all calls of all threads -/

/-- **Every call happens at one point between its start and its return**, whatever the order in
which the threads read and write the registry. -/
theorem atomic_refines {s : State Mem Regs Op (HVal Bytes)}
    (hs : (sys atomics Start).Reach s) :
    ∃ a, (atomic exec (· = ⟨fun _ => none, 1⟩)).Reach a ∧ a.hist = s.hist ∧
      ((∀ t, s.pc t = .idle) → a.mem = counters s.mem) := by
  have hs' : (sys atomics Start).ReachIf (Only fun _ => True) s := by
    refine hs.mono fun _ l _ => ?_
    cases l <;> trivial
  have hstart : ∀ m, Start m → counters m = ⟨fun _ => none, 1⟩ := by
    rintro m ⟨_, hlen, _, hnext⟩
    refine Counters.mk.injEq .. |>.mpr ⟨funext fun i => val_none ?_, hnext⟩
    unfold atRec
    rw [hlen]
    rfl
  obtain ⟨a, ha, hr⟩ := atomics.refines (J := (· = ⟨fun _ => none, 1⟩)) sections_exec hstart hs'
  refine ⟨a, ha.reach, hr.hist, fun h => ?_⟩
  rw [hr.mem, settled_rest sections_exec hs' h]

/-- a whole call of thread `t` -/
def whole (t : Nat) (op : Op) : List (Act Op) :=
  [.call t op, .lock t] ++ (hpbiAtomic op).map (fun _ => .micro t) ++ [.unlock t, .ret t]

/-- two threads make the call at the same time; the second one is served first -/
def twice (op : Op) : List (Act Op) :=
  .call 0 op :: whole 1 op ++ (whole 0 op).tail

/-- the state behind the steps -/
def after (m : Mem) (l : List (Act Op)) : State Mem Regs Op (HVal Bytes) :=
  ((sys atomics fun _ => True).run (start m) l).getD (start m)

theorem twice_only {P : Op → Prop} {op : Op} (h : P op) :
    ∀ l ∈ twice op, ∀ s : State Mem Regs Op (HVal Bytes), Only P s l := by
  intro l hl s
  cases l with
  | call t op' =>
    have heq : op' = op := by
      simp [twice, whole] at hl
      rcases hl with ⟨_, h⟩ | ⟨_, h⟩ <;> exact h
    exact heq ▸ h
  | _ => trivial

theorem reach_after {P : Op → Prop} {I : Mem → Prop} {m : Mem} {op : Op} (hI : I m) (hP : P op)
    (h : (sys atomics I).run (start m) (twice op) = some (after m (twice op))) :
    (sys atomics I).ReachIf (Only P) (after m (twice op)) :=
  Sys.ReachIf.run (.init ⟨m, hI, rfl⟩) (twice_only hP) h

theorem atomic_refines_new :
    ∃ a, (atomic exec (· = ⟨fun _ => none, 1⟩)).Reach a ∧
      a.hist = [.call 0 (.new .null), .call 1 (.new .null), .ret 1 (.new .null) (.int 1),
        .ret 0 (.new .null) (.int 2)] := by
  have hs : (sys atomics Start).Reach
      (after ⟨0, fun _ _ => ⟨0, 0⟩, 0, 0, 1⟩ (twice (.new .null))) :=
    (reach_after (P := fun _ => True) ⟨rfl, rfl, rfl, rfl⟩ trivial rfl).reach
  obtain ⟨a, h1, h2, _⟩ := atomic_refines hs
  exact ⟨a, h1, h2⟩

/-! ## counters that only grow -/

/-- the counter that a call may write to -/
def Op.target : Op → Option Int64
  | .new _ => none
  | .get _ => none
  | .set idv _ => some (hpValToInt idv)
  | .add idv _ => some (hpValToInt idv)
  | .cas idv _ _ => some (hpValToInt idv)

/-- nothing but `add` writes to counter `i` -/
def AddsTo (i : Int64) (op : Op) : Prop :=
  op.target = some i → ∃ idv delta, op = .add idv delta

/-- counter `i` is written to by `add` of 1 only -/
def CountsIn (i : Int64) (op : Op) : Prop :=
  op.target = some i → ∃ idv delta, op = .add idv delta ∧ hpValToInt delta = 1

/-- counter `i` is written to by `cas` only, and every `cas` replaces `e` by another value -/
def RacesFor (i e : Int64) (op : Op) : Prop :=
  op.target = some i →
    ∃ idv expect set, op = .cas idv expect set ∧ hpValToInt expect = e ∧ hpValToInt set ≠ e

/-- the additions to counter `i` and their answers -/
def addsOf (i : Int64) (l : List (Nat × Op × HVal Bytes)) : List (Int64 × HVal Bytes) :=
  l.filterMap fun
    | (_, .add idv delta, x) => if hpValToInt idv = i then some (hpValToInt delta, x) else none
    | _ => none

/-- the `cas` on counter `i` that returned true: the thread and the new value -/
def winsOf (i : Int64) (l : List (Nat × Op × HVal Bytes)) : List (Nat × Int64) :=
  l.filterMap fun
    | (t, .cas idv _ set, x) =>
      if hpValToInt idv = i ∧ x = .bool true then some (t, hpValToInt set) else none
    | _ => none

def total (v : Int64) (l : List (Int64 × HVal Bytes)) : Int64 := l.foldl (fun y e => y + e.1) v

/-- a call that may not write to the counter leaves it -/
theorem exec_other {i x : Int64} {op : Op} {c : Counters} (h : op.target ≠ some i)
    (hx : c.val i = some x) : (exec op c).1.val i = some x := by
  have hput : ∀ idv : HVal Bytes, some (hpValToInt idv) ≠ some i → ∀ y,
      (c.put (hpValToInt idv) y).val i = some x := by
    intro idv hne y
    exact (update_of_ne (fun e => hne (congrArg some e.symm)) _ _).trans hx
  cases op with
  | new init =>
    show (if (c.val c.next).isSome then c else c.put c.next (hpValToInt init)).val i = some x
    by_cases hs : (c.val c.next).isSome = true
    · rw [if_pos hs, hx]
    · have hne : i ≠ c.next := by
        intro e
        exact hs (by rw [← e, hx]; rfl)
      rw [if_neg hs]
      exact (update_of_ne hne _ _).trans hx
  | get idv => exact hx
  | set idv v =>
    simp only [exec]
    split
    · exact hput idv h _
    · exact hx
  | add idv delta =>
    simp only [exec]
    split
    · exact hput idv h _
    · exact hx
  | cas idv expect set =>
    simp only [exec]
    split
    · split
      · exact hput idv h _
      · exact hx
    · exact hx

theorem exec_add {i x : Int64} {idv delta : HVal Bytes} {c : Counters} (h : hpValToInt idv = i)
    (hx : c.val i = some x) :
    exec (.add idv delta) c = (c.put i (x + hpValToInt delta), .int x) := by
  simp only [exec, h, hx]

theorem put_val (c : Counters) (i v : Int64) : (c.put i v).val i = some v := update_self ..

theorem addsOf_other {i : Int64} {op : Op} (h : op.target ≠ some i) (t : Nat) (x : HVal Bytes)
    (l : List (Nat × Op × HVal Bytes)) : addsOf i ((t, op, x) :: l) = addsOf i l := by
  cases op with
  | add idv delta =>
    have hne : hpValToInt idv ≠ i := fun e => h (congrArg some e)
    exact List.filterMap_cons_none (if_neg hne)
  | _ => rfl

theorem addsOf_add {i : Int64} {idv : HVal Bytes} (h : hpValToInt idv = i) (t : Nat)
    (delta x : HVal Bytes) (l : List (Nat × Op × HVal Bytes)) :
    addsOf i ((t, .add idv delta, x) :: l) = (hpValToInt delta, x) :: addsOf i l :=
  List.filterMap_cons_some (if_pos h)

/-- the calls one after the other: the counter is the sum, and each `add` answers the sum of those
before it -/
theorem legal_adds {i v : Int64} {c c' : Counters} {log : List (Nat × Op × HVal Bytes)}
    (hl : Legal exec c c' log) (hP : ∀ e ∈ log, AddsTo i e.2.1) (hv : c.val i = some v) :
    c'.val i = some (total v (addsOf i log)) ∧
    ∀ l d x l', addsOf i log = l ++ (d, x) :: l' → x = .int (total v l) := by
  induction log generalizing c v with
  | nil =>
    obtain rfl : c = c' := hl
    exact ⟨hv, fun l d x l' h => absurd (congrArg List.length h) (by simp [addsOf])⟩
  | cons e log ih =>
    obtain ⟨t, op, x⟩ := e
    obtain ⟨hx, hl⟩ := hl
    have hop : AddsTo i op := hP _ List.mem_cons_self
    have hP' : ∀ e ∈ log, AddsTo i e.2.1 := fun e he => hP e (List.mem_cons_of_mem _ he)
    by_cases ht : op.target = some i
    · obtain ⟨idv, delta, rfl⟩ := hop ht
      have hi : hpValToInt idv = i := Option.some.inj ht
      rw [exec_add hi hv] at hx hl
      obtain ⟨h1, h2⟩ := ih hl hP' (put_val ..)
      rw [addsOf_add hi]
      refine ⟨h1, fun l d y l' h => ?_⟩
      cases l with
      | nil =>
        obtain ⟨h3, _⟩ := List.cons.inj h
        exact (congrArg Prod.snd h3).symm.trans hx.symm
      | cons e l =>
        obtain ⟨h3, h4⟩ := List.cons.inj h
        rw [h2 l d y l' h4, ← h3]
        rfl
    · rw [addsOf_other ht]
      exact ih hl hP' (exec_other ht hv)

theorem total_perm {l l' : List (Int64 × HVal Bytes)} (h : l.Perm l') (v : Int64) :
    total v l = total v l' := by
  have hc : ∀ e ∈ l, ∀ e' ∈ l, ∀ y : Int64, y + e.1 + e'.1 = y + e'.1 + e.1 := by
    intro e _ e' _ y
    rw [Int64.add_assoc, Int64.add_assoc, Int64.add_comm e.1]
  exact h.foldl_eq' hc v

/-- **No addition is lost**: with all threads outside, the counter is what it was and all the
additions that returned. -/
theorem counter_total {i v : Int64} {s : State Mem Regs Op (HVal Bytes)}
    (hs : (sys atomics fun m => (counters m).val i = some v).ReachIf (Only (AddsTo i)) s)
    (hr : ∀ t, s.pc t = .idle) :
    (counters s.mem).val i = some (total v (addsOf i (rets s.hist))) := by
  obtain ⟨log, hlog⟩ := linear sections_exec (J := fun c => c.val i = some v) (fun _ h => h) hs
  obtain ⟨c, hc, hl⟩ := hlog.legal
  rw [settled_rest sections_exec hs hr] at hl
  rw [(legal_adds hl hlog.only hc).1]
  exact congrArg some (total_perm ((hlog.rest_perm hr).filterMap _) v).symm

/-- the registry with one counter, of the id 1 -/
def one (v : Int64) : Mem := ⟨0, fun _ _ => ⟨1, v⟩, 1, 8, 2⟩

theorem counter_total_twice :
    (counters (after (one 5) (twice (.add (.int 1) (.int 3)))).mem).val 1 = some 11 := by
  refine counter_total (i := 1) (v := 5) (reach_after rfl (fun _ => ⟨_, _, rfl⟩) rfl) fun t => ?_
  match t with
  | 0 => rfl
  | 1 => rfl
  | _ + 2 => rfl

/-! ## tickets -/

/-- the first `n` numbers from `v` on -/
def ticketsFrom (v : Int64) (n : Nat) : List (HVal Bytes) :=
  (List.range n).map fun k => .int (v + Int64.ofNat k)

theorem total_ones {l : List (Int64 × HVal Bytes)} (h : ∀ e ∈ l, e.1 = 1) (v : Int64) :
    total v l = v + Int64.ofNat l.length := by
  induction l generalizing v with
  | nil => exact (Int64.add_zero v).symm
  | cons e l ih =>
    have he : e.1 = 1 := h e List.mem_cons_self
    show total (v + e.1) l = _
    rw [he, ih fun e' he' => h e' (List.mem_cons_of_mem _ he'), List.length_cons, Int64.add_assoc]
    refine congrArg (v + ·) ?_
    rw [Nat.add_comm l.length 1, Int64.ofNat_add]
    rfl

theorem addsOf_delta {i : Int64} {l : List (Nat × Op × HVal Bytes)}
    (h : ∀ e ∈ l, CountsIn i e.2.1) : ∀ e ∈ addsOf i l, e.1 = 1 := by
  intro e he
  obtain ⟨⟨t, op, x⟩, hmem, heq⟩ := List.mem_filterMap.1 he
  have hop : CountsIn i op := h _ hmem
  cases op with
  | add idv delta =>
    by_cases hi : hpValToInt idv = i
    · obtain ⟨_, _, h1, h2⟩ := hop (congrArg some hi)
      obtain ⟨rfl, rfl⟩ := Op.add.inj h1
      rw [← h2]
      exact congrArg Prod.fst (Option.some.inj ((if_pos hi).symm.trans heq)).symm
    · exact absurd ((if_neg hi).symm.trans heq) (Option.some_ne_none e).symm
  | _ => cases heq

/-- **Nobody gets a number twice and none is left out**: with all threads outside, the answers of
`add(id, 1)` are the numbers from the first value on, in some order. -/
theorem tickets {i v : Int64} {s : State Mem Regs Op (HVal Bytes)}
    (hs : (sys atomics fun m => (counters m).val i = some v).ReachIf (Only (CountsIn i)) s)
    (hr : ∀ t, s.pc t = .idle) :
    ((addsOf i (rets s.hist)).map Prod.snd).Perm
      (ticketsFrom v (addsOf i (rets s.hist)).length) := by
  obtain ⟨log, hlog⟩ := linear sections_exec (J := fun c => c.val i = some v) (fun _ h => h) hs
  obtain ⟨c, hc, hl⟩ := hlog.legal
  have hadds : ∀ e ∈ log, AddsTo i e.2.1 := by
    intro e he ht
    obtain ⟨idv, delta, h, _⟩ := hlog.only e he ht
    exact ⟨idv, delta, h⟩
  have hperm : (addsOf i (rets s.hist)).Perm (addsOf i log) := (hlog.rest_perm hr).filterMap _
  have hone := addsOf_delta hlog.only
  obtain ⟨_, h⟩ := legal_adds hl hadds hc
  have heq : (addsOf i log).map Prod.snd = ticketsFrom v (addsOf i log).length := by
    refine List.ext_getElem (by simp [ticketsFrom]) fun k h1 h2 => ?_
    have hk : k < (addsOf i log).length := by simpa using h1
    have hcut : addsOf i log =
        (addsOf i log).take k ++ (addsOf i log)[k] :: (addsOf i log).drop (k + 1) := by
      rw [List.getElem_cons_drop, List.take_append_drop]
    have htake : ∀ e ∈ (addsOf i log).take k, e.1 = 1 :=
      fun e he => hone e (List.mem_of_mem_take he)
    have hans : (addsOf i log)[k].2 = .int (total v ((addsOf i log).take k)) := h _ _ _ _ hcut
    rw [List.getElem_map, hans, total_ones htake, List.length_take, min_eq_left hk.le]
    simp [ticketsFrom]
  rw [hperm.length_eq, ← heq]
  exact hperm.map _

theorem tickets_twice : [HVal.int 5, .int 6].Perm (ticketsFrom 5 2) := by
  have hP : CountsIn 1 (.add (.int 1) (.int 1)) := fun _ => ⟨_, _, rfl, rfl⟩
  have hs := reach_after (I := fun m => (counters m).val 1 = some 5) (m := one 5) rfl hP rfl
  refine tickets hs fun t => ?_
  match t with
  | 0 => rfl
  | 1 => rfl
  | _ + 2 => rfl

/-! ## one winner -/

theorem winsOf_other {i : Int64} {op : Op} (h : op.target ≠ some i) (t : Nat) (x : HVal Bytes)
    (l : List (Nat × Op × HVal Bytes)) : winsOf i ((t, op, x) :: l) = winsOf i l := by
  cases op with
  | cas idv expect set =>
    have hne : ¬ (hpValToInt idv = i ∧ x = .bool true) := fun e => h (congrArg some e.1)
    exact List.filterMap_cons_none (if_neg hne)
  | _ => rfl

theorem winsOf_cas {i : Int64} {idv : HVal Bytes} (h : hpValToInt idv = i) (t : Nat)
    (expect set : HVal Bytes) (b : Bool) (l : List (Nat × Op × HVal Bytes)) :
    winsOf i ((t, .cas idv expect set, .bool b) :: l) =
      (if b = true then [(t, hpValToInt set)] else []) ++ winsOf i l := by
  cases b with
  | true => exact List.filterMap_cons_some (if_pos ⟨h, rfl⟩)
  | false => exact List.filterMap_cons_none (if_neg fun e => by cases e.2)

theorem exec_cas {i x : Int64} {idv expect set : HVal Bytes} {c : Counters}
    (h : hpValToInt idv = i) (hx : c.val i = some x) :
    exec (.cas idv expect set) c =
      if x = hpValToInt expect then (c.put i (hpValToInt set), .bool true)
      else (c, .bool false) := by
  simp only [exec, h, hx]

/-- when the counter has another value than `e`, nobody wins any more -/
theorem legal_lost {i e x : Int64} {c c' : Counters} {log : List (Nat × Op × HVal Bytes)}
    (hl : Legal exec c c' log) (hP : ∀ a ∈ log, RacesFor i e a.2.1) (hv : c.val i = some x)
    (hx : x ≠ e) : winsOf i log = [] ∧ c'.val i = some x := by
  induction log generalizing c with
  | nil =>
    obtain rfl : c = c' := hl
    exact ⟨rfl, hv⟩
  | cons a log ih =>
    obtain ⟨t, op, y⟩ := a
    obtain ⟨hy, hl⟩ := hl
    have hop : RacesFor i e op := hP _ List.mem_cons_self
    have hP' : ∀ a ∈ log, RacesFor i e a.2.1 := fun a ha => hP a (List.mem_cons_of_mem _ ha)
    by_cases ht : op.target = some i
    · obtain ⟨idv, expect, set, rfl, he, _⟩ := hop ht
      have hi : hpValToInt idv = i := Option.some.inj ht
      rw [exec_cas hi hv, he, if_neg hx] at hy hl
      obtain rfl : HVal.bool false = y := hy
      rw [winsOf_cas hi]
      exact ih hl hP' hv
    · rw [winsOf_other ht]
      exact ih hl hP' (exec_other ht hv)

/-- no `cas` on the counter yet, or the first of them won and no other -/
theorem legal_race {i e : Int64} {c c' : Counters} {log : List (Nat × Op × HVal Bytes)}
    (hl : Legal exec c c' log) (hP : ∀ a ∈ log, RacesFor i e a.2.1) (hv : c.val i = some e) :
    (c'.val i = some e ∧ winsOf i log = [] ∧ ∀ a ∈ log, a.2.1.target ≠ some i) ∨
    ∃ t x, c'.val i = some x ∧ winsOf i log = [(t, x)] := by
  induction log generalizing c with
  | nil =>
    obtain rfl : c = c' := hl
    exact .inl ⟨hv, rfl, by simp⟩
  | cons a log ih =>
    obtain ⟨t, op, y⟩ := a
    obtain ⟨hy, hl⟩ := hl
    have hop : RacesFor i e op := hP _ List.mem_cons_self
    have hP' : ∀ a ∈ log, RacesFor i e a.2.1 := fun a ha => hP a (List.mem_cons_of_mem _ ha)
    by_cases ht : op.target = some i
    · obtain ⟨idv, expect, set, rfl, he, hne⟩ := hop ht
      have hi : hpValToInt idv = i := Option.some.inj ht
      rw [exec_cas hi hv, he, if_pos rfl] at hy hl
      obtain rfl : HVal.bool true = y := hy
      obtain ⟨h1, h2⟩ := legal_lost hl hP' (put_val ..) hne
      refine .inr ⟨t, hpValToInt set, h2, ?_⟩
      rw [winsOf_cas hi, h1]
      rfl
    · rw [winsOf_other ht]
      rcases ih hl hP' (exec_other ht hv) with ⟨h1, h2, h3⟩ | h
      · exact .inl ⟨h1, h2, List.forall_mem_cons.2 ⟨ht, h3⟩⟩
      · exact .inr h

/-- **One winner**: of the `cas` that replace `e`, at most one has returned true at any time; with
all threads outside, it is exactly one if there was a `cas` at all, and the counter has its value.
-/
theorem cas_once {i e : Int64} {s : State Mem Regs Op (HVal Bytes)}
    (hs : (sys atomics fun m => (counters m).val i = some e).ReachIf (Only (RacesFor i e)) s) :
    (winsOf i (rets s.hist)).length ≤ 1 ∧
    ((∀ t, s.pc t = .idle) → (∃ a ∈ rets s.hist, a.2.1.target = some i) →
      ∃ t x, winsOf i (rets s.hist) = [(t, x)] ∧ (counters s.mem).val i = some x) := by
  obtain ⟨log, hlog⟩ := linear sections_exec (J := fun c => c.val i = some e) (fun _ h => h) hs
  obtain ⟨c, hc, hl⟩ := hlog.legal
  have hrace := legal_race hl hlog.only hc
  constructor
  · obtain ⟨l, hp, hsub⟩ := hlog.subperm
    have hle : (winsOf i (rets s.hist)).length ≤ (winsOf i log).length := by
      have hlen : (winsOf i l).length = (winsOf i (rets s.hist)).length :=
        (hp.filterMap _).length_eq
      rw [← hlen]
      exact (hsub.filterMap _).length_le
    rcases hrace with ⟨_, h, _⟩ | ⟨t, x, _, h⟩ <;> rw [h] at hle
    · exact hle.trans (Nat.zero_le 1)
    · exact hle
  · rintro hr ⟨a, ha, hta⟩
    have hperm := hlog.rest_perm hr
    rcases hrace with ⟨_, _, h⟩ | ⟨t, x, h1, h2⟩
    · exact absurd hta (h a (hperm.mem_iff.1 ha))
    · refine ⟨t, x, ?_, ?_⟩
      · have hw : (winsOf i (rets s.hist)).Perm [(t, x)] := h2 ▸ hperm.filterMap _
        exact List.perm_singleton.1 hw
      · rw [← settled_rest sections_exec hs hr]
        exact h1

theorem cas_once_twice :
    ∃ t x, winsOf 1 (rets (after (one 0) (twice (.cas (.int 1) (.int 0) (.int 7)))).hist) =
      [(t, x)] ∧ (counters (after (one 0) (twice (.cas (.int 1) (.int 0) (.int 7)))).mem).val 1 =
        some x := by
  have hP : RacesFor 1 0 (.cas (.int 1) (.int 0) (.int 7)) :=
    fun _ => ⟨_, _, _, rfl, rfl, by decide⟩
  have hs := reach_after (I := fun m => (counters m).val 1 = some 0) (m := one 0) rfl hP rfl
  refine (cas_once hs).2 (fun t => ?_) ⟨_, List.mem_cons_self, rfl⟩
  match t with
  | 0 => rfl
  | 1 => rfl
  | _ + 2 => rfl

end Atomic
end HolyPhp
