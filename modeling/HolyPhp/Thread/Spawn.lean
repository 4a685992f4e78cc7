import HolyPhp.Lib.Runs
import HolyPhp.Runtime.Value

/-!
# Threads: `hpbi_thr_spawn`, `hpbi_thr_join`, `thr_trampoline`

Every call of a spawn or a join has a number, and the thread that a spawn starts is known to the
thread library (`pthread_t`) under the number of that spawn.  As for mutexes a `ThrRec *` is a
pair of a storage and an index in it.

* `hpbiThrSpawn s i clo`  the section that fills in a record behind the `g_thr_len` others;
* `createOk s i id p`      `pthread_create` succeeds (it may fail, and so may a `malloc` before it);
* `thrTrampoline s t`     the section of a thread whose closure has returned;
* `hpbiThrJoin s i id`    the section that claims a record, `removeRec` the one that drops it.

What the closures do is not in the model: they may spawn and join, as any thread may.
-/

set_option linter.unusedVariables false

namespace HolyPhp
namespace Spawn
open Function Runs

/-- the storage and the index -/
abbrev Ptr := Nat × Nat

structure ThrRec where
  id : Int64
  joined : Bool
  pt : Nat
  /-- NULL when the closure has returned -/
  clo : Option Addr

/-- where a call stands -/
inductive Call where
  | idle
  /-- a spawn between its section and `pthread_create`; `p` is its `rec` -/
  | spawning (id : Int64) (p : Ptr)
  /-- a spawn whose `pthread_create` failed -/
  | cleaning (id : Int64)
  /-- a spawn returned the id, or false -/
  | spawned (id : Option Int64)
  /-- a join in `pthread_join(pt)` -/
  | joining (id : Int64) (pt : Nat)
  /-- a join after `pthread_join` -/
  | removing (id : Int64)
  /-- a join of `id` returned -/
  | joined (id : Int64) (ok : Bool)

/-- a thread of the thread library -/
inductive Thr where
  | none
  /-- in `hp_closure_call`; `id` is its `self_id` -/
  | running (id : Int64)
  /-- the closure has returned, the section of `thr_trampoline` comes -/
  | returned (id : Int64)
  | ended

structure State where
  gen : Nat
  cell : Nat → Nat → ThrRec
  len : Nat
  cap : Nat
  next : Int64
  call : Nat → Call
  thr : Nat → Thr

namespace State

/-- `g_thr[k]` -/
def slot (s : State) (k : Nat) : ThrRec := s.cell s.gen k

def setCell (s : State) (p : Ptr) (r : ThrRec) : Nat → Nat → ThrRec :=
  update s.cell p.1 (update (s.cell p.1) p.2 r)

def setCall (s : State) (i : Nat) (c : Call) : State := { s with call := update s.call i c }

/-- `g_thr_cap = g_thr_cap ? g_thr_cap * 2 : 16; g_thr = realloc(..)` -/
def grow (s : State) : State :=
  if s.len = s.cap then
    { s with
      gen := s.gen + 1
      cell := update s.cell (s.gen + 1) (s.cell s.gen)
      cap := if s.cap = 0 then 16 else s.cap * 2 }
  else s

end State

open State

def thrRec (s : State) (id : Int64) : Option Nat :=
  (List.range s.len).find? fun k => (s.slot k).id == id

/-- `for (..) if (g_thr[i].id == id) { g_thr[i] = g_thr[--g_thr_len]; break; }` -/
def removeRec (s : State) (id : Int64) : State :=
  match thrRec s id with
  | some k => { s with cell := s.setCell (s.gen, k) (s.slot (s.len - 1)), len := s.len - 1 }
  | none => s

/-- the first section; what is not a closure is refused before it -/
def hpbiThrSpawn (s : State) (i : Nat) : HVal Bytes → State
  | .clo (some c) =>
    let g := s.grow
    { g with
      cell := g.setCell (g.gen, g.len)
        { g.slot g.len with id := g.next, joined := false, clo := some c }
      next := g.next + 1
      call := update g.call i (.spawning g.next (g.gen, g.len)) }
  | _ => s.setCall i (.spawned none)

/-- `pthread_create` starts the thread and stores its handle in `rec->pt` -/
def createOk (s : State) (i : Nat) (id : Int64) (p : Ptr) : State :=
  { s with
    cell := s.setCell p { s.cell p.1 p.2 with pt := i }
    thr := update s.thr i (.running id)
    call := update s.call i (.spawned (some id)) }

/-- the end of a spawn after `pthread_create` failed -/
def cleanUp (s : State) (i : Nat) (id : Int64) : State :=
  (removeRec s id).setCall i (.spawned none)

/-- `rec->clo = NULL` -/
def thrTrampoline (s : State) (t : Nat) (id : Int64) : State :=
  match thrRec s id with
  | some k =>
    { s with
      cell := s.setCell (s.gen, k) { s.slot k with clo := none }
      thr := update s.thr t .ended }
  | none => { s with thr := update s.thr t .ended }

/-- the first section of a join -/
def hpbiThrJoin (s : State) (i : Nat) (id : Int64) : State :=
  match thrRec s id with
  | some k =>
    if (s.slot k).joined then s.setCall i (.joined id false)
    else
      { s with
        cell := s.setCell (s.gen, k) { s.slot k with joined := true }
        call := update s.call i (.joining id (s.slot k).pt) }
  | none => s.setCall i (.joined id false)

/-- the last section of a join -/
def joinEnd (s : State) (i : Nat) (id : Int64) : State :=
  (removeRec s id).setCall i (.joined id true)

inductive Act where
  | spawn (i : Nat) (clo : HVal Bytes)
  | createOk (i : Nat)
  | createFail (i : Nat)
  /-- `malloc` of the `ThrBoot` or its arguments fails -/
  | noMemory (i : Nat)
  | cleanUp (i : Nat)
  /-- the closure of thread `t` returns -/
  | finish (t : Nat)
  | trampoline (t : Nat)
  | join (i : Nat) (tid : HVal Bytes)
  /-- `pthread_join` returns -/
  | wait (i : Nat)
  | joinEnd (i : Nat)

def next (s : State) : Act → Option State
  | .spawn i clo => match s.call i with
    | .idle => some (hpbiThrSpawn s i clo)
    | _ => none
  | .createOk i => match s.call i with
    | .spawning id p => some (createOk s i id p)
    | _ => none
  | .createFail i => match s.call i with
    | .spawning id _ => some (s.setCall i (.cleaning id))
    | _ => none
  | .noMemory i => match s.call i with
    | .spawning _ _ => some (s.setCall i (.spawned none))
    | _ => none
  | .cleanUp i => match s.call i with
    | .cleaning id => some (cleanUp s i id)
    | _ => none
  | .finish t => match s.thr t with
    | .running id => some { s with thr := update s.thr t (.returned id) }
    | _ => none
  | .trampoline t => match s.thr t with
    | .returned id => some (thrTrampoline s t id)
    | _ => none
  | .join i tid => match s.call i with
    | .idle => some (hpbiThrJoin s i (hpValToInt tid))
    | _ => none
  | .wait i => match s.call i with
    | .joining id pt => match s.thr pt with
      | .ended => some (s.setCall i (.removing id))
      | _ => none
    | _ => none
  | .joinEnd i => match s.call i with
    | .removing id => some (joinEnd s i id)
    | _ => none

/-- before the first call; what the storage holds is not known -/
def start (junk : Nat → Nat → ThrRec) : State where
  gen := 0
  cell := junk
  len := 0
  cap := 0
  next := 1
  call := fun _ => .idle
  thr := fun _ => .none

def sys : Sys State Act := ⟨fun s => ∃ junk, s = start junk, next⟩

/-! ## joining once -/

/-- the call has claimed `id`: it waits for the thread, drops the record, or has returned true -/
def Call.claims (id : Int64) : Call → Prop
  | .joining id' _ | .removing id' | .joined id' true => id' = id
  | _ => False

/-- the closure of the thread has returned -/
def Thr.past : Thr → Prop
  | .returned _ | .ended => True
  | _ => False

structure JoinOk (s : State) : Prop where
  /-- no id is joined twice -/
  once : ∀ i j id, (s.call i).claims id → (s.call j).claims id → i = j
  /-- a join returns true after the closure has returned -/
  after : ∀ i k id, s.call i = .joined id true → s.call k = .spawned (some id) → (s.thr k).past
  /-- the record of a started thread is there until a join claims it -/
  kept : ∀ k id, s.call k = .spawned (some id) → (∃ i, (s.call i).claims id) ∨
    ∃ m, thrRec s id = some m ∧ (s.slot m).joined = false ∧ (s.slot m).pt = k

/-! ## the invariant -/

/-- `g_thr_len` never grows, so that no lookup finds a record -/
structure Inv (s : State) : Prop where
  len : s.len = 0
  unclaimed : ∀ i id, ¬ (s.call i).claims id
  /-- a thread that was started has its id returned by the spawn -/
  started : ∀ k, s.thr k = .none ∨ ∃ id, s.call k = .spawned (some id)
  live : ∀ k id, s.call k = .spawned (some id) → s.thr k ≠ .none

section
variable {s t : State} {i k : Nat} {id : Int64}

theorem thrRec_eq_none (h : s.len = 0) (id : Int64) : thrRec s id = none := by
  rw [thrRec, h]
  rfl

theorem removeRec_eq (h : s.len = 0) (id : Int64) : removeRec s id = s := by
  rw [removeRec, thrRec_eq_none h]

theorem grow_spec (s : State) : s.grow.len = s.len ∧ s.grow.call = s.call ∧ s.grow.thr = s.thr := by
  unfold grow
  split
  · exact ⟨rfl, rfl, rfl⟩
  · exact ⟨rfl, rfl, rfl⟩

namespace Inv

/-- a call that was no finished spawn moves to a place that claims nothing -/
theorem move (h : Inv s) {c : Call} (hc : ∀ id, ¬ c.claims id)
    (hold : ∀ id, s.call i ≠ .spawned (some id)) (hnew : ∀ id, c ≠ .spawned (some id))
    (hlen : t.len = s.len) (hcall : t.call = update s.call i c) (hthr : t.thr = s.thr) : Inv t where
  len := hlen.trans h.len
  unclaimed j id := by
    rw [hcall]
    by_cases e : j = i
    · rw [e, update_self]
      exact hc id
    · rw [update_of_ne e]
      exact h.unclaimed j id
  started k := by
    rw [hthr, hcall]
    rcases h.started k with hk | ⟨id, hk⟩
    · exact .inl hk
    · have e : k ≠ i := fun e => hold id (e ▸ hk)
      exact .inr ⟨id, by rw [update_of_ne e, hk]⟩
  live k id hk := by
    rw [hthr]
    rw [hcall] at hk
    by_cases e : k = i
    · rw [e, update_self] at hk
      exact absurd hk (hnew id)
    · rw [update_of_ne e] at hk
      exact h.live k id hk

/-- a thread that was started goes on -/
theorem moveThr (h : Inv s) {r : Thr} (hk : s.thr k ≠ .none) (hr : r ≠ .none)
    (hlen : t.len = s.len) (hcall : t.call = s.call) (hthr : t.thr = update s.thr k r) : Inv t where
  len := hlen.trans h.len
  unclaimed j id := by
    rw [hcall]
    exact h.unclaimed j id
  started j := by
    rw [hthr, hcall]
    by_cases e : j = k
    · exact .inr ((h.started j).resolve_left (e ▸ hk))
    · rw [update_of_ne e]
      exact h.started j
  live j id hj := by
    rw [hthr]
    by_cases e : j = k
    · rw [e, update_self]
      exact hr
    · rw [update_of_ne e]
      exact h.live j id (hcall ▸ hj)

theorem spawn (h : Inv s) (hi : s.call i = .idle) (clo : HVal Bytes) :
    Inv (hpbiThrSpawn s i clo) := by
  obtain ⟨hlen, hcall, hthr⟩ := grow_spec s
  unfold hpbiThrSpawn
  split
  · exact h.move (i := i) (c := .spawning s.grow.next (s.grow.gen, s.grow.len)) (fun _ h => h)
      (fun id => by simp [hi]) (fun id => by simp) hlen (by rw [← hcall]) hthr
  · exact h.move (i := i) (c := .spawned none) (fun _ h => h) (fun id => by simp [hi])
      (fun id => by simp) rfl rfl rfl

theorem createOk (h : Inv s) {p : Ptr} (hi : s.call i = .spawning id p) :
    Inv (createOk s i id p) where
  len := h.len
  unclaimed j id' := by
    show ¬ (update s.call i _ j).claims id'
    by_cases e : j = i
    · rw [e, update_self]
      exact fun hc => hc
    · rw [update_of_ne e]
      exact h.unclaimed j id'
  started k := by
    show update s.thr i _ k = .none ∨ ∃ id', update s.call i _ k = _
    by_cases e : k = i
    · exact .inr ⟨id, by rw [e, update_self]⟩
    · rw [update_of_ne e, update_of_ne e]
      exact h.started k
  live k id' hk := by
    show update s.thr i _ k ≠ .none
    by_cases e : k = i
    · rw [e, update_self]
      simp
    · rw [update_of_ne e]
      exact h.live k id' ((update_of_ne e ..).symm.trans hk)

theorem trampoline (h : Inv s) (hk : s.thr k = .returned id) : Inv (thrTrampoline s k id) := by
  rw [thrTrampoline, thrRec_eq_none h.len]
  exact h.moveThr (r := .ended) (by simp [hk]) (by simp) rfl rfl rfl

theorem join (h : Inv s) (hi : s.call i = .idle) (id : Int64) : Inv (hpbiThrJoin s i id) := by
  rw [hpbiThrJoin, thrRec_eq_none h.len]
  exact h.move (i := i) (c := .joined id false) (fun _ h => h) (fun id => by simp [hi])
    (fun id => by simp) rfl rfl rfl

theorem step {a : Act} (h : Inv s) (hn : next s a = some t) : Inv t := by
  cases a with
  | spawn i clo =>
    simp only [Spawn.next] at hn
    split at hn
    · rename_i hi
      exact Option.some.inj hn ▸ h.spawn hi clo
    · cases hn
  | createOk i =>
    simp only [Spawn.next] at hn
    split at hn
    · rename_i hi
      exact Option.some.inj hn ▸ h.createOk hi
    · cases hn
  | createFail i =>
    simp only [Spawn.next] at hn
    split at hn
    · rename_i id p hi
      rw [← Option.some.inj hn]
      exact h.move (i := i) (c := .cleaning id) (fun _ h => h) (fun id => by simp [hi])
        (fun id => by simp) rfl rfl rfl
    · cases hn
  | noMemory i =>
    simp only [Spawn.next] at hn
    split at hn
    · rename_i id p hi
      rw [← Option.some.inj hn]
      exact h.move (i := i) (c := .spawned none) (fun _ h => h) (fun id => by simp [hi])
        (fun id => by simp) rfl rfl rfl
    · cases hn
  | cleanUp i =>
    simp only [Spawn.next] at hn
    split at hn
    · rename_i id hi
      rw [← Option.some.inj hn, Spawn.cleanUp, removeRec_eq h.len]
      exact h.move (i := i) (c := .spawned none) (fun _ h => h) (fun id => by simp [hi])
        (fun id => by simp) rfl rfl rfl
    · cases hn
  | finish k =>
    simp only [Spawn.next] at hn
    split at hn
    · rename_i id hk
      rw [← Option.some.inj hn]
      exact h.moveThr (r := .returned id) (by simp [hk]) (by simp) rfl rfl rfl
    · cases hn
  | trampoline k =>
    simp only [Spawn.next] at hn
    split at hn
    · rename_i hk
      exact Option.some.inj hn ▸ h.trampoline hk
    · cases hn
  | join i tid =>
    simp only [Spawn.next] at hn
    split at hn
    · rename_i hi
      exact Option.some.inj hn ▸ h.join hi (hpValToInt tid)
    · cases hn
  | wait i =>
    simp only [Spawn.next] at hn
    split at hn
    · rename_i id pt hi
      exact absurd (show (s.call i).claims id by rw [hi]; rfl) (h.unclaimed i id)
    · cases hn
  | joinEnd i =>
    simp only [Spawn.next] at hn
    split at hn
    · rename_i id hi
      exact absurd (show (s.call i).claims id by rw [hi]; rfl) (h.unclaimed i id)
    · cases hn

theorem reach (hs : sys.Reach s) : Inv s := by
  refine Sys.Reach.inv ?_ (fun s a u h hn => h.step hn) hs
  intro s h0
  obtain ⟨junk, rfl⟩ := h0
  exact ⟨rfl, fun _ _ h => h, fun _ => .inl rfl, fun k id hk => by cases hk⟩

end Inv
end

/-- **Joining** works as long as no thread was started, and never after. -/
theorem joinOk_iff {s : State} (hs : sys.Reach s) : JoinOk s ↔ ∀ k, s.thr k = .none := by
  have h := Inv.reach hs
  constructor
  · intro hok k
    by_contra hk
    obtain ⟨id, hid⟩ := (h.started k).resolve_left hk
    rcases hok.kept k id hid with ⟨i, hi⟩ | ⟨m, hm, -⟩
    · exact h.unclaimed i id hi
    · rw [thrRec_eq_none h.len] at hm
      cases hm
  · intro hnone
    refine ⟨fun i j id hi => ?_, fun i k id hi => ?_, fun k id hk => ?_⟩
    · exact absurd hi (h.unclaimed i id)
    · exact absurd (show (s.call i).claims id by rw [hi]; rfl) (h.unclaimed i id)
    · exact absurd (hnone k) (h.live k id hk)

/-- the storage before the first spawn -/
def blank : Nat → Nat → ThrRec := fun _ _ => ⟨0, false, 0, none⟩

/-- a spawn of a closure whose `pthread_create` fails -/
theorem joinOk_failed : JoinOk (cleanUp (setCall (hpbiThrSpawn (start blank) 0 (.clo (some 0))) 0
    (.cleaning 1)) 0 1) := by
  have h0 : sys.Reach (start blank) := .init ⟨blank, rfl⟩
  have h1 := h0.step (l := .spawn 0 (.clo (some 0))) rfl
  have h2 := h1.step (l := .createFail 0) rfl
  exact (joinOk_iff (h2.step (l := .cleanUp 0) rfl)).mpr fun _ => rfl

/-- the thread of a spawn runs and ends; the join of its id returns false -/
def lostRun : State :=
  let s := createOk (hpbiThrSpawn (start blank) 0 (.clo (some 0))) 0 1 (1, 0)
  let s := { s with thr := update s.thr 0 (.returned 1) }
  hpbiThrJoin (thrTrampoline s 0 1) 1 1

theorem lostRun_reach : sys.Reach lostRun := by
  have h0 : sys.Reach (start blank) := .init ⟨blank, rfl⟩
  have h1 := h0.step (l := .spawn 0 (.clo (some 0))) rfl
  have h2 := h1.step (l := .createOk 0) rfl
  have h3 := h2.step (l := .finish 0) rfl
  have h4 := h3.step (l := .trampoline 0) rfl
  exact h4.step (l := .join 1 (.int 1)) rfl

/-- the record of the thread is not found -/
theorem joinOk_fails : ¬ ∀ s, sys.Reach s → JoinOk s := by
  intro h
  rcases (h lostRun lostRun_reach).kept 0 1 rfl with ⟨i, hi⟩ | ⟨m, hm, -⟩
  · exact (Inv.reach lostRun_reach).unclaimed i 1 hi
  · cases hm

end Spawn
end HolyPhp
