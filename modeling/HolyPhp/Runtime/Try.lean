import Mathlib.Data.List.Nodup
import HolyPhp.Lib.Runs
import HolyPhp.Runtime.Value

/-!
# Exceptions and the environment of closures

A thread runs calls of `hp_try_run` and of `hp_closure_call_arr`, nested in any way; the code they
run may return, throw, or make further calls.  The C stack is part of the state: `longjmp` finds
the call whose `setjmp` it comes back to there, and without one it is `wild`.

* `hpTryPush`, `hpTryPop`, `hpThrow`  the functions;
* `thread`        the system, with a step for every call, return and throw;
* `Chained`       every frame that is in use leads to the one below it;
* `tries_disciplined`  **`hp_cur_try` comes back, and a throw lands in the innermost try**;
* `EnvOk`         `hp_cur_env` is the environment of the closure that runs;
* `envs_iff`      **it always is if and only if no throw goes to code of another environment**.
-/

set_option autoImplicit false

namespace HolyPhp
namespace Try
open Runs

abbrev Val := HVal Bytes

/-! ## the functions -/

inductive Phase where
  | body | handler
  deriving DecidableEq, Repr

/-- a call on the C stack: `hp_try_run` with its two frames and the part of it that runs, or
`hp_closure_call_arr` with its local `saved` and the environment of its closure -/
inductive Call where
  | tryRun (fr hfr : Addr) (phase : Phase)
  | closureCall (saved : Option Addr) (env : Addr)
  deriving DecidableEq, Repr

/-- `stack` has the innermost call first; `prev` is the field of the frames; `value` is what the
call that came to an end last has returned -/
structure State where
  stack : List Call
  hpCurTry : Option Addr
  prev : Addr → Option Addr
  hpCurEnv : Option Addr
  hpException : Val
  value : Val
  exited : Bool
  wild : Bool

def hpTryPush (f : Addr) (s : State) : State :=
  { s with prev := Function.update s.prev f s.hpCurTry, hpCurTry := some f }

def hpTryPop (f : Addr) (s : State) : State :=
  if s.hpCurTry = some f then { s with hpCurTry := s.prev f } else s

/-- the call that `setjmp(f->jmp)` was made in, the phase that it began, and the calls below -/
def landing (f : Addr) : List Call → Option (Addr × Addr × Phase × List Call)
  | [] => none
  | .closureCall _ _ :: st => landing f st
  | .tryRun fr hfr phase :: st =>
    if f = fr then some (fr, hfr, .body, st)
    else if f = hfr ∧ phase = .handler then some (fr, hfr, .handler, st)
    else landing f st

/-- `longjmp(f->jmp, 1)` and what `hp_try_run` does next: after the body it starts the handler,
after the handler it returns the exception -/
def jump (f : Addr) (s : State) : State :=
  match landing f s.stack with
  | none => { s with wild := true }
  | some (fr, hfr, .body, st) =>
    hpTryPush hfr (hpTryPop fr { s with stack := .tryRun fr hfr .handler :: st })
  | some (_, hfr, .handler, st) => hpTryPop hfr { s with stack := st, value := s.hpException }

def hpThrow (v : Val) (s : State) : State :=
  match s.hpCurTry with
  | none => { s with exited := true }
  | some f => jump f { s with hpException := v }

/-- the addresses that the calls on the stack hold their frames at -/
def frames : List Call → List Addr
  | [] => []
  | .tryRun fr hfr _ :: st => fr :: hfr :: frames st
  | .closureCall _ _ :: st => frames st

/-- what the code that runs does next: a call of `hp_try_run`, which has its frames at addresses
that are free, or of a closure (`none` is NULL), a return, a throw -/
inductive Step where
  | tryRun (fr hfr : Addr)
  | call (c : Option Addr)
  | ret (v : Val)
  | throw (v : Val)
  deriving DecidableEq, Repr

/-- the return from the innermost call -/
def hpReturn (v : Val) (s : State) : Option State :=
  match s.stack with
  | [] => none
  | .tryRun fr _ .body :: st => some { hpTryPop fr s with stack := st, value := v }
  | .tryRun _ hfr .handler :: st => some { hpTryPop hfr s with stack := st, value := v }
  | .closureCall saved _ :: st => some { s with stack := st, hpCurEnv := saved, value := v }

def step (s : State) : Step → Option State
  | .tryRun fr hfr =>
    if (fr :: hfr :: frames s.stack).Nodup then
      some (hpTryPush fr { s with stack := .tryRun fr hfr .body :: s.stack })
    else none
  | .call none => some { s with value := .null }
  | .call (some env) =>
    some { s with stack := .closureCall s.hpCurEnv env :: s.stack, hpCurEnv := some env }
  | .ret v => hpReturn v s
  | .throw v => some (hpThrow v s)

/-- the start of a thread; the frames are not there yet -/
def start (prev : Addr → Option Addr) : State :=
  { stack := [], hpCurTry := none, prev := prev, hpCurEnv := none, hpException := .null,
    value := .null, exited := false, wild := false }

def thread : Sys State Step where
  init s := ∃ prev, s = start prev
  next s l := if s.exited || s.wild then none else step s l

/-! ## the frames in use -/

/-- the frame that a throw of the innermost call goes to -/
def innermost : List Call → Option Addr
  | [] => none
  | .tryRun fr _ .body :: _ => some fr
  | .tryRun _ hfr .handler :: _ => some hfr
  | .closureCall _ _ :: st => innermost st

/-- every frame in use leads to the one below it -/
def Chained (prev : Addr → Option Addr) : List Call → Prop
  | [] => True
  | .tryRun fr _ .body :: st => prev fr = innermost st ∧ Chained prev st
  | .tryRun _ hfr .handler :: st => prev hfr = innermost st ∧ Chained prev st
  | .closureCall _ _ :: st => Chained prev st

structure Inv (s : State) : Prop where
  cur : s.hpCurTry = innermost s.stack
  chained : Chained s.prev s.stack
  nodup : (frames s.stack).Nodup
  tame : s.wild = false

/-- a throw with the first stack comes out with the second: the handler of the innermost try
starts, or its call returns when the handler is what runs -/
inductive Lands : List Call → List Call → Prop
  | call {saved : Option Addr} {env : Addr} {st st' : List Call} :
      Lands st st' → Lands (.closureCall saved env :: st) st'
  | body {fr hfr : Addr} {st : List Call} :
      Lands (.tryRun fr hfr .body :: st) (.tryRun fr hfr .handler :: st)
  | handler {fr hfr : Addr} {st : List Call} : Lands (.tryRun fr hfr .handler :: st) st

section
variable {f : Addr} {prev : Addr → Option Addr} {st : List Call}

/-- a frame that is not in use may be written -/
theorem Chained.update {o : Option Addr} (hf : f ∉ frames st) (h : Chained prev st) :
    Chained (Function.update prev f o) st := by
  induction st with
  | nil => trivial
  | cons c st ih =>
    rcases c with ⟨fr, hfr, _ | _⟩ | _
    · have hne : fr ≠ f := fun he => hf (he ▸ List.mem_cons_self)
      refine ⟨(Function.update_of_ne hne _ _).trans h.1, ih (fun hm => hf ?_) h.2⟩
      exact List.mem_cons_of_mem _ (List.mem_cons_of_mem _ hm)
    · have hne : hfr ≠ f := fun he => hf (he ▸ List.mem_cons_of_mem _ List.mem_cons_self)
      refine ⟨(Function.update_of_ne hne _ _).trans h.1, ih (fun hm => hf ?_) h.2⟩
      exact List.mem_cons_of_mem _ (List.mem_cons_of_mem _ hm)
    · exact ih hf h

/-- the innermost frame belongs to the innermost try, which is in the phase of that frame -/
theorem landing_innermost (hn : (frames st).Nodup) (h : innermost st = some f) :
    ∃ fr hfr phase st', landing f st = some (fr, hfr, phase, st') ∧
      (.tryRun fr hfr phase :: st') <:+ st ∧
      ((phase = .body ∧ f = fr ∧ Lands st (.tryRun fr hfr .handler :: st')) ∨
        phase = .handler ∧ f = hfr ∧ Lands st st') := by
  induction st with
  | nil => nomatch h
  | cons c st ih =>
    rcases c with ⟨fr, hfr, _ | _⟩ | _
    · obtain rfl := Option.some.inj h
      exact ⟨fr, hfr, .body, st, if_pos rfl, List.suffix_refl _, .inl ⟨rfl, rfl, .body⟩⟩
    · obtain rfl := Option.some.inj h
      have hne : hfr ≠ fr := by
        intro he
        exact (List.nodup_cons.1 hn).1 (he ▸ List.mem_cons_self)
      refine ⟨fr, hfr, .handler, st, ?_, List.suffix_refl _, .inr ⟨rfl, rfl, .handler⟩⟩
      exact (if_neg hne).trans (if_pos ⟨rfl, rfl⟩)
    · obtain ⟨fr, hfr, phase, st', hl, hsuf, hcase⟩ := ih hn h
      refine ⟨fr, hfr, phase, st', hl, hsuf.trans (List.suffix_cons _ _), ?_⟩
      exact hcase.imp (fun hb => ⟨hb.1, hb.2.1, .call hb.2.2⟩) fun hh => ⟨hh.1, hh.2.1, .call hh.2.2⟩

theorem Chained.suffix {st' : List Call} (hs : st' <:+ st) (h : Chained prev st) :
    Chained prev st' := by
  induction st with
  | nil => exact List.suffix_nil.1 hs ▸ trivial
  | cons c st ih =>
    rcases List.suffix_cons_iff.1 hs with rfl | hs'
    · exact h
    · rcases c with ⟨fr, hfr, _ | _⟩ | _
      · exact ih hs' h.2
      · exact ih hs' h.2
      · exact ih hs' h

theorem frames_suffix {st' : List Call} (hs : st' <:+ st) :
    (frames st').Sublist (frames st) := by
  induction st with
  | nil => exact List.suffix_nil.1 hs ▸ List.Sublist.refl _
  | cons c st ih =>
    rcases List.suffix_cons_iff.1 hs with rfl | hs'
    · exact List.Sublist.refl _
    · rcases c with ⟨fr, hfr, _⟩ | _
      · exact ((ih hs').cons _).cons _
      · exact ih hs'

end

/-! ## the discipline -/

section
variable {s t : State} {f : Addr} {v : Val}

theorem Inv.start (prev : Addr → Option Addr) : Inv (start prev) :=
  ⟨rfl, trivial, List.nodup_nil, rfl⟩

theorem hpTryPop_of (h : s.hpCurTry = some f) : hpTryPop f s = { s with hpCurTry := s.prev f } :=
  if_pos h

theorem Inv.push {fr hfr : Addr} (h : Inv s) (hn : (fr :: hfr :: frames s.stack).Nodup) :
    Inv (hpTryPush fr { s with stack := .tryRun fr hfr .body :: s.stack }) where
  cur := rfl
  chained := by
    refine ⟨(Function.update_self _ _ _).trans h.cur, h.chained.update fun hm => ?_⟩
    exact (List.nodup_cons.1 hn).1 (List.mem_cons_of_mem _ hm)
  nodup := hn
  tame := h.tame

/-- the frames of the calls below an `hp_try_run` are others than its own -/
theorem nodup_below {fr hfr : Addr} {phase : Phase} {st : List Call}
    (h : (frames (.tryRun fr hfr phase :: st)).Nodup) : hfr ∉ frames st ∧ (frames st).Nodup :=
  List.nodup_cons.1 (List.nodup_cons.1 h).2

/-- a return leaves the innermost call; a closure call gives the environment back -/
theorem hpReturn_spec (h : Inv s) (hr : hpReturn v s = some t) :
    Inv t ∧ t.exited = s.exited ∧
      ((∃ fr hfr phase, s.stack = .tryRun fr hfr phase :: t.stack ∧ t.hpCurEnv = s.hpCurEnv) ∨
        ∃ saved env, s.stack = .closureCall saved env :: t.stack ∧ t.hpCurEnv = saved) := by
  unfold hpReturn at hr
  have hcur := h.cur
  have hch := h.chained
  have hnd := h.nodup
  split at hr
  · nomatch hr
  · rename_i fr hfr st heq
    rw [heq] at hcur hch hnd
    rw [hpTryPop_of hcur] at hr
    obtain rfl := Option.some.inj hr
    exact ⟨⟨hch.1, hch.2, (nodup_below hnd).2, h.tame⟩, rfl, .inl ⟨fr, hfr, .body, heq, rfl⟩⟩
  · rename_i fr hfr st heq
    rw [heq] at hcur hch hnd
    rw [hpTryPop_of hcur] at hr
    obtain rfl := Option.some.inj hr
    exact ⟨⟨hch.1, hch.2, (nodup_below hnd).2, h.tame⟩, rfl, .inl ⟨fr, hfr, .handler, heq, rfl⟩⟩
  · rename_i saved env st heq
    rw [heq] at hcur hch hnd
    obtain rfl := Option.some.inj hr
    exact ⟨⟨hcur, hch, hnd, h.tame⟩, rfl, .inr ⟨saved, env, heq, rfl⟩⟩

/-- a jump to the innermost frame lands in its try and leaves the environment as it is -/
theorem jump_spec (h : Inv s) (hf : s.hpCurTry = some f) :
    Inv (jump f s) ∧ Lands s.stack (jump f s).stack ∧ (jump f s).exited = s.exited ∧
      (jump f s).hpException = s.hpException ∧ (jump f s).hpCurEnv = s.hpCurEnv := by
  obtain ⟨fr, hfr, phase, st, hl, hsuf, hcase⟩ :=
    landing_innermost h.nodup (h.cur.symm.trans hf)
  have hch := h.chained.suffix hsuf
  have hnd := h.nodup.sublist (frames_suffix hsuf)
  unfold jump
  rw [hl]
  rcases hcase with ⟨rfl, rfl, hlands⟩ | ⟨rfl, rfl, hlands⟩
  · dsimp only
    rw [hpTryPop_of (by exact hf)]
    refine ⟨⟨rfl, ⟨?_, ?_⟩, hnd, h.tame⟩, hlands, rfl, rfl, rfl⟩
    · exact (Function.update_self _ _ _).trans hch.1
    · exact hch.2.update (nodup_below hnd).1
  · dsimp only
    rw [hpTryPop_of (by exact hf)]
    exact ⟨⟨hch.1, hch.2, (nodup_below hnd).2, h.tame⟩, hlands, rfl, rfl, rfl⟩

/-- what a throw comes to: the innermost try, or the end of the program without one -/
structure ThrowsTo (s : State) (v : Val) (t : State) : Prop where
  lands : innermost s.stack ≠ none →
    Lands s.stack t.stack ∧ t.hpException = v ∧ t.exited = s.exited
  uncaught : innermost s.stack = none → t = { s with exited := true }

theorem hpThrow_spec (h : Inv s) :
    Inv (hpThrow v s) ∧ ThrowsTo s v (hpThrow v s) ∧ (hpThrow v s).hpCurEnv = s.hpCurEnv := by
  unfold hpThrow
  split
  · rename_i hcur
    have hno := h.cur.symm.trans hcur
    exact ⟨⟨h.cur, h.chained, h.nodup, h.tame⟩, ⟨fun hne => absurd hno hne, fun _ => rfl⟩, rfl⟩
  · rename_i f hcur
    have hin := h.cur.symm.trans hcur
    obtain ⟨hinv, hlands, hex, hexc, henv⟩ := jump_spec (f := f)
      (s := { s with hpException := v }) ⟨h.cur, h.chained, h.nodup, h.tame⟩ hcur
    exact ⟨hinv, ⟨fun _ => ⟨hlands, hexc, hex⟩, fun hno => nomatch hin.symm.trans hno⟩, henv⟩

theorem step_of_next {l : Step} (hs : thread.next s l = some t) : step s l = some t := by
  change (if _ then _ else _) = _ at hs
  split at hs
  · nomatch hs
  · exact hs

/-- every step keeps the frames in order -/
theorem Inv.step {l : Step} (h : Inv s) (hs : thread.next s l = some t) : Inv t := by
  have hs' := step_of_next hs
  cases l with
  | tryRun fr hfr =>
    obtain ⟨hn, he⟩ := Option.ite_none_right_eq_some.1 hs'
    exact Option.some.inj he ▸ h.push hn
  | call c =>
    cases c with
    | none => exact Option.some.inj hs' ▸ ⟨h.cur, h.chained, h.nodup, h.tame⟩
    | some env => exact Option.some.inj hs' ▸ ⟨h.cur, h.chained, h.nodup, h.tame⟩
  | ret v => exact (hpReturn_spec h hs').1
  | throw v => exact Option.some.inj hs' ▸ (hpThrow_spec h).1

theorem inv_of_reach (h : thread.Reach s) : Inv s := by
  apply Sys.Reach.inv _ (fun _ _ _ hi hs => hi.step hs) h
  intro s h0
  obtain ⟨prev, rfl⟩ := h0
  exact .start prev

theorem inv_of_run {ls : List Step} (h : Inv s) (hr : thread.run s ls = some t) : Inv t := by
  induction ls generalizing s with
  | nil => exact Option.some.inj hr ▸ h
  | cons l ls ih =>
    obtain ⟨u, hu, ht⟩ := Option.bind_eq_some_iff.1 hr
    exact ih (h.step hu) ht

end

/-- the discipline of the frames: a call of `hp_try_run` that has come back, whatever ran inside
it and however it came back, has left `hp_cur_try` as it was; a throw lands in the innermost try
that is running; no jump goes to a frame of a call that has returned -/
structure Disciplined (s : State) : Prop where
  returns : ∀ fr hfr ls s' t, thread.next s (.tryRun fr hfr) = some s' →
    thread.run s' ls = some t → t.stack = s.stack → t.hpCurTry = s.hpCurTry
  throws : ∀ v t, thread.next s (.throw v) = some t → ThrowsTo s v t
  tame : s.wild = false

/-- **The frames are disciplined in every run of a thread.** -/
theorem tries_disciplined {s : State} (h : thread.Reach s) : Disciplined s where
  returns fr hfr ls s' t hs hr hst := by
    have hi := inv_of_reach h
    have ht := inv_of_run (hi.step hs) hr
    rw [ht.cur, hi.cur, hst]
  throws v t hs := by
    obtain rfl := Option.some.inj (step_of_next hs)
    exact (hpThrow_spec (inv_of_reach h)).2.1
  tame := (inv_of_reach h).tame

/-- a try in the handler of another one: its body throws, its handler throws -/
def nested : List Step :=
  [.tryRun 1 2, .throw (.int 5), .tryRun 3 4, .throw (.int 6), .throw (.int 7)]

theorem tries_disciplined_nested : ∃ s, thread.run (start fun _ => none) nested = some s ∧
    s.stack = [.tryRun 1 2 .handler] ∧ s.hpCurTry = some 2 ∧ s.value = .int 7 ∧
    Disciplined s :=
  have hrun : thread.run (start fun _ => none) nested = some _ := rfl
  ⟨_, hrun, rfl, rfl, rfl,
    tries_disciplined (Sys.Reach.run (Sys.Reach.init ⟨fun _ => none, rfl⟩) hrun)⟩

/-! ## the environment -/

/-- the environment of the code that runs: that of the innermost closure call -/
def home : List Call → Option Addr
  | [] => none
  | .closureCall _ env :: _ => some env
  | .tryRun _ _ _ :: st => home st

/-- the environment of the code that holds the innermost try, if a try is running -/
def tryHome : List Call → Option (Option Addr)
  | [] => none
  | .closureCall _ _ :: st => tryHome st
  | .tryRun _ _ _ :: st => some (home st)

/-- every closure call has kept the environment of the code that made it -/
def Saved : List Call → Prop
  | [] => True
  | .closureCall saved _ :: st => saved = home st ∧ Saved st
  | .tryRun _ _ _ :: st => Saved st

/-- `hp_cur_env` is what the code that runs had when it started -/
def EnvOk (s : State) : Prop := s.hpCurEnv = home s.stack

/-- a throw is made by code with the environment of the code that holds the innermost try -/
def AtHome (s : State) : Step → Prop
  | .throw _ => ∀ e, tryHome s.stack = some e → e = home s.stack
  | _ => True

structure EnvInv (s : State) : Prop where
  inv : Inv s
  saved : Saved s.stack
  env : EnvOk s

section
variable {st st' : List Call}

theorem Lands.home (h : Lands st st') : tryHome st = some (home st') := by
  induction h with
  | call _ ih => exact ih
  | body => rfl
  | handler => rfl

theorem Lands.saved (h : Lands st st') (hs : Saved st) : Saved st' := by
  induction h with
  | call _ ih => exact ih hs.2
  | body => exact hs
  | handler => exact hs

theorem tryHome_innermost (h : innermost st = none) : tryHome st = none := by
  induction st with
  | nil => rfl
  | cons c st ih =>
    rcases c with ⟨fr, hfr, _ | _⟩ | _
    · nomatch h
    · nomatch h
    · exact ih h

end

section
variable {s t : State} {l : Step}

theorem EnvInv.start (prev : Addr → Option Addr) : EnvInv (start prev) :=
  ⟨.start prev, trivial, rfl⟩

/-- a step keeps the environment in order, unless it is a throw from other code -/
theorem EnvInv.step (h : EnvInv s) (hs : thread.next s l = some t) (ha : AtHome s l) :
    EnvInv t := by
  have hinv := h.inv.step hs
  have hs' := step_of_next hs
  cases l with
  | tryRun fr hfr =>
    obtain ⟨hn, he⟩ := Option.ite_none_right_eq_some.1 hs'
    obtain rfl := Option.some.inj he
    exact ⟨hinv, h.saved, h.env⟩
  | call c =>
    cases c with
    | none =>
      obtain rfl := Option.some.inj hs'
      exact ⟨hinv, h.saved, h.env⟩
    | some env =>
      obtain rfl := Option.some.inj hs'
      exact ⟨hinv, ⟨h.env, h.saved⟩, rfl⟩
  | ret v =>
    obtain ⟨-, -, ⟨fr, hfr, phase, hst, he⟩ | ⟨saved, env, hst, he⟩⟩ := hpReturn_spec h.inv hs'
    · have henv := h.env
      have hsaved := h.saved
      unfold EnvOk at henv
      rw [hst] at henv hsaved
      exact ⟨hinv, hsaved, he.trans henv⟩
    · have hsaved := h.saved
      rw [hst] at hsaved
      exact ⟨hinv, hsaved.2, he.trans hsaved.1⟩
  | throw v =>
    obtain rfl := Option.some.inj hs'
    obtain ⟨-, hto, he⟩ := hpThrow_spec (v := v) h.inv
    by_cases hin : innermost s.stack = none
    · have hend := hto.uncaught hin
      rw [hend]
      exact ⟨⟨h.inv.cur, h.inv.chained, h.inv.nodup, h.inv.tame⟩, h.saved, h.env⟩
    · have hlands := (hto.lands hin).1
      refine ⟨hinv, hlands.saved h.saved, ?_⟩
      exact he.trans (h.env.trans (ha _ hlands.home).symm)

/-- after a throw from other code the environment is not that of the code that goes on -/
theorem atHome_of (h : EnvInv s) (hs : thread.next s l = some t) (ht : EnvOk t) :
    AtHome s l := by
  cases l with
  | throw v =>
    intro e htry
    obtain rfl := Option.some.inj (step_of_next hs)
    obtain ⟨-, hto, he⟩ := hpThrow_spec (v := v) h.inv
    have hin : innermost s.stack ≠ none := fun hno => nomatch (tryHome_innermost hno).symm.trans htry
    have hhome := (hto.lands hin).1.home.symm.trans htry
    calc e = home (hpThrow v s).stack := (Option.some.inj hhome).symm
      _ = (hpThrow v s).hpCurEnv := ht.symm
      _ = s.hpCurEnv := he
      _ = home s.stack := h.env
  | tryRun fr hfr => trivial
  | call c => trivial
  | ret v => trivial

end

/-- **In every state of a run `hp_cur_env` is that of the code that runs if and only if every
throw is made at home.** -/
theorem envs_iff (prev : Addr → Option Addr) (ls : List Step) :
    (∀ p s, p <+: ls → thread.run (start prev) p = some s → EnvOk s) ↔
      ∀ p l s t, p ++ [l] <+: ls → thread.run (start prev) p = some s →
        thread.next s l = some t → AtHome s l :=
  Sys.run_iff (EnvInv.start prev) (fun _ h => h.env) (fun _ _ _ h hs ha => h.step hs ha)
    fun _ _ _ h hs ht => atHome_of h hs ht

/-- a closure (environment 1) calls in a try another one (environment 2), which throws: the
handler of the first one runs with the environment of the second -/
theorem envs_stale : ∃ s, thread.run (start fun _ => none)
      [.call (some 1), .tryRun 10 11, .call (some 2), .throw .null] = some s ∧
    s.stack = [.tryRun 10 11 .handler, .closureCall none 1] ∧ s.hpCurEnv = some 2 ∧ ¬ EnvOk s :=
  ⟨_, rfl, rfl, rfl, fun h => absurd (Option.some.inj h) (by decide)⟩

end Try
end HolyPhp
