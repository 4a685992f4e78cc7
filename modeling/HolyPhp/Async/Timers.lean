import HolyPhp.Lib.Runs
import HolyPhp.Lib.Traces
import HolyPhp.Runtime.ArrList
import HolyPhp.Runtime.Boxed

/-!
# The timers of `Loop`

`$timers` is an array of arrays `[whenMs, intervalMs, callback, cancelled]`.  An inner array is known
by its address: they are made one after the other, so the address is the number of timers that were
made before.  The callbacks may call the loop again; their calls are steps of the run.

* `create`, `cancelTimer`     `after` and `every`, and `cancelTimer`;
* `dueIds`, `next`, `ret`     `tick`, up to the loop over `$due`, up to a callback, and behind it;
* `loops`                     the runs of a loop, with the events of a run as its trace;
* `Denotes`, `Allowed`        the ids, and what may happen when;
* `Fits`                      the steps that leave the places of the timers alone.

The sockets of `tick` have no part in it.
-/

set_option autoImplicit false

namespace HolyPhp
namespace Timers
open Arr
open Cmp (Calls hpLe hpGt)

/-! ## the state -/

/-- an array of `$timers`, without the callback -/
structure Timer where
  whenMs : Int64
  intervalMs : Int64
  cancelled : Bool

inductive Event where
  /-- `id` was returned for the timer at `p` -/
  | created (id : Int64) (p : Addr) (whenMs intervalMs : Int64)
  | cancelled (id : Int64)
  /-- `tick`, at the time `t` -/
  | began (t : Int64)
  /-- the callback of the timer at `p` -/
  | fired (p : Addr)
  | ended
  /-- "value of type null is not callable" -/
  | thrown

inductive Phase where
  | idle
  /-- what is left of `$due` in the tick at `t` -/
  | due (t : Int64) (ids : List Val)
  /-- in the callback of `$tm`, which is at `p` -/
  | call (t : Int64) (id : Val) (p : Addr) (ids : List Val)

structure Loop where
  timers : Harr
  timerSeq : Int64
  /-- the inner arrays by their addresses -/
  heap : List Timer
  phase : Phase
  trace : List Event

/-- `$tm` -/
def timerAt (heap : List Timer) : Val → Option (Addr × Timer)
  | .arr (some p) => (heap[p]?).map (p, ·)
  | _ => none

/-- a write to the inner array that the value is -/
def modifyAt (heap : List Timer) (f : Timer → Timer) : Val → List Timer
  | .arr (some p) => heap.modify p f
  | _ => heap

/-! ## the functions -/

/-- `after`, with the interval 0, and `every`; where the memory for the array is not there the
program ends -/
def create (l : Loop) (now ms intervalMs : Int64) : Option Loop :=
  let id := l.timerSeq
  let p := l.heap.length
  let whenMs := now + ms
  if p + 1 < 2 ^ 63 then
    (hpArrSet l.timers (.int id) (.arr (some p))).map fun a =>
      { l with
        timers := a
        timerSeq := id + 1
        heap := l.heap ++ [⟨whenMs, intervalMs, false⟩]
        trace := l.trace ++ [.created id p whenMs intervalMs] }
  else none

def cancelTimer (l : Loop) (id : Int64) : Option Loop := do
  let found ← hpArrHas l.timers (.int id)
  let v ← hpArrGet l.timers (.int id)
  return { l with
    heap := if found then modifyAt l.heap ({ · with cancelled := true }) v else l.heap
    trace := l.trace ++ [.cancelled id] }

section
variable (c : Calls)

/-- the key that `foreach` gives with the element `i` -/
def iterKey (a : Harr) (i : Nat) : Val := if a.isMap then a.key i else .int (Int64.ofNat i)

/-- `$tm[0] <= $t`, for one that is not cancelled -/
def isDue (heap : List Timer) (t : Int64) (v : Val) : Bool :=
  match timerAt heap v with
  | some (_, x) => !x.cancelled && hpLe c (.int x.whenMs) (.int t)
  | none => false

/-- `$due` -/
def dueIds (l : Loop) (t : Int64) : List Val :=
  ((List.range l.timers.len).filter fun i => isDue c l.heap t (l.timers.vals i)).map
    (iterKey l.timers)

/-- the loop over `$due` up to the next callback -/
def next (l : Loop) (t : Int64) : List Val → Option Loop
  | [] => some { l with phase := .idle, trace := l.trace ++ [.ended] }
  | id :: ids => (hpArrGet l.timers id).map fun v =>
    match timerAt l.heap v with
    | none => { l with phase := .idle, trace := l.trace ++ [.thrown] }
    | some (p, x) =>
      if x.cancelled then { l with phase := .due t ids }
      else { l with phase := .call t id p ids, trace := l.trace ++ [.fired p] }

/-- behind a callback: a repeating timer is set again, any other one goes -/
def ret (l : Loop) (now : Int64) (id : Val) (p : Addr) : Option Loop := do
  let x ← l.heap[p]?
  if hpGt c (.int x.intervalMs) (.int 0) then
    let found ← hpArrHas l.timers id
    let v ← hpArrGet l.timers id
    return { l with
      heap := if found then modifyAt l.heap ({ · with whenMs := now + x.intervalMs }) v
        else l.heap }
  else
    let a ← hpArrUnset l.timers id
    return { l with timers := a }

inductive Act where
  | after (now ms : Int64)
  | every (now ms : Int64)
  | cancelTimer (id : Int64)
  | tick (t : Int64)
  | next
  | ret (now : Int64)

/-- the functions of the loop are called from outside of it, or from a callback -/
def Phase.calls : Phase → Bool
  | .due _ _ => false
  | _ => true

def step (l : Loop) : Act → Option Loop
  | .after now ms => if l.phase.calls then create l now ms 0 else none
  | .every now ms => if l.phase.calls then create l now ms ms else none
  | .cancelTimer id => if l.phase.calls then cancelTimer l id else none
  | .tick t =>
    match l.phase with
    | .idle => some { l with phase := .due t (dueIds c l t), trace := l.trace ++ [.began t] }
    | _ => none
  | .next =>
    match l.phase with
    | .due t ids => next l t ids
    | _ => none
  | .ret now =>
    match l.phase with
    | .call t id p ids => (ret c l now id p).map ({ · with phase := .due t ids })
    | _ => none

/-- `new Loop()` -/
def new (junk : Nat → Val) : Loop := ⟨hpArrNew junk, 0, [], .idle, []⟩

def loops : Runs.Sys Loop Act := ⟨fun l => ∃ junk, l = new junk, step c⟩

end

/-! ## the ids and the events -/

/-- `cancelTimer` was called with the id of the timer at `p` -/
def CancelledIn (tr : List Event) (id : Int64) (p : Addr) : Prop :=
  ∃ a b w i, tr = a ++ .cancelled id :: b ∧ .created id p w i ∈ a

/-- the id of a timer stands for it, or for nothing once a one-shot timer has been invoked -/
def Denotes (l : Loop) : Prop :=
  ∀ id p w i, .created id p w i ∈ l.trace →
    hpArrGet l.timers (.int id) = some (.arr (some p)) ∨
      i ≤ 0 ∧ .fired p ∈ l.trace ∧ hpArrGet l.timers (.int id) = some .null

/-- the last tick began at `t` behind `before`, and `mid` was since -/
structure Tick (tr : List Event) (t : Int64) (before mid : List Event) : Prop where
  eq : tr = before ++ .began t :: mid
  last : ∀ u, .began u ∉ mid

/-- A timer is invoked in a tick, once in it, and not when it was cancelled; a one-shot timer once
only, and not before its time.  When a tick is over, the one-shot timers whose time had come were
invoked or cancelled. -/
def Allowed (pre : List Event) : Event → Prop
  | .fired p => ∃ t before mid, Tick pre t before mid ∧ .fired p ∉ mid ∧
      ∀ id w i, .created id p w i ∈ pre →
        ¬ CancelledIn pre id p ∧ (i ≤ 0 → .fired p ∉ pre ∧ w ≤ t)
  | .ended => ∃ t before mid, Tick pre t before mid ∧
      ∀ id p w i, .created id p w i ∈ before → i ≤ 0 → w ≤ t →
        .fired p ∈ pre ∨ CancelledIn pre id p
  | .thrown => False
  | _ => True

structure Good (l : Loop) : Prop where
  denotes : Denotes l
  trace : Traces.Along Allowed l.trace

/-- A timer is made only while none has gone, a one-shot timer goes from the last place only, and no
one is taken for due whose time is later. -/
def Fits (l : Loop) : Act → Prop
  | .after _ _ | .every _ _ => l.timerSeq.toInt = l.timers.len
  | .next => ∀ t id ids v p x, l.phase = .due t (id :: ids) → hpArrGet l.timers id = some v →
      timerAt l.heap v = some (p, x) → x.cancelled = false → x.intervalMs ≤ 0 → x.whenMs ≤ t
  | .ret _ => ∀ t id p ids x, l.phase = .call t id p ids → l.heap[p]? = some x →
      x.intervalMs ≤ 0 → id = .int (Int64.ofNat (l.timers.len - 1))
  | _ => True

end Timers
end HolyPhp
