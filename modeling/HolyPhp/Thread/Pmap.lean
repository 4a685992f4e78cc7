import Mathlib.Data.List.Nodup
import HolyPhp.Lib.Graph
import HolyPhp.Runtime.Arr
import HolyPhp.Thread.ChanInv

/-!
# `hpbi_thr_parallel_map`: workers that send their results through a channel

One call of `hpbi_thr_parallel_map` with its threads.  The closure is a function of its argument
(it is pure and does not throw), job `i` sends under the number `i`, and the receives of the
collector have the numbers from `n` on.

* `pmapWorker c s i`  the closure call of job `i`, its message and the section of its send;
* `mainStep c s`      the next step of the calling thread;
* `workerStep s i`    the next step of the thread of job `i`;
* `Inv c s`           what holds in every reachable state, whatever fails;
* `Ready c`           nothing fails and every item is found under its position.
-/

set_option linter.unusedVariables false

namespace HolyPhp
namespace Pmap
open Function Runs Arr Graph

/-- a call, and what the system answers in it -/
structure Input where
  clo : Val → Val
  items : Harr
  workersv : Val
  /-- `malloc(sizeof(PmapJob))` in round `i` of the loop -/
  jobOk : Nat → Bool
  /-- `pthread_create` in round `i` -/
  createOk : Nat → Bool
  /-- the two `calloc`s of the collector -/
  tablesOk : Bool
  /-- new memory holds this -/
  junk : Nat → Val

/-- the state of the collector: `slots`, `have`, `got` and how often it has received -/
structure Collect where
  slots : Nat → Val
  has : Nat → Bool
  got : Nat
  rounds : Nat

/-- where the calling thread stands -/
inductive Main where
  /-- at the head of the first loop -/
  | launch (i : Nat)
  /-- in `chan_send_impl` of the job `i`, which it runs itself -/
  | inline (i : Nat)
  /-- in `pthread_join(pts[t])` -/
  | join (t : Nat)
  /-- at the head of the loop of the collector -/
  | collect (k : Collect)
  /-- in `chan_recv_impl` -/
  | recv (k : Collect)
  | done (out : Harr)

structure State where
  ch : Chan.State Bytes
  /-- `j->item` of the job -/
  item : Nat → Val
  /-- the array behind the message of the job -/
  msg : Nat → Harr
  /-- the jobs of `pts[0..launched)` -/
  pts : List Nat
  main : Main

def idxKey : Val := .str (some [105, 100, 120])

def valKey : Val := .str (some [118, 97, 108])

namespace Input
variable (c : Input)

def n : Nat := c.items.len

def workers : Nat :=
  let w : Int := (hpValToInt c.workersv).toInt
  let w : Int := if w < 1 then 4 else w
  let w : Int := if (c.n : Int) < w then c.n else w
  (if 64 < w then 64 else w).toNat

end Input

/-- `out`, with a null where no result came -/
def result (c : Input) (k : Collect) : Harr :=
  (List.range c.n).foldl (fun a i => hpArrPush a (if k.has i then k.slots i else .null))
    (hpArrNew c.junk)

/-- up to the end of the section of `chan_send_impl` -/
def pmapWorker (c : Input) (s : State) (i : Nat) : Option State :=
  (hpMapOf c.junk [(idxKey, .int (Int64.ofNat i)), (valKey, c.clo (s.item i))]).map fun m =>
    { s with msg := update s.msg i m, ch := Chan.chanSendImpl s.ch i (.arr (some i)) true }

/-- round `i` of the first loop -/
def launchRound (c : Input) (s : State) (i : Nat) : Option State :=
  if c.jobOk i then
    (hpArrGet c.items (.int (Int64.ofNat i))).bind fun v =>
      let s := { s with item := update s.item i v }
      if i < c.workers then
        if c.createOk i then some { s with pts := s.pts ++ [i], main := .launch (i + 1) }
        else some { s with main := .launch (i + 1) }
      else (pmapWorker c s i).map ({ · with main := .inline i })
  else some { s with main := .launch (i + 1) }

/-- what the collector does with a message -/
def collectMsg (c : Input) (s : State) (k : Collect) : Val → Option Collect
  | .arr (some p) =>
    (hpArrGet (s.msg p) idxKey).bind fun iv => (hpArrGet (s.msg p) valKey).map fun vv =>
      let idx := (hpValToInt iv).toInt
      if 0 ≤ idx ∧ idx < c.n ∧ k.has idx.toNat = false then
        { k with
          has := update k.has idx.toNat true
          slots := update k.slots idx.toNat vv
          got := k.got + 1
          rounds := k.rounds + 1 }
      else { k with rounds := k.rounds + 1 }
  | _ => some { k with rounds := k.rounds + 1 }

/-- the end of a blocked send -/
def sendStep (s : State) (i : Nat) : Option State :=
  match s.ch.call i, (s.ch.wtr i).done with
  | .sendWait, true => some { s with ch := Chan.chanSendWake s.ch i }
  | _, _ => none

def mainStep (c : Input) (s : State) : Option State :=
  match s.main with
  | .launch i => if i < c.n then launchRound c s i else some { s with main := .join 0 }
  | .inline i =>
    match s.ch.call i with
    | .sent _ _ => some { s with main := .launch (i + 1) }
    | _ => sendStep s i
  | .join t =>
    match s.pts[t]? with
    | some i =>
      match s.ch.call i with
      | .sent _ _ => some { s with main := .join (t + 1) }
      | _ => none
    | none =>
      if c.tablesOk then some { s with main := .collect ⟨fun _ => .null, fun _ => false, 0, 0⟩ }
      else some { s with main := .done (hpArrNew c.junk) }
  | .collect k =>
    if k.got < c.n then
      some { s with ch := Chan.chanRecvBody s.ch (c.n + k.rounds) true, main := .recv k }
    else some { s with main := .done (result c k) }
  | .recv k =>
    match s.ch.call (c.n + k.rounds) with
    | .got (some m) => (collectMsg c s k m).map fun k => { s with main := .collect k }
    | .got none => some { s with main := .done (result c k) }
    | .recvWait =>
      if (s.ch.wtr (c.n + k.rounds)).done then
        some { s with ch := Chan.chanRecvWake s.ch (c.n + k.rounds) }
      else none
    | _ => none
  | .done _ => none

def workerStep (c : Input) (s : State) (i : Nat) : Option State :=
  match s.ch.call i with
  | .idle => pmapWorker c s i
  | _ => sendStep s i

inductive Act where
  | main
  /-- the thread of job `i` -/
  | worker (i : Nat)

def next (c : Input) (s : State) : Act → Option State
  | .main => mainStep c s
  | .worker i => if i ∈ s.pts then workerStep c s i else none

/-- behind `hpbi_chan_new(hp_of_int(n))`; without items the call returns at once -/
def start (c : Input) : State where
  ch := Chan.start (Int64.ofNat c.n)
  item := c.junk
  msg := fun _ => hpArrNew c.junk
  pts := []
  main := if c.n = 0 then .done (hpArrNew c.junk) else .launch 0

def sys (c : Input) : Sys State Act := ⟨fun s => s = start c, next c⟩

/-- the array is the list of the results of `f` on the values of `items` -/
structure Mapped (f : Val → Val) (items out : Harr) : Prop where
  list : out.isMap = false
  len : out.len = items.len
  vals : ∀ i, i < items.len → out.vals i = f (items.vals i)

/-- the call has returned the mapped list -/
def Returned (c : Input) (s : State) : Prop := ∃ out, s.main = .done out ∧ Mapped c.clo c.items out

/-! ## messages -/

/-- the array of a message -/
structure Message (m : Harr) (i : Nat) (v : Val) : Prop where
  idx : hpArrGet m idxKey = some (.int (Int64.ofNat i))
  val : hpArrGet m valKey = some v

theorem message (junk : Nat → Val) (i : Nat) (v : Val) :
    ∃ m, hpMapOf junk [(idxKey, .int (Int64.ofNat i)), (valKey, v)] = some m ∧ Message m i v := by
  refine ⟨_, rfl, ?_, ?_⟩
  · rfl
  · rfl

/-! ## the invariant -/

namespace State
variable (s : State)

/-- the jobs whose message was taken by the channel -/
def jobs : List Nat := s.ch.entered.map Prod.fst

/-- the messages that were received -/
def received : List Val := s.ch.left.map Prod.snd

end State

/-- the rounds of the first loop that are over -/
def Main.front (n : Nat) : Main → Nat
  | .launch i => i
  | .inline i => i + 1
  | _ => n

/-- the channel and the jobs of the first `N` rounds -/
structure Core (c : Input) (s : State) (N : Nat) : Prop where
  chan : (Chan.sys Bytes).Reach s.ch
  cap : s.ch.ch.cap = c.n
  opened : s.ch.ch.closed = false
  le : N ≤ c.n
  entered : ∀ p ∈ s.ch.entered, p.1 < N ∧ p.2 = .arr (some p.1)
  nodup : s.jobs.Nodup
  calls : ∀ i, i < c.n → (s.ch.call i = .idle ∧ i ∉ s.jobs) ∨
    (s.ch.call i = .sent (.arr (some i)) true ∧ i ∈ s.jobs)
  msgs : ∀ i ∈ s.jobs, Message (s.msg i) i (c.clo (s.item i))
  fetched : ∀ i, i < N → c.jobOk i = true →
    hpArrGet c.items (.int (Int64.ofNat i)) = some (s.item i)
  started : ∀ i ∈ s.pts, i < N ∧ c.jobOk i = true ∧ c.createOk i = true
  sent : ∀ i ∈ s.jobs, c.jobOk i = true ∧ (i ∈ s.pts ∨ c.workers ≤ i)

/-- a job that got its memory has a thread, or was run by the calling thread -/
def Placed (c : Input) (s : State) (N : Nat) : Prop :=
  ∀ i, i < N → c.jobOk i = true →
    (i < c.workers → c.createOk i = true → i ∈ s.pts) ∧ (c.workers ≤ i → i ∈ s.jobs)

/-- `r` receives were called, and all of them have returned -/
def Quiet (c : Input) (s : State) (r : Nat) : Prop :=
  ∀ j, c.n ≤ j → (c.n + r ≤ j → s.ch.call j = .idle) ∧
    (j < c.n + r → ∃ o, s.ch.call j = .got o)

/-- the tables of the collector after the messages of the list -/
structure Gathered (c : Input) (item : Nat → Val) (k : Collect) (ms : List Val) : Prop where
  got : ms.length = k.got
  has : ∀ i, i < c.n → (k.has i = true ↔ HVal.arr (some i) ∈ ms)
  slots : ∀ i, i < c.n → k.has i = true → k.slots i = c.clo (item i)

/-- the receive of the collector has its message, or waits for ever -/
inductive Receiving (c : Input) (s : State) (k : Collect) : Prop
  | got (m : Val) (ms : List Val) : s.ch.call (c.n + k.rounds) = .got (some m) →
      s.received = ms ++ [m] → Gathered c s.item k ms → Receiving c s k
  | asleep : s.ch.call (c.n + k.rounds) = .recvWait →
      (s.ch.wtr (c.n + k.rounds)).done = false → s.ch.ch.len = 0 →
      Gathered c s.item k s.received → Receiving c s k

/-- the threads that were started have ended -/
def Joined (s : State) : Prop := ∀ i ∈ s.pts, i ∈ s.jobs

def Place (c : Input) (s : State) : Main → Prop
  | .launch _ => Quiet c s 0 ∧ s.ch.left = []
  | .inline i => Quiet c s 0 ∧ s.ch.left = [] ∧ i ∈ s.jobs
  | .join t => Quiet c s 0 ∧ s.ch.left = [] ∧ ∀ i ∈ s.pts.take t, i ∈ s.jobs
  | .collect k => Quiet c s k.rounds ∧ Joined s ∧ c.tablesOk = true ∧ Gathered c s.item k s.received
  | .recv k => Joined s ∧ c.tablesOk = true ∧ k.got < c.n ∧ Receiving c s k ∧
      ∀ j, c.n ≤ j → j ≠ c.n + k.rounds →
        (c.n + k.rounds ≤ j → s.ch.call j = .idle) ∧
        (j < c.n + k.rounds → ∃ o, s.ch.call j = .got o)
  | .done out => Joined s ∧ ((out = hpArrNew c.junk ∧ (c.n = 0 ∨ c.tablesOk = false)) ∨
      ∃ k, out = result c k ∧ c.n ≤ k.got ∧ c.tablesOk = true ∧ Gathered c s.item k s.received)

structure Inv (c : Input) (s : State) : Prop where
  core : Core c s (s.main.front c.n)
  placed : Placed c s (s.main.front c.n)
  place : Place c s s.main

/-! ### sends -/

section
variable {c : Input} {s t : State} {N i : Nat}

namespace Core

theorem inv (h : Core c s N) : Chan.Inv s.ch := Chan.Inv.reach h.chan

theorem jobs_lt (h : Core c s N) : ∀ j ∈ s.jobs, j < c.n := by
  intro j hj
  obtain ⟨p, hp, rfl⟩ := List.mem_map.mp hj
  exact Nat.lt_of_lt_of_le (h.entered p hp).1 h.le

/-- no call of a send sleeps -/
theorem calls_ne (h : Core c s N) (hi : i < c.n) :
    s.ch.call i ≠ .sendWait ∧ s.ch.call i ≠ .recvWait := by
  rcases h.calls i hi with ⟨he, -⟩ | ⟨he, -⟩
  · rw [he]; exact ⟨nofun, nofun⟩
  · rw [he]; exact ⟨nofun, nofun⟩

theorem queues_nil (h : Core c s N) {r : Nat} (hq : Quiet c s r) :
    s.ch.ch.sendq = [] ∧ s.ch.ch.recvq = [] := by
  have hne : ∀ j, s.ch.call j ≠ .sendWait ∧ s.ch.call j ≠ .recvWait := by
    intro j
    by_cases hj : j < c.n
    · exact h.calls_ne hj
    · by_cases hr : c.n + r ≤ j
      · rw [(hq j (by omega)).1 hr]; exact ⟨nofun, nofun⟩
      · obtain ⟨o, ho⟩ := (hq j (by omega)).2 (by omega)
        rw [ho]; exact ⟨nofun, nofun⟩
  constructor
  · apply List.eq_nil_iff_forall_not_mem.mpr
    exact fun j hj => (hne j).1 (h.inv.sendq_wait j hj).1
  · apply List.eq_nil_iff_forall_not_mem.mpr
    exact fun j hj => (hne j).2 (h.inv.recvq_wait j hj).1

/-- the messages: received ones, then those that the channel holds -/
theorem fifo_held (h : Core c s N) :
    s.jobs.map (fun i => HVal.arr (some i)) = s.received ++ s.ch.held := by
  rw [State.received, ← h.inv.fifo, State.jobs, List.map_map]
  apply List.map_congr_left
  exact fun p hp => (h.entered p hp).2.symm

theorem fifo (h : Core c s N) (hs : s.ch.ch.sendq = []) :
    s.jobs.map (fun i => HVal.arr (some i)) = s.received ++ s.ch.ch.live := by
  have hf := h.fifo_held
  rwa [Chan.State.held, Chan.State.queued, hs, List.map_nil, List.append_nil] at hf

theorem len_eq (h : Core c s N) (hs : s.ch.ch.sendq = []) :
    s.jobs.length = s.received.length + s.ch.ch.len := by
  have hf := congrArg List.length (h.fifo hs)
  rwa [List.length_map, List.length_append, Chan.ChanRec.live, Ring.length_contents] at hf

/-- a send finds a free slot -/
theorem send_fill (h : Core c s N) (hq : Quiet c s 0) (hi : i < N) (hidle : s.ch.call i = .idle)
    (v : Val) : Chan.chanSendImpl s.ch i v true = s.ch.fill i v := by
  obtain ⟨hsq, hrq⟩ := h.queues_nil hq
  have hn : i < c.n := Nat.lt_of_lt_of_le hi h.le
  have hni : i ∉ s.jobs := by
    rcases h.calls i hn with ⟨-, hni⟩ | ⟨he, -⟩
    · exact hni
    · rw [hidle] at he; cases he
  have hlt := length_lt_of_nodup h.nodup h.jobs_lt hn hni
  have hlen := h.len_eq hsq
  have hroom : 0 < s.ch.ch.cap ∧ s.ch.ch.len < s.ch.ch.cap := by
    rw [h.cap]
    omega
  rw [Chan.chanSendImpl, h.opened, if_neg Bool.false_ne_true]
  rw [hrq]
  exact if_pos hroom

end Core

/-- behind the send of job `i` -/
def State.posted (s : State) (i : Nat) (m : Harr) : State :=
  { s with msg := update s.msg i m, ch := s.ch.fill i (.arr (some i)) }

theorem jobs_posted (s : State) (i : Nat) (m : Harr) : (s.posted i m).jobs = s.jobs ++ [i] :=
  List.map_append

theorem call_posted {j : Nat} (hj : j ≠ i) (m : Harr) :
    (s.posted i m).ch.call j = s.ch.call j := update_of_ne hj _ _

theorem quiet_posted (hq : Quiet c s 0) (hi : i < c.n) (m : Harr) :
    Quiet c (s.posted i m) 0 := by
  intro j hj
  rw [call_posted (by omega)]
  exact hq j hj

namespace Core

theorem worker_spec (h : Core c s N) (hq : Quiet c s 0) (hi : i < N)
    (hidle : s.ch.call i = .idle) : ∃ m, Message m i (c.clo (s.item i)) ∧
      pmapWorker c s i = some (s.posted i m) := by
  obtain ⟨m, hm, hmsg⟩ := message c.junk i (c.clo (s.item i))
  refine ⟨m, hmsg, ?_⟩
  rw [pmapWorker, hm, h.send_fill hq hi hidle]
  rfl

theorem posted (h : Core c s N) (hq : Quiet c s 0) (hi : i < N) (hidle : s.ch.call i = .idle)
    (hok : c.jobOk i = true ∧ (i ∈ s.pts ∨ c.workers ≤ i)) {m : Harr}
    (hm : Message m i (c.clo (s.item i))) : Core c (s.posted i m) N where
  chan := by
    apply h.chan.step (l := .send i (.arr (some i)) true)
    show Chan.next s.ch (.send i (.arr (some i)) true) = _
    rw [Chan.next, hidle, h.send_fill hq hi hidle]
    rfl
  cap := h.cap
  opened := h.opened
  le := h.le
  entered p hp := by
    rcases List.mem_append.mp hp with hp | hp
    · exact h.entered p hp
    · rw [List.mem_singleton.mp hp]
      exact ⟨hi, rfl⟩
  nodup := by
    have hni : i ∉ s.jobs := by
      rcases h.calls i (Nat.lt_of_lt_of_le hi h.le) with ⟨-, hni⟩ | ⟨he, -⟩
      · exact hni
      · rw [hidle] at he; cases he
    rw [jobs_posted]
    exact Chan.Inv.nodup_snoc h.nodup hni
  calls j hj := by
    rw [jobs_posted, List.mem_append, List.mem_singleton]
    by_cases e : j = i
    · rw [e]
      exact .inr ⟨update_self .., .inr rfl⟩
    · rw [call_posted e]
      rcases h.calls j hj with ⟨hc, hni⟩ | ⟨hc, hji⟩
      · exact .inl ⟨hc, by rintro (hm | hm); exacts [hni hm, e hm]⟩
      · exact .inr ⟨hc, .inl hji⟩
  msgs j hj := by
    rw [jobs_posted, List.mem_append, List.mem_singleton] at hj
    show Message (update s.msg i m j) j (c.clo (s.item j))
    by_cases e : j = i
    · rw [e, update_self]
      exact hm
    · rw [update_of_ne e]
      exact h.msgs j (hj.resolve_right e)
  fetched := h.fetched
  started := h.started
  sent j hj := by
    rw [jobs_posted, List.mem_append, List.mem_singleton] at hj
    rcases hj with hj | rfl
    · exact h.sent j hj
    · exact hok

/-- a state with the same channel and the same messages -/
theorem congr (h : Core c s N) (hch : t.ch = s.ch) (hmsg : t.msg = s.msg) (hitem : t.item = s.item)
    (hpts : t.pts = s.pts) : Core c t N := by
  obtain ⟨ch, item, msg, pts, main⟩ := s
  obtain ⟨ch', item', msg', pts', main'⟩ := t
  dsimp only at hch hmsg hitem hpts
  subst hch hmsg hitem hpts
  exact ⟨h.chan, h.cap, h.opened, h.le, h.entered, h.nodup, h.calls, h.msgs, h.fetched, h.started,
    h.sent⟩

/-- a round that starts no job -/
theorem skip (h : Core c s N) (hN : N < c.n) (hok : c.jobOk N ≠ true) : Core c s (N + 1) where
  chan := h.chan
  cap := h.cap
  opened := h.opened
  le := hN
  entered p hp := ⟨Nat.lt_succ_of_lt (h.entered p hp).1, (h.entered p hp).2⟩
  nodup := h.nodup
  calls := h.calls
  msgs := h.msgs
  fetched i hi hj := by
    apply h.fetched i _ hj
    have : i ≠ N := fun e => hok (e ▸ hj)
    omega
  started i hi := ⟨Nat.lt_succ_of_lt (h.started i hi).1, (h.started i hi).2⟩
  sent := h.sent

/-- a round that gets its item -/
theorem fetch (h : Core c s N) (hN : N < c.n) {v : Val}
    (hv : hpArrGet c.items (.int (Int64.ofNat N)) = some v) :
    Core c { s with item := update s.item N v } (N + 1) where
  chan := h.chan
  cap := h.cap
  opened := h.opened
  le := hN
  entered p hp := ⟨Nat.lt_succ_of_lt (h.entered p hp).1, (h.entered p hp).2⟩
  nodup := h.nodup
  calls := h.calls
  msgs i hi := by
    have : i ≠ N := by
      obtain ⟨p, hp, rfl⟩ := List.mem_map.mp hi
      have := (h.entered p hp).1
      omega
    show Message (s.msg i) i (c.clo (update s.item N v i))
    rw [update_of_ne this]
    exact h.msgs i hi
  fetched i hi hj := by
    show _ = some (update s.item N v i)
    by_cases e : i = N
    · rw [e, update_self]
      exact hv
    · rw [update_of_ne e]
      exact h.fetched i (by omega) hj
  started i hi := ⟨Nat.lt_succ_of_lt (h.started i hi).1, (h.started i hi).2⟩
  sent := h.sent

/-- one more thread -/
theorem launch (h : Core c s (N + 1)) (hok : c.jobOk N = true) (hcr : c.createOk N = true) :
    Core c { s with pts := s.pts ++ [N] } (N + 1) where
  chan := h.chan
  cap := h.cap
  opened := h.opened
  le := h.le
  entered := h.entered
  nodup := h.nodup
  calls := h.calls
  msgs := h.msgs
  fetched := h.fetched
  started i hi := by
    rcases List.mem_append.mp hi with hi | hi
    · exact h.started i hi
    · rw [List.mem_singleton.mp hi]
      exact ⟨Nat.lt_succ_self N, hok, hcr⟩
  sent i hi := ⟨(h.sent i hi).1, (h.sent i hi).2.imp_left fun hp => List.mem_append_left _ hp⟩

/-! ### receives -/

theorem of_recv (h : Core c s N) (hq : Quiet c s i) {u : Chan.State Bytes}
    (hu : Chan.chanRecvBody s.ch (c.n + i) true = u) (hcap : u.ch.cap = s.ch.ch.cap)
    (hcl : u.ch.closed = s.ch.ch.closed) (hent : u.entered = s.ch.entered)
    (hcall : ∀ j, j < c.n → u.call j = s.ch.call j) : Core c { s with ch := u } N where
  chan := by
    apply h.chan.step (l := .recv (c.n + i) true)
    show Chan.next s.ch (.recv (c.n + i) true) = some u
    rw [Chan.next, (hq (c.n + i) (by omega)).1 (Nat.le_refl _)]
    exact congrArg some hu
  cap := hcap.trans h.cap
  opened := hcl.trans h.opened
  le := h.le
  entered p hp := h.entered p (hent ▸ hp)
  nodup := by
    rw [State.jobs, hent]
    exact h.nodup
  calls j hj := by
    rw [State.jobs, hent, hcall j hj]
    exact h.calls j hj
  msgs j hj := by
    rw [State.jobs, hent] at hj
    exact h.msgs j hj
  fetched := h.fetched
  started := h.started
  sent j hj := by
    rw [State.jobs, hent] at hj
    exact h.sent j hj

/-- a receive takes the oldest message, or sleeps at an empty channel -/
theorem recv_cases (h : Core c s N) {r : Nat} (hq : Quiet c s r) :
    (0 < s.ch.ch.len ∧ Chan.chanRecvBody s.ch (c.n + r) true = s.ch.takeBuf (c.n + r)) ∨
    (s.ch.ch.len = 0 ∧ Chan.chanRecvBody s.ch (c.n + r) true = s.ch.queueRecv (c.n + r)) := by
  obtain ⟨hsq, -⟩ := h.queues_nil hq
  rw [Chan.chanRecvBody, hsq, h.opened]
  by_cases hl : 0 < s.ch.ch.len
  · exact .inl ⟨hl, if_pos hl⟩
  · exact .inr ⟨by omega, if_neg hl⟩

theorem recv (h : Core c s N) {r : Nat} (hq : Quiet c s r) :
    Core c { s with ch := Chan.chanRecvBody s.ch (c.n + r) true } N := by
  have hne : ∀ j, j < c.n → j ≠ c.n + r := fun j hj => by omega
  rcases h.recv_cases hq with ⟨-, he⟩ | ⟨-, he⟩
  · rw [he]
    exact h.of_recv hq he rfl rfl rfl fun j hj => update_of_ne (hne j hj) _ _
  · rw [he]
    exact h.of_recv hq he rfl rfl rfl fun j hj => update_of_ne (hne j hj) _ _

/-- the message that comes next is of a job that was not received before -/
theorem next_message (h : Core c s N) (hs : s.ch.ch.sendq = []) {ms : List Val} {m : Val}
    (hr : s.received = ms ++ [m]) : ∃ i, i ∈ s.jobs ∧ m = .arr (some i) ∧ m ∉ ms := by
  have hf := h.fifo hs
  rw [hr] at hf
  have hm : m ∈ s.jobs.map (fun i => HVal.arr (some i)) := by
    rw [hf]
    simp
  have hnd : (s.jobs.map (fun i => (HVal.arr (some i) : Val))).Nodup := by
    apply h.nodup.map
    intro a b e
    injection e with e
    injection e
  obtain ⟨i, hi, rfl⟩ := List.mem_map.mp hm
  refine ⟨i, hi, rfl, fun hmem => ?_⟩
  rw [hf, List.nodup_append] at hnd
  have hms := hnd.1
  rw [List.nodup_append] at hms
  exact hms.2.2 _ hmem _ (List.mem_singleton.mpr rfl) rfl

end Core

theorem collectMsg_spec (h : Core c s N) (hn : c.n < 2 ^ 63) (hi : i ∈ s.jobs) {k : Collect}
    (hk : k.has i = false) : collectMsg c s k (.arr (some i)) = some
      { k with
        has := update k.has i true
        slots := update k.slots i (c.clo (s.item i))
        got := k.got + 1
        rounds := k.rounds + 1 } := by
  have hlt := h.jobs_lt i hi
  have hidx : (hpValToInt (.int (Int64.ofNat i))).toInt = i := Int64.toInt_ofNat_of_lt (by omega)
  rw [collectMsg, (h.msgs i hi).idx, (h.msgs i hi).val]
  show some _ = _
  dsimp only
  rw [hidx, Int.toNat_natCast, if_pos ⟨by omega, by omega, hk⟩]

theorem Gathered.add {k : Collect} {ms : List Val} (h : Gathered c s.item k ms) (hi : i < c.n) :
    Gathered c s.item
      { k with
        has := update k.has i true
        slots := update k.slots i (c.clo (s.item i))
        got := k.got + 1
        rounds := k.rounds + 1 } (ms ++ [.arr (some i)]) where
  got := by rw [List.length_append, h.got]; rfl
  has j hj := by
    show update k.has i true j = true ↔ _
    rw [List.mem_append, List.mem_singleton]
    by_cases e : j = i
    · rw [e, update_self]
      exact ⟨fun _ => .inr rfl, fun _ => rfl⟩
    · rw [update_of_ne e, h.has j hj]
      constructor
      · exact .inl
      · rintro (hm | hm)
        · exact hm
        · injection hm with hm
          injection hm with hm
          exact absurd hm e
  slots j hj hh := by
    show update k.slots i _ j = _
    by_cases e : j = i
    · rw [e, update_self]
    · rw [update_of_ne e]
      have hh' : update k.has i true j = true := hh
      rw [update_of_ne e] at hh'
      exact h.slots j hj hh'

/-! ### steps -/

/-- goes down in every step of the calling thread -/
def rank (c : Input) (s : State) : Nat :=
  match s.main with
  | .launch i => 2 * c.n + 3 + s.pts.length + 3 * (c.n - i)
  | .inline i => 2 * c.n + 2 + s.pts.length + 3 * (c.n - i)
  | .join t => 2 * c.n + 2 + (s.pts.length - t)
  | .collect k => 2 * (c.n - k.got) + 1
  | .recv k => 2 * (c.n - k.got)
  | .done _ => 0

/-- what a step of the calling thread leaves -/
structure Went (c : Input) (s t : State) : Prop where
  inv : Inv c t
  rank : rank c t < rank c s
  jobs : s.jobs.length ≤ t.jobs.length

namespace Inv

/-- a thread that has not sent runs while the calling thread is before the collector -/
theorem quiet_of_idle (h : Inv c s) (hi : i ∈ s.pts) (hni : i ∉ s.jobs) :
    Quiet c s 0 ∧ ∀ m, Place c (s.posted i m) s.main := by
  have hlt : i < c.n := Nat.lt_of_lt_of_le (h.core.started i hi).1 h.core.le
  have hp := h.place
  cases hm : s.main with
  | launch j =>
    rw [hm] at hp
    exact ⟨hp.1, fun m => ⟨quiet_posted hp.1 hlt m, hp.2⟩⟩
  | inline j =>
    rw [hm] at hp
    refine ⟨hp.1, fun m => ⟨quiet_posted hp.1 hlt m, hp.2.1, ?_⟩⟩
    rw [jobs_posted]
    exact List.mem_append_left _ hp.2.2
  | join j =>
    rw [hm] at hp
    refine ⟨hp.1, fun m => ⟨quiet_posted hp.1 hlt m, hp.2.1, fun a ha => ?_⟩⟩
    rw [jobs_posted]
    exact List.mem_append_left _ (hp.2.2 a ha)
  | collect k =>
    rw [hm] at hp
    exact absurd (hp.2.1 i hi) hni
  | recv k =>
    rw [hm] at hp
    exact absurd (hp.1 i hi) hni
  | done out =>
    rw [hm] at hp
    exact absurd (hp.1 i hi) hni

theorem worker_cases (h : Inv c s) (hi : i ∈ s.pts) :
    (i ∈ s.jobs ∧ workerStep c s i = none) ∨
    ∃ m, workerStep c s i = some (s.posted i m) ∧ Inv c (s.posted i m) := by
  have hok := h.core.started i hi
  rcases h.core.calls i (Nat.lt_of_lt_of_le hok.1 h.core.le) with ⟨hc, hni⟩ | ⟨hc, hin⟩
  · obtain ⟨hq, hplace⟩ := h.quiet_of_idle hi hni
    obtain ⟨m, hm, hrun⟩ := h.core.worker_spec hq hok.1 hc
    refine .inr ⟨m, ?_, h.core.posted hq hok.1 hc ⟨hok.2.1, .inl hi⟩ hm, fun j hj hjob => ?_,
      hplace m⟩
    · rw [workerStep, hc]
      exact hrun
    · rw [jobs_posted]
      obtain ⟨h1, h2⟩ := h.placed j hj hjob
      exact ⟨h1, fun hw => List.mem_append_left _ (h2 hw)⟩
  · refine .inl ⟨hin, ?_⟩
    rw [workerStep, hc]
    show sendStep s i = none
    rw [sendStep, hc]

/-- a round of the first loop -/
theorem launchRound (h : Inv c s) (hm : s.main = .launch i) (hi : i < c.n)
    (hs : launchRound c s i = some t) : Went c s t := by
  have hcore := h.core
  have hplaced := h.placed
  have hplace := h.place
  rw [hm] at hcore hplaced hplace
  have hidle : s.ch.call i = .idle := by
    rcases hcore.calls i hi with ⟨hc, -⟩ | ⟨-, hin⟩
    · exact hc
    · obtain ⟨p, hp, rfl⟩ := List.mem_map.mp hin
      exact absurd (hcore.entered p hp).1 (Nat.lt_irrefl _)
  rw [Pmap.launchRound] at hs
  by_cases hjob : c.jobOk i = true
  · rw [if_pos hjob] at hs
    obtain ⟨v, hv, hs⟩ := Option.bind_eq_some_iff.mp hs
    dsimp only at hs
    have hcore' := hcore.fetch hi hv
    by_cases hw : i < c.workers
    · rw [if_pos hw] at hs
      by_cases hcr : c.createOk i = true
      · -- a thread for the job
        rw [if_pos hcr] at hs
        obtain rfl := Option.some.inj hs
        refine ⟨⟨(hcore'.launch hjob hcr).congr rfl rfl rfl rfl, fun j hj hjo => ?_, hplace⟩, ?_,
          Nat.le_refl _⟩
        · by_cases e : j = i
          · rw [e]
            exact ⟨fun _ _ => by simp, fun hwi => by omega⟩
          · have hji : j < i + 1 := hj
            obtain ⟨h1, h2⟩ := hplaced j (show j < i by omega) hjo
            exact ⟨fun a b => List.mem_append_left _ (h1 a b), h2⟩
        · simp only [rank, hm, List.length_append, List.length_singleton]
          omega
      · rw [if_neg hcr] at hs
        obtain rfl := Option.some.inj hs
        refine ⟨⟨hcore'.congr rfl rfl rfl rfl, fun j hj hjo => ?_, hplace⟩, ?_, Nat.le_refl _⟩
        · by_cases e : j = i
          · rw [e]
            exact ⟨fun _ hx => absurd hx hcr, fun hwi => by omega⟩
          · have hji : j < i + 1 := hj
            exact hplaced j (show j < i by omega) hjo
        · simp only [rank, hm]
          omega
    · -- the calling thread runs the job
      rw [if_neg hw] at hs
      obtain ⟨u, hu, rfl⟩ := Option.map_eq_some_iff.mp hs
      obtain ⟨m, hmsg, hrun⟩ := hcore'.worker_spec hplace.1 (Nat.lt_succ_self i) hidle
      obtain rfl := Option.some.inj (hrun.symm.trans hu)
      have hposted := hcore'.posted hplace.1 (Nat.lt_succ_self i) hidle ⟨hjob, .inr (by omega)⟩ hmsg
      have hjobs : ∀ j, j ∈ s.jobs ∨ j = i →
          j ∈ (State.posted { s with item := update s.item i v } i m).jobs := by
        intro j hj
        rw [jobs_posted]
        rcases hj with hj | rfl
        · exact List.mem_append_left _ hj
        · simp
      refine ⟨⟨hposted.congr rfl rfl rfl rfl, fun j hj hjo => ?_,
        quiet_posted hplace.1 hi m, hplace.2, hjobs i (.inr rfl)⟩, ?_, ?_⟩
      · have hji : j < i + 1 := hj
        by_cases e : j = i
        · exact ⟨fun hwi => by omega, fun _ => hjobs j (.inr e)⟩
        · obtain ⟨h1, h2⟩ := hplaced j (show j < i by omega) hjo
          exact ⟨h1, fun a => hjobs j (.inl (h2 a))⟩
      · simp only [rank, hm, State.posted]
        omega
      · show s.jobs.length ≤ (State.posted _ i m).jobs.length
        rw [jobs_posted, List.length_append]
        exact Nat.le_add_right _ _
  · rw [if_neg hjob] at hs
    obtain rfl := Option.some.inj hs
    refine ⟨⟨(hcore.skip hi hjob).congr rfl rfl rfl rfl, fun j hj hjo => ?_, hplace⟩, ?_,
      Nat.le_refl _⟩
    · have hji : j < i + 1 := hj
      have : j ≠ i := fun e => hjob (e ▸ hjo)
      exact hplaced j (show j < i by omega) hjo
    · simp only [rank, hm]
      omega

/-- a step that moves the calling thread on behind the first loop -/
theorem goto (h : Inv c s) {p : Main} (hs : s.main.front c.n = c.n) (hp : p.front c.n = c.n)
    (hplace : Place c { s with main := p } p) : Inv c { s with main := p } := by
  have hcore := h.core
  have hplaced := h.placed
  rw [hs] at hcore hplaced
  refine ⟨?_, ?_, hplace⟩
  · rw [hp]
    exact hcore.congr rfl rfl rfl rfl
  · rw [hp]
    exact hplaced

theorem collect (h : Inv c s) {k : Collect} (hm : s.main = .collect k)
    (hs : mainStep c s = some t) : Went c s t := by
  have hcore := h.core
  have hplaced := h.placed
  have hplace := h.place
  rw [hm] at hcore hplaced hplace
  obtain ⟨hq, hj, htab, hg⟩ := hplace
  rw [mainStep, hm] at hs
  dsimp only at hs
  by_cases hk : k.got < c.n
  · rw [if_pos hk] at hs
    obtain rfl := Option.some.inj hs
    refine ⟨⟨(hcore.recv hq).congr rfl rfl rfl rfl, ?_, ?_⟩, ?_, ?_⟩
    · rcases hcore.recv_cases hq with ⟨-, he⟩ | ⟨-, he⟩
      · rw [he]; exact hplaced
      · rw [he]; exact hplaced
    · rcases hcore.recv_cases hq with ⟨hl, he⟩ | ⟨hl, he⟩
      · rw [he]
        refine ⟨hj, htab, hk, .got (s.ch.ch.buf s.ch.ch.head) s.received
          (update_self ..) (List.map_append) hg, fun j hjn hne => ?_⟩
        show (_ → update s.ch.call _ _ j = _) ∧ (_ → ∃ o, update s.ch.call _ _ j = _)
        rw [update_of_ne hne]
        exact hq j hjn
      · rw [he]
        refine ⟨hj, htab, hk, .asleep (update_self ..) ?_ hl hg, fun j hjn hne => ?_⟩
        · show (update s.ch.wtr _ _ _).done = false
          rw [update_self]
        · show (_ → update s.ch.call _ _ j = _) ∧ (_ → ∃ o, update s.ch.call _ _ j = _)
          rw [update_of_ne hne]
          exact hq j hjn
    · simp only [rank, hm]
      omega
    · rcases hcore.recv_cases hq with ⟨-, he⟩ | ⟨-, he⟩
      · rw [he]; exact Nat.le_refl _
      · rw [he]; exact Nat.le_refl _
  · rw [if_neg hk] at hs
    obtain rfl := Option.some.inj hs
    refine ⟨h.goto (by rw [hm]; rfl) rfl ⟨hj, .inr ⟨k, rfl, by omega, htab, hg⟩⟩, ?_, Nat.le_refl _⟩
    simp only [rank, hm]
    omega

/-- the message is stored under its index -/
theorem recv_got (h : Inv c s) (hn : c.n < 2 ^ 63) {k : Collect} (hm : s.main = .recv k) {m : Val}
    {ms : List Val} (hc : s.ch.call (c.n + k.rounds) = .got (some m))
    (hr : s.received = ms ++ [m]) (hg : Gathered c s.item k ms) : ∃ k', mainStep c s =
      some { s with main := .collect k' } ∧ k'.got = k.got + 1 ∧
      Inv c { s with main := .collect k' } := by
  have hcore := h.core
  have hplaced := h.placed
  have hplace := h.place
  rw [hm] at hcore hplaced hplace
  obtain ⟨hj, htab, hk, -, hrest⟩ := hplace
  have hq : Quiet c s (k.rounds + 1) := by
    intro j hjn
    by_cases e : j = c.n + k.rounds
    · rw [e, hc]
      exact ⟨fun h => by omega, fun _ => ⟨some m, rfl⟩⟩
    · obtain ⟨h1, h2⟩ := hrest j hjn e
      exact ⟨fun h => h1 (by omega), fun h => h2 (by omega)⟩
  obtain ⟨i, hi, rfl, hnew⟩ := hcore.next_message (hcore.queues_nil hq).1 hr
  have hhas : k.has i = false := by
    rw [Bool.eq_false_iff]
    exact fun h => hnew ((hg.has i (hcore.jobs_lt i hi)).mp h)
  refine ⟨{ k with
      has := update k.has i true
      slots := update k.slots i (c.clo (s.item i))
      got := k.got + 1
      rounds := k.rounds + 1 }, ?_, rfl, h.goto (by rw [hm]; rfl) rfl ⟨hq, hj, htab, ?_⟩⟩
  · rw [mainStep, hm]
    dsimp only
    rw [hc]
    dsimp only
    rw [collectMsg_spec hcore hn hi hhas]
    rfl
  · show Gathered c s.item _ s.received
    rw [hr]
    exact hg.add (hcore.jobs_lt i hi)

theorem recv_asleep {k : Collect} (hm : s.main = .recv k)
    (hc : s.ch.call (c.n + k.rounds) = .recvWait)
    (hd : (s.ch.wtr (c.n + k.rounds)).done = false) : mainStep c s = none := by
  rw [mainStep, hm]
  dsimp only
  rw [hc]
  dsimp only
  rw [hd]
  exact if_neg Bool.false_ne_true

theorem main (h : Inv c s) (hn : c.n < 2 ^ 63) (hs : mainStep c s = some t) : Went c s t := by
  have hcore := h.core
  have hplaced := h.placed
  have hplace := h.place
  cases hm : s.main with
  | launch i =>
    rw [hm] at hcore hplaced hplace
    rw [mainStep, hm] at hs
    dsimp only at hs
    by_cases hi : i < c.n
    · rw [if_pos hi] at hs
      exact h.launchRound hm hi hs
    · rw [if_neg hi] at hs
      obtain rfl := Option.some.inj hs
      have hin : i = c.n := by
        have : i ≤ c.n := hcore.le
        omega
      refine ⟨h.goto (by rw [hm]; exact hin) rfl ⟨hplace.1, hplace.2, by simp⟩, ?_, Nat.le_refl _⟩
      simp only [rank, hm]
      omega
  | inline i =>
    rw [hm] at hcore hplaced hplace
    have hi : i < c.n := hcore.le
    have hc : s.ch.call i = .sent (.arr (some i)) true := by
      rcases hcore.calls i hi with ⟨-, hni⟩ | ⟨hc, -⟩
      · exact absurd hplace.2.2 hni
      · exact hc
    rw [mainStep, hm] at hs
    dsimp only at hs
    rw [hc] at hs
    obtain rfl := Option.some.inj hs
    refine ⟨⟨hcore.congr rfl rfl rfl rfl, hplaced, hplace.1, hplace.2.1⟩, ?_, Nat.le_refl _⟩
    simp only [rank, hm]
    omega
  | join k =>
    rw [hm] at hplace
    obtain ⟨hq, hl, htake⟩ := hplace
    rw [mainStep, hm] at hs
    dsimp only at hs
    cases hk : s.pts[k]? with
    | some i =>
      rw [hk] at hs
      dsimp only at hs
      have hlt : k < s.pts.length := (List.getElem?_eq_some_iff.mp hk).1
      split at hs
      · rename_i v ok hc
        obtain rfl := Option.some.inj hs
        have hin : i ∈ s.jobs := by
          rcases hcore.calls i (Nat.lt_of_lt_of_le
            (hcore.started i (List.mem_of_getElem? hk)).1 hcore.le) with ⟨hidle, -⟩ | ⟨-, hin⟩
          · rw [hidle] at hc; cases hc
          · exact hin
        refine ⟨h.goto (by rw [hm]; rfl) rfl ⟨hq, hl, fun j hj => ?_⟩, ?_, Nat.le_refl _⟩
        · rw [List.take_add_one, hk, List.mem_append] at hj
          rcases hj with hj | hj
          · exact htake j hj
          · rw [Option.toList_some, List.mem_singleton] at hj
            exact hj ▸ hin
        · simp only [rank, hm]
          omega
      · cases hs
    | none =>
      rw [hk] at hs
      dsimp only at hs
      have hj : Joined s := by
        intro i hi
        apply htake i
        rwa [List.take_of_length_le (List.getElem?_eq_none_iff.mp hk)]
      cases htab : c.tablesOk with
      | true =>
        rw [htab, if_pos rfl] at hs
        obtain rfl := Option.some.inj hs
        refine ⟨h.goto (by rw [hm]; rfl) rfl ⟨hq, hj, htab, ?_⟩, ?_, Nat.le_refl _⟩
        · show Gathered c s.item _ (s.ch.left.map Prod.snd)
          rw [hl]
          exact ⟨rfl, fun i hi => by simp, fun i hi hf => by cases hf⟩
        · simp only [rank, hm]
          omega
      | false =>
        rw [htab, if_neg Bool.false_ne_true] at hs
        obtain rfl := Option.some.inj hs
        refine ⟨h.goto (by rw [hm]; rfl) rfl ⟨hj, .inl ⟨rfl, .inr htab⟩⟩, ?_, Nat.le_refl _⟩
        simp only [rank, hm]
        omega
  | collect k => exact h.collect hm hs
  | recv k =>
    rw [hm] at hplace
    obtain ⟨-, -, hk, hrecv, -⟩ := hplace
    cases hrecv with
    | got m ms hc hr hg =>
      obtain ⟨k', he, hgot, hinv⟩ := h.recv_got hn hm hc hr hg
      obtain rfl := Option.some.inj (he.symm.trans hs)
      refine ⟨hinv, ?_, Nat.le_refl _⟩
      simp only [rank, hm, hgot]
      omega
    | asleep hc hd hl hg =>
      rw [recv_asleep hm hc hd] at hs
      cases hs
  | done out =>
    rw [mainStep, hm] at hs
    cases hs

theorem start (hn : c.n < 2 ^ 63) : Inv c (start c) := by
  have hcap : (Int64.ofNat c.n).toInt.toNat = c.n := by
    rw [Int64.toInt_ofNat_of_lt (by omega), Int.toNat_natCast]
  have hcore : Core c (Pmap.start c) 0 :=
    { chan := .init ⟨_, rfl⟩
      cap := hcap
      opened := rfl
      le := Nat.zero_le _
      entered := fun p hp => by cases hp
      nodup := List.nodup_nil
      calls := fun i hi => .inl ⟨rfl, by simp [State.jobs, Pmap.start, Chan.start]⟩
      msgs := fun i hi => by cases hi
      fetched := fun i hi => by omega
      started := fun i hi => by cases hi
      sent := fun i hi => by cases hi }
  by_cases h0 : c.n = 0
  · have hm : (Pmap.start c).main = .done (hpArrNew c.junk) := if_pos h0
    refine ⟨?_, ?_, ?_⟩
    · rw [hm]
      show Core c _ c.n
      rw [h0]
      exact hcore
    · rw [hm]
      intro i hi
      exact absurd (h0 ▸ hi : i < 0) (Nat.not_lt_zero i)
    · rw [hm]
      exact ⟨fun i hi => (by cases hi), .inl ⟨rfl, .inl h0⟩⟩
  · have hm : (Pmap.start c).main = .launch 0 := if_neg h0
    refine ⟨?_, ?_, ?_⟩
    · rw [hm]
      exact hcore
    · rw [hm]
      exact fun i hi => absurd hi (Nat.not_lt_zero i)
    · rw [hm]
      exact ⟨fun j hj => ⟨fun _ => rfl, fun h => by omega⟩, rfl⟩

theorem reach (hn : c.n < 2 ^ 63) (hs : (sys c).Reach s) : Inv c s := by
  refine Sys.Reach.inv ?_ ?_ hs
  · rintro s rfl
    exact .start hn
  · intro s a t h hs
    cases a with
    | main => exact (h.main hn hs).inv
    | worker i =>
      rw [show (sys c).next s (.worker i) = if i ∈ s.pts then workerStep c s i else none from rfl]
        at hs
      by_cases hi : i ∈ s.pts
      · rw [if_pos hi] at hs
        rcases h.worker_cases hi with ⟨-, he⟩ | ⟨m, he, hinv⟩
        · rw [he] at hs; cases hs
        · exact Option.some.inj (he.symm.trans hs) ▸ hinv
      · rw [if_neg hi] at hs
        cases hs

end Inv

/-! ### what the call returns -/

theorem result_spec (c : Input) (k : Collect) : (result c k).isMap = false ∧
    (result c k).len = c.n ∧
    ∀ i, i < c.n → (result c k).vals i = if k.has i then k.slots i else .null :=
  pushes_spec c.junk (fun i => if k.has i then k.slots i else .null) c.n

/-- the call returns an empty list, or the list of the results of all items -/
theorem Inv.done_cases (h : Inv c s) {out : Harr} (hm : s.main = .done out) :
    (out.isMap = false ∧ out.len = 0 ∧ (c.n = 0 ∨ c.tablesOk = false)) ∨
    (c.tablesOk = true ∧ out.isMap = false ∧ out.len = c.n ∧
      ∀ i, i < c.n → i ∈ s.jobs ∧ out.vals i = c.clo (s.item i)) := by
  have hcore := h.core
  have hplace := h.place
  rw [hm] at hcore hplace
  rcases hplace with ⟨-, ⟨rfl, hz⟩ | ⟨k, rfl, hk, htab, hg⟩⟩
  · exact .inl ⟨rfl, rfl, hz⟩
  · obtain ⟨hmap, hlen, hvals⟩ := result_spec c k
    refine .inr ⟨htab, hmap, hlen, fun i hi => ?_⟩
    have hf := hcore.fifo_held
    have hfl := congrArg List.length hf
    rw [List.length_map, List.length_append, hg.got] at hfl
    have hi' := mem_of_full hcore.nodup hcore.jobs_lt (by omega) hi
    have hle := length_le_of_nodup hcore.nodup hcore.jobs_lt
    have hheld : s.ch.held = [] := List.eq_nil_of_length_eq_zero (by omega)
    rw [hheld, List.append_nil] at hf
    have hhas : k.has i = true := by
      rw [hg.has i hi, ← hf]
      exact List.mem_map_of_mem hi'
    refine ⟨hi', ?_⟩
    rw [hvals i hi, if_pos hhas, hg.slots i hi hhas]

end

/-- nothing fails, and what is found under a position gives the result of the item there -/
structure Ready (c : Input) : Prop where
  job : ∀ i, i < c.n → c.jobOk i = true
  create : ∀ i, i < c.n → i < c.workers → c.createOk i = true
  tables : c.tablesOk = true
  fetch : ∀ i, i < c.n → ∃ v, hpArrGet c.items (.int (Int64.ofNat i)) = some v ∧
    c.clo v = c.clo (c.items.vals i)

section
variable {c : Input} {s : State}

/-- the items of a list are found under their positions -/
theorem Ready.of_list (hn : c.n < 2 ^ 63) (hl : c.items.isMap = false)
    (hjob : ∀ i, i < c.n → c.jobOk i = true)
    (hcr : ∀ i, i < c.n → i < c.workers → c.createOk i = true) (ht : c.tablesOk = true) :
    Ready c := by
  refine ⟨hjob, hcr, ht, fun i hi => ⟨c.items.vals i, ?_, rfl⟩⟩
  have hidx : (hpValToInt (.int (Int64.ofNat i))).toInt = i := Int64.toInt_ofNat_of_lt (by omega)
  have hlen : ¬ ((i : Int) < 0 ∨ (c.items.len : Int) ≤ i) := by
    have : i < c.items.len := hi
    omega
  unfold hpArrGet hpKeyIndex
  rw [hl, if_neg Bool.false_ne_true]
  dsimp only
  rw [hidx, if_neg hlen]
  rfl

/-- a call that can return the mapped list had no failure -/
theorem ready_of_reach (hn : c.n < 2 ^ 63) (hs : (sys c).Reach s) (hr : Returned c s) :
    c.n = 0 ∨ Ready c := by
  obtain ⟨out, hm, hmap⟩ := hr
  have h := Inv.reach hn hs
  have hcore := h.core
  rw [hm] at hcore
  rcases h.done_cases hm with ⟨-, hlen, -⟩ | ⟨htab, -, -, hall⟩
  · exact .inl (hmap.len.symm.trans hlen)
  · refine .inr ⟨fun i hi => ?_, fun i hi hw => ?_, htab, fun i hi => ?_⟩
    · exact (hcore.sent i (hall i hi).1).1
    · rcases (hcore.sent i (hall i hi).1).2 with hp | hp
      · exact (hcore.started i hp).2.2
      · omega
    · obtain ⟨hin, hv⟩ := hall i hi
      refine ⟨s.item i, hcore.fetched i hi (hcore.sent i hin).1, ?_⟩
      rw [← hv, hmap.vals i hi]

namespace Ready

/-- the calling thread that has ended returns the mapped list -/
theorem returned (hc : Ready c) (h : Inv c s) {out : Harr} (hm : s.main = .done out) :
    Returned c s := by
  have hcore := h.core
  rw [hm] at hcore
  rcases h.done_cases hm with ⟨hmap, hlen, hz⟩ | ⟨-, hmap, hlen, hall⟩
  · have h0 : c.n = 0 := hz.resolve_right (by rw [hc.tables]; exact nofun)
    refine ⟨out, hm, hmap, hlen.trans h0.symm, fun i hi => ?_⟩
    rw [show c.items.len = 0 from h0] at hi
    exact absurd hi (Nat.not_lt_zero i)
  · refine ⟨out, hm, hmap, hlen, fun i hi => ?_⟩
    obtain ⟨v, hv, he⟩ := hc.fetch i hi
    rw [hcore.fetched i hi (hc.job i hi)] at hv
    obtain rfl := Option.some.inj hv
    rw [(hall i hi).2, he]

/-- every job was sent when all threads have ended -/
theorem jobs_full (hc : Ready c) (hp : Placed c s c.n) (hj : Joined s) :
    c.n ≤ s.jobs.length := by
  have hsub : List.range c.n ⊆ s.jobs := by
    intro i hi
    have hi := List.mem_range.mp hi
    obtain ⟨h1, h2⟩ := hp i hi (hc.job i hi)
    by_cases hw : i < c.workers
    · exact hj i (h1 hw (hc.create i hi hw))
    · exact h2 (by omega)
  have hle := (List.nodup_range.subperm hsub).length_le
  rwa [List.length_range] at hle

/-- until the call returns one of the threads can run -/
theorem progress (hc : Ready c) (hn : c.n < 2 ^ 63) (h : Inv c s)
    (hd : ∀ out, s.main ≠ .done out) : ∃ l t, next c s l = some t := by
  have hcore := h.core
  have hplaced := h.placed
  have hplace := h.place
  cases hm : s.main with
  | launch i =>
    rw [hm] at hcore hplaced hplace
    refine ⟨.main, ?_⟩
    show ∃ t, mainStep c s = some t
    rw [mainStep, hm]
    dsimp only
    by_cases hi : i < c.n
    · obtain ⟨v, hv, -⟩ := hc.fetch i hi
      rw [if_pos hi, launchRound, if_pos (hc.job i hi), hv]
      show ∃ t, (if i < c.workers then _ else _) = some t
      by_cases hw : i < c.workers
      · rw [if_pos hw, if_pos (hc.create i hi hw)]
        exact ⟨_, rfl⟩
      · rw [if_neg hw]
        obtain ⟨m, hm, -⟩ := message c.junk i (c.clo (update s.item i v i))
        rw [pmapWorker, hm]
        exact ⟨_, rfl⟩
    · rw [if_neg hi]
      exact ⟨_, rfl⟩
  | inline i =>
    rw [hm] at hcore hplace
    refine ⟨.main, { s with main := .launch (i + 1) }, ?_⟩
    show mainStep c s = _
    rcases hcore.calls i hcore.le with ⟨-, hni⟩ | ⟨he, -⟩
    · exact absurd hplace.2.2 hni
    · rw [mainStep, hm]
      dsimp only
      rw [he]
  | join k =>
    rw [hm] at hcore hplace
    cases hk : s.pts[k]? with
    | none =>
      refine ⟨.main, { s with main := .collect ⟨fun _ => .null, fun _ => false, 0, 0⟩ }, ?_⟩
      show mainStep c s = _
      rw [mainStep, hm]
      dsimp only
      rw [hk, hc.tables]
      rfl
    | some i =>
      have hi := List.mem_of_getElem? hk
      rcases h.worker_cases hi with ⟨hin, -⟩ | ⟨m, he, -⟩
      · refine ⟨.main, { s with main := .join (k + 1) }, ?_⟩
        show mainStep c s = _
        rcases hcore.calls i (hcore.started i hi).1 with ⟨-, hni⟩ | ⟨he, -⟩
        · exact absurd hin hni
        · rw [mainStep, hm]
          dsimp only
          rw [hk]
          dsimp only
          rw [he]
      · exact ⟨.worker i, _, (if_pos hi).trans he⟩
  | collect k =>
    refine ⟨.main, ?_⟩
    show ∃ t, mainStep c s = some t
    rw [mainStep, hm]
    dsimp only
    by_cases hk : k.got < c.n
    · rw [if_pos hk]
      exact ⟨_, rfl⟩
    · rw [if_neg hk]
      exact ⟨_, rfl⟩
  | recv k =>
    rw [hm] at hcore hplaced hplace
    obtain ⟨hj, -, hk, hrecv, -⟩ := hplace
    cases hrecv with
    | got m ms hcall hr hg =>
      obtain ⟨k', he, -⟩ := h.recv_got hn hm hcall hr hg
      exact ⟨.main, _, he⟩
    | asleep hcall hdone hl hg =>
      -- the channel is empty, so every message was received
      have hsq : s.ch.ch.sendq = [] := by
        by_contra hne
        have := hcore.inv.ch.sendq_full hne
        rw [hl, hcore.cap] at this
        omega
      have hlen := hcore.len_eq hsq
      have hfull := hc.jobs_full hplaced hj
      rw [hg.got, hl] at hlen
      omega
  | done out => exact absurd hm (hd out)

theorem inevitable (hc : Ready c) (hn : c.n < 2 ^ 63) :
    (sys c).Inevitable (Returned c) (start c) := by
  refine Sys.Inevitable.of_measure (I := Inv c) (fun s => (c.n - s.jobs.length) + rank c s) ?_
    (.start hn)
  intro s h
  by_cases hd : ∃ out, s.main = .done out
  · obtain ⟨out, hm⟩ := hd
    exact .inl (hc.returned h hm)
  · refine .inr ⟨hc.progress hn h (not_exists.mp hd), fun l t hs => ?_⟩
    cases l with
    | main =>
      have hw := h.main hn hs
      refine ⟨hw.inv, ?_⟩
      have h1 := hw.rank
      have h2 := hw.jobs
      omega
    | worker i =>
      have hs' : (if i ∈ s.pts then workerStep c s i else none) = some t := hs
      by_cases hi : i ∈ s.pts
      · rw [if_pos hi] at hs'
        rcases h.worker_cases hi with ⟨-, he⟩ | ⟨m, he, hinv⟩
        · rw [he] at hs'; cases hs'
        · obtain rfl := Option.some.inj (he.symm.trans hs')
          refine ⟨hinv, ?_⟩
          have hle := length_le_of_nodup hinv.core.nodup hinv.core.jobs_lt
          have hr : rank c (s.posted i m) = rank c s := rfl
          rw [jobs_posted, List.length_append, List.length_singleton] at hle
          show (c.n - (s.posted i m).jobs.length) + rank c (s.posted i m) < _
          rw [hr, jobs_posted, List.length_append, List.length_singleton]
          omega
      · rw [if_neg hi] at hs'
        cases hs'

end Ready
end

/-- **The parallel map** returns the mapped list on every run exactly when nothing fails and every
item is found under its position. -/
theorem parallelMap_iff {c : Input} (hn : c.n < 2 ^ 63) :
    (sys c).Inevitable (Returned c) (start c) ↔ c.n = 0 ∨ Ready c := by
  constructor
  · intro h
    obtain ⟨t, ht, hr⟩ := h.reach (.init rfl)
    exact ready_of_reach hn ht hr
  · rintro (h0 | hc)
    · refine .now ⟨hpArrNew c.junk, if_pos h0, rfl, h0.symm, fun i hi => ?_⟩
      rw [show c.items.len = 0 from h0] at hi
      exact absurd hi (Nat.not_lt_zero i)
    · exact hc.inevitable hn

/-- `f($x) = $x` on `[5, 7]` with one worker, and nothing fails -/
def twoItems : Input where
  clo := id
  items := hpArrPush (hpArrPush (hpArrNew fun _ => .null) (.int 5)) (.int 7)
  workersv := .int 1
  jobOk := fun _ => true
  createOk := fun _ => true
  tablesOk := true
  junk := fun _ => .null

theorem parallelMap_two :
    (sys twoItems).Inevitable (Returned twoItems) (start twoItems) := by
  apply (parallelMap_iff (by decide)).mpr
  exact .inr (.of_list (by decide) rfl (fun _ _ => rfl) (fun _ _ _ => rfl) rfl)

/-- `["a" => 5]` -/
def keyed : Harr :=
  (hpMapOf (fun _ => .null) [(.str (some [97]), .int 5)]).getD (hpArrNew fun _ => .null)

/-- `f($x) = $x` on `["a" => 5]` -/
def keyedItems : Input := { twoItems with items := keyed }

/-- nothing is found under the key 0 -/
theorem parallelMap_fails :
    ¬ (sys keyedItems).Inevitable (Returned keyedItems) (start keyedItems) := by
  intro h
  obtain ⟨t, ht, hr⟩ := h.reach (.init rfl)
  rcases ready_of_reach (by decide) ht hr with h0 | hc
  · exact absurd h0 (by decide)
  · obtain ⟨v, hv, he⟩ := hc.fetch 0 (by decide)
    obtain rfl := Option.some.inj (show some HVal.null = some v from hv)
    cases he

end Pmap
end HolyPhp
