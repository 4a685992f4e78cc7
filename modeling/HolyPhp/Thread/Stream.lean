import HolyPhp.Thread.Pool
import Mathlib.Data.Nat.Pairing

/-!
# `Pool::start`, `submit`, `collect`, `waitOne`, `shutdown`

A pool with its two channels of capacity 0, used by the thread that owns it; the callable is a
function of the item and the id.  Calls on a channel have numbers: on `taskCh` job `j` is sent
under `sendNo j` and round `k` of worker `w` receives under `recvNo (pair w k)`; on `resultCh` the
result of job `j` is sent under `sendNo j` and receive `r` of the owner has `recvNo r`.

* `ownerStep c s`, `workerStep c s w`  the next step of a thread that is inside a call;
* `Inv c s`         which calls every worker has behind it, and what the two channels took;
* `stream_exact`    no job is collected twice, and what is collected is the result of its job;
* `stream_accounts` a job that was taken is collected or with a worker, and no worker has two;
* `stream_bounded`  so no more jobs are open than there are workers.

`item`, `collected` are histories: the item of each job, and what `collect` and `waitOne` returned
other than false, each with its receive.
-/

set_option autoImplicit false

namespace HolyPhp
namespace Stream
open Function Runs Arr HolyPhp.Std Chan

/-- `$fn`, the argument of the constructor, and what new memory holds -/
structure Input where
  cb : Val → Val → Val
  workersArg : Int64
  junk : Nat → Val

/-- a worker in round `k` of its loop -/
inductive Worker where
  | off
  /-- at the head of the loop -/
  | ready (k : Nat)
  /-- in `chan_recv($tch)` -/
  | receiving (k : Nat)
  /-- in `chan_send($rch, ..)` with the result of job `j` -/
  | sending (k j : Nat)
  | gone (k : Nat)

/-- the thread that owns the pool -/
inductive Owner where
  | idle
  /-- in the loop of `start`, with so many workers to spawn -/
  | spawn (left : Nat)
  /-- in `chan_send($this->taskCh, ..)` with job `j` -/
  | submitting (j : Nat)
  /-- in `chan_recv($this->resultCh)` -/
  | waiting (r : Nat)

structure State where
  tasks : Chan.State Bytes
  results : Chan.State Bytes
  /-- the arrays behind the messages of job `j` -/
  task : Nat → Harr
  reply : Nat → Harr
  worker : Nat → Worker
  spawned : Nat
  owner : Owner
  running : Bool
  jobseq : Nat
  recvs : Nat
  item : Nat → Val
  collected : List (Nat × Val)

def sendNo (j : Nat) : Nat := 2 * j
def recvNo (r : Nat) : Nat := 2 * r + 1

/-- the receive in round `k` of worker `w` -/
def roundNo (w k : Nat) : Nat := recvNo (Nat.pair w k)

namespace Input
variable (c : Input)

/-- `$this->workers` -/
def workers : Nat := if c.workersArg < 1 then 1 else c.workersArg.toInt.toNat

/-- `[$id, $v]` -/
def message (id v : Val) : Harr := hpArrPush (hpArrPush (hpArrNew c.junk) id) v

end Input

/-- the job that a message is of -/
def jobOf : Val → Nat
  | .arr (some j) => j
  | _ => 0

def State.setWorker (s : State) (w : Nat) (x : Worker) : State :=
  { s with worker := update s.worker w x }

def workerStep (c : Input) (s : State) (w : Nat) : Option State :=
  match s.worker w with
  | .off => none
  | .ready k =>
    some { s with
      tasks := chanRecvBody s.tasks (roundNo w k) true
      worker := update s.worker w (.receiving k) }
  | .receiving k =>
    match s.tasks.call (roundNo w k) with
    | .got out =>
      let task := out.getD (.bool false)
      if task = .bool false then some (s.setWorker w (.gone k))
      else
        (Pool.hpArrGetV s.task task (.int 1)).bind fun x =>
        (Pool.hpArrGetV s.task task (.int 0)).bind fun id =>
        let j := jobOf task
        some { s with
          reply := update s.reply j (c.message id (c.cb x id))
          results := chanSendImpl s.results (sendNo j) (.arr (some j)) true
          worker := update s.worker w (.sending k j) }
    | .recvWait =>
      if (s.tasks.wtr (roundNo w k)).done then
        some { s with tasks := chanRecvWake s.tasks (roundNo w k) }
      else none
    | _ => none
  | .sending k j =>
    match s.results.call (sendNo j) with
    | .sent _ true => some (s.setWorker w (.ready (k + 1)))
    | .sendWait =>
      if (s.results.wtr (sendNo j)).done then
        some { s with results := chanSendWake s.results (sendNo j) }
      else none
    | _ => none
  | .gone _ => none

/-- a receive that returned `out` to the caller of `collect` or `waitOne` -/
def State.returned (s : State) (r : Nat) (out : Option Val) : State :=
  { s with owner := .idle, collected := s.collected ++ (out.toList.map fun v => (r, v)) }

def ownerStep (s : State) : Option State :=
  match s.owner with
  | .idle => none
  | .spawn 0 => some { s with owner := .idle }
  | .spawn (n + 1) =>
    some { s with
      worker := update s.worker s.spawned (.ready 0)
      spawned := s.spawned + 1
      owner := .spawn n }
  | .submitting j =>
    match s.tasks.call (sendNo j) with
    -- on a closed channel `chan_send` throws, and the pool stays as it is
    | .sent _ _ => some { s with owner := .idle }
    | .sendWait =>
      if (s.tasks.wtr (sendNo j)).done then some { s with tasks := chanSendWake s.tasks (sendNo j) }
      else none
    | _ => none
  | .waiting r =>
    match s.results.call (recvNo r) with
    | .got out => some (s.returned r out)
    | .recvWait =>
      if (s.results.wtr (recvNo r)).done then
        some { s with results := chanRecvWake s.results (recvNo r) }
      else none
    | _ => none

inductive Act where
  | start
  | submit (x : Val)
  | collect
  | waitOne
  | shutdown
  | owner
  | worker (w : Nat)

/-- `$this->running = true` and the loop -/
def State.start (c : Input) (s : State) : State :=
  if s.running then s else { s with running := true, owner := .spawn c.workers }

def State.submit (c : Input) (s : State) (x : Val) : State :=
  { s with
    task := update s.task s.jobseq (c.message (.int (Int64.ofNat s.jobseq)) x)
    item := update s.item s.jobseq x
    tasks := chanSendImpl s.tasks (sendNo s.jobseq) (.arr (some s.jobseq)) true
    jobseq := s.jobseq + 1
    owner := .submitting s.jobseq }

/-- a receive that does not wait has returned behind its section -/
def State.collect (s : State) : State :=
  let u := chanRecvBody s.results (recvNo s.recvs) false
  let t : State := { s with results := u, recvs := s.recvs + 1 }
  match u.call (recvNo s.recvs) with
  | .got out => t.returned s.recvs out
  | _ => t

def State.waitOne (s : State) : State :=
  { s with
    results := chanRecvBody s.results (recvNo s.recvs) true
    recvs := s.recvs + 1
    owner := .waiting s.recvs }

def State.shutdown (s : State) : State :=
  if s.running then { s with tasks := hpbiChanClose s.tasks, running := false } else s

/-- the owner calls a method when it is not in one -/
def State.free (s t : State) : Option State :=
  match s.owner with
  | .idle => some t
  | _ => none

def next (c : Input) (s : State) : Act → Option State
  | .start => s.free (s.start c)
  | .submit x => s.free (s.submit c x)
  | .collect => s.free s.collect
  | .waitOne => s.free s.waitOne
  | .shutdown => s.free s.shutdown
  | .owner => ownerStep s
  | .worker w => workerStep c s w

/-- behind the constructor -/
def begin (c : Input) : State where
  tasks := Chan.start 0
  results := Chan.start 0
  task := fun _ => hpArrNew c.junk
  reply := fun _ => hpArrNew c.junk
  worker := fun _ => .off
  spawned := 0
  owner := .idle
  running := false
  jobseq := 0
  recvs := 0
  item := fun _ => .null
  collected := []

def sys (c : Input) : Sys State Act := ⟨fun s => s = begin c, next c⟩

/-- the jobs whose results were collected, in the order in which they came -/
def collectedJobs (s : State) : List Nat := s.collected.map fun p => jobOf p.2

/-- the job was taken by the task channel -/
def Taken (s : State) (j : Nat) : Prop := (sendNo j, .arr (some j)) ∈ s.tasks.entered

/-- worker `w` has job `j`, from the handover of the task to the end of the send of the result -/
def Has (s : State) (w j : Nat) : Prop :=
  (∃ k, s.worker w = .receiving k ∧ (s.tasks.call (roundNo w k) = .got (some (.arr (some j))) ∨
    Handed s.tasks (roundNo w k) (.arr (some j)))) ∨
  ∃ k, s.worker w = .sending k j

/-! ## numbers -/

theorem sendNo_inj {i j : Nat} (h : sendNo i = sendNo j) : i = j := by
  unfold sendNo at h
  omega

theorem recvNo_inj {i j : Nat} (h : recvNo i = recvNo j) : i = j := by
  unfold recvNo at h
  omega

theorem sendNo_ne_recvNo (i j : Nat) : sendNo i ≠ recvNo j := by
  unfold sendNo recvNo
  omega

theorem roundNo_inj {v w k l : Nat} (h : roundNo v k = roundNo w l) : v = w ∧ k = l :=
  Nat.pair_eq_pair.1 (recvNo_inj h)

/-! ## the invariant -/

section
variable {c : Input} {s t : State} {w k j : Nat}

/-- the calls on a channel -/
abbrev Calls := Nat → Call Bytes

/-- rounds before `k` of worker `w`: a task came in and its result was taken -/
def Before (tc rc : Calls) (w k : Nat) : Prop :=
  ∀ l, l < k → ∃ j v, tc (roundNo w l) = .got (some (.arr (some j))) ∧ rc (sendNo j) = .sent v true

/-- the calls of worker `w`, which stands at the place -/
def Stands (tc rc : Calls) (w : Nat) : Worker → Prop
  | .off => ∀ l, tc (roundNo w l) = .idle
  | .ready k => Before tc rc w k ∧ ∀ l, k ≤ l → tc (roundNo w l) = .idle
  | .receiving k => Before tc rc w k ∧ (∀ l, k < l → tc (roundNo w l) = .idle) ∧
      (tc (roundNo w k) = .recvWait ∨ ∃ o, tc (roundNo w k) = .got o)
  | .sending k j => Before tc rc w k ∧ (∀ l, k < l → tc (roundNo w l) = .idle) ∧
      tc (roundNo w k) = .got (some (.arr (some j))) ∧ rc (sendNo j) ≠ .idle
  | .gone k => Before tc rc w k ∧ (∀ l, k < l → tc (roundNo w l) = .idle) ∧
      tc (roundNo w k) = .got none

/-- the worker has sent what it received in round `k` -/
def Worker.Past (k : Nat) : Worker → Prop
  | .off => False
  | .ready l => k < l
  | .receiving l => k < l
  | .sending l _ => k ≤ l
  | .gone l => k < l

/-- the sends of the owner before job `n` have returned -/
def Sent (tc : Calls) (n : Nat) : Prop := ∀ j, j < n → ∃ v ok, tc (sendNo j) = .sent v ok

/-- the receives before number `n` have returned, and the messages are among the collected ones -/
def Came (rc : Calls) (l : List (Nat × Val)) (n : Nat) : Prop :=
  ∀ r, r < n → ∃ o, rc (recvNo r) = .got o ∧ ∀ v, o = some v → (r, v) ∈ l

def Place (s : State) : Owner → Prop
  | .idle => Sent s.tasks.call s.jobseq ∧ Came s.results.call s.collected s.recvs
  | .spawn _ => Sent s.tasks.call s.jobseq ∧ Came s.results.call s.collected s.recvs
  | .submitting i => i + 1 = s.jobseq ∧ Sent s.tasks.call i ∧
      Came s.results.call s.collected s.recvs
  | .waiting r => r + 1 = s.recvs ∧ Sent s.tasks.call s.jobseq ∧
      Came s.results.call s.collected r ∧ ∀ p ∈ s.collected, p.1 < r

/-- a channel of the pool -/
structure ChanOk (u : Chan.State Bytes) : Prop where
  reach : (Chan.sys Bytes).ReachIf NoNullHandoff u
  cap : u.ch.cap = 0
  entered : ∀ p ∈ u.entered, ∃ j, p = (sendNo j, .arr (some j))
  receives : ∀ n, (u.call n).Receives → ∃ r, n = recvNo r

structure Inv (c : Input) (s : State) : Prop where
  tasks : ChanOk s.tasks
  results : ChanOk s.results
  opened : (Chan.sys Bytes).ReachIf Open s.results
  stands : ∀ w, Stands s.tasks.call s.results.call w (s.worker w)
  off : ∀ w, s.spawned ≤ w → s.worker w = .off
  place : Place s s.owner
  fresh : ∀ j, s.jobseq ≤ j → s.tasks.call (sendNo j) = .idle
  freshRecv : ∀ r, s.recvs ≤ r → s.results.call (recvNo r) = .idle
  /-- the result of a job is sent by the worker that got the task -/
  once : ∀ j, s.results.call (sendNo j) ≠ .idle →
    ∃ w k, s.tasks.call (roundNo w k) = .got (some (.arr (some j))) ∧ (s.worker w).Past k
  task : ∀ j, j < s.jobseq → s.task j = c.message (.int (Int64.ofNat j)) (s.item j)
  reply : ∀ j, s.results.call (sendNo j) ≠ .idle → j < s.jobseq ∧
    s.reply j = c.message (.int (Int64.ofNat j)) (c.cb (s.item j) (.int (Int64.ofNat j)))
  nodup : (s.collected.map Prod.fst).Nodup
  got : ∀ p ∈ s.collected, p.1 < s.recvs ∧ s.results.call (recvNo p.1) = .got (some p.2)

/-! ### what the channels keep -/

/-- messages of jobs are sent under the numbers of sends, and receives have theirs -/
def Fits : Chan.Act Bytes → Prop
  | .send i x _ => ∃ j, i = sendNo j ∧ x = .arr (some j)
  | .recv i _ => ∃ r, i = recvNo r
  | _ => True

theorem ChanOk.step {u v : Chan.State Bytes} {l : Chan.Act Bytes} (h : ChanOk u)
    (hn : Chan.next u l = some v) (hl : Fits l) : ChanOk v where
  reach := by
    refine h.reach.step ?_ hn
    cases l with
    | send i x b =>
      obtain ⟨j, _, rfl⟩ := hl
      exact .inl (by rintro ⟨⟩)
    | _ => trivial
  cap := (next_call hn).2.trans h.cap
  entered := by
    rcases next_entered hn with e | ⟨i, x, b, rfl, e⟩ <;> rw [e]
    · exact h.entered
    · obtain ⟨j, rfl, rfl⟩ := hl
      intro p hp
      rcases List.mem_append.1 hp with hp | hp
      · exact h.entered p hp
      · exact ⟨j, List.mem_singleton.1 hp⟩
  receives n hr := by
    rcases next_receives hn hr with hr | ⟨b, rfl⟩
    · exact h.receives n hr
    · exact hl

theorem ChanOk.start : ChanOk (Chan.start 0) where
  reach := .init ⟨0, rfl⟩
  cap := rfl
  entered _ hp := absurd hp List.not_mem_nil
  receives n hr := by
    rcases hr with e | ⟨o, e⟩ <;> cases e

theorem ChanOk.inv {u : Chan.State Bytes} (h : ChanOk u) : Chan.Inv u :=
  Chan.Inv.reach h.reach.reach

theorem ChanOk.delivered {u : Chan.State Bytes} (h : ChanOk u) : Delivered u :=
  delivered_of_noNull h.reach

/-- what a receive got is a message, and the send of it has started -/
theorem ChanOk.got {u : Chan.State Bytes} (h : ChanOk u) {n : Nat} {v : Val}
    (hn : u.call n = .got (some v)) : ∃ j, v = .arr (some j) ∧ u.call (sendNo j) ≠ .idle := by
  obtain ⟨k, i, _, hk⟩ := h.delivered.got_sent n v hn
  have hm := List.mem_of_getElem? hk
  obtain ⟨j, e⟩ := h.entered _ hm
  obtain ⟨rfl, rfl⟩ := Prod.mk.inj e
  refine ⟨j, rfl, ?_⟩
  rcases h.delivered.entered_call _ _ hm with e | e <;> rw [e] <;> rintro ⟨⟩

/-- no message goes to two receives -/
theorem ChanOk.got_inj {u : Chan.State Bytes} (h : ChanOk u) {m n j : Nat}
    (hm : u.call m = .got (some (.arr (some j)))) (hn : u.call n = .got (some (.arr (some j)))) :
    m = n := by
  obtain ⟨k, i, hk, hk'⟩ := h.delivered.got_sent m _ hm
  obtain ⟨l, i', hl, hl'⟩ := h.delivered.got_sent n _ hn
  have hi : i = i' := by
    obtain ⟨a, ea⟩ := h.entered _ (List.mem_of_getElem? hk')
    obtain ⟨b, eb⟩ := h.entered _ (List.mem_of_getElem? hl')
    obtain ⟨rfl, ha⟩ := Prod.mk.inj ea
    obtain ⟨rfl, hb⟩ := Prod.mk.inj eb
    rw [ha] at hb
    cases hb
    rfl
  subst hi
  have hkl : k = l := by
    have h1 : (u.entered.map Prod.fst)[k]? = some i := by rw [List.getElem?_map, hk']; rfl
    have h2 : (u.entered.map Prod.fst)[l]? = some i := by rw [List.getElem?_map, hl']; rfl
    have hlt : k < (u.entered.map Prod.fst).length := (List.getElem?_eq_some_iff.1 h1).1
    exact (List.getElem?_inj hlt h.delivered.sends_nodup).1 (h1.trans h2.symm)
  subst hkl
  exact congrArg Prod.fst (Option.some.inj (hk.symm.trans hl))

/-! ### what a step keeps of the place of a worker -/

theorem Stands.tasks {tc tc' rc : Calls} {x : Worker} (h : Stands tc rc w x)
    (ht : ∀ l, tc' (roundNo w l) = tc (roundNo w l)) : Stands tc' rc w x := by
  cases x <;> simp only [Stands, Before, ht] at h ⊢ <;> exact h

theorem Before.results {tc : Calls} {u v : Chan.State Bytes} {l : Chan.Act Bytes}
    (h : Before tc u.call w k) (hn : Chan.next u l = some v) : Before tc v.call w k := by
  intro i hi
  obtain ⟨j, x, h1, h2⟩ := h i hi
  exact ⟨j, x, h1, (call_final hn (.inl ⟨x, true, h2⟩)).trans h2⟩

theorem Stands.results {tc : Calls} {x : Worker} {u v : Chan.State Bytes} {l : Chan.Act Bytes}
    (h : Stands tc u.call w x) (hn : Chan.next u l = some v) : Stands tc v.call w x := by
  cases x with
  | off => exact h
  | ready k => exact ⟨h.1.results hn, h.2⟩
  | receiving k => exact ⟨h.1.results hn, h.2⟩
  | sending k j => exact ⟨h.1.results hn, h.2.1, h.2.2.1, call_busy hn h.2.2.2⟩
  | gone k => exact ⟨h.1.results hn, h.2⟩

theorem Sent.step {u v : Chan.State Bytes} {l : Chan.Act Bytes} {n : Nat} (h : Sent u.call n)
    (hn : Chan.next u l = some v) : Sent v.call n := by
  intro j hj
  obtain ⟨x, ok, e⟩ := h j hj
  exact ⟨x, ok, (call_final hn (.inl ⟨x, ok, e⟩)).trans e⟩

theorem Came.step {u v : Chan.State Bytes} {l : Chan.Act Bytes} {m : List (Nat × Val)} {n : Nat}
    (h : Came u.call m n) (hn : Chan.next u l = some v) : Came v.call m n := by
  intro r hr
  obtain ⟨o, h1, h2⟩ := h r hr
  exact ⟨o, (call_final hn (.inr ⟨o, h1⟩)).trans h1, h2⟩

/-- a step on the task channel that belongs to no worker -/
theorem Inv.tasks_step (h : Inv c s) {u : Chan.State Bytes} {l : Chan.Act Bytes}
    (hn : Chan.next s.tasks l = some u)
    (hl : Fits l) (hw : ∀ w k, l.who ≠ some (roundNo w k))
    (hj : ∀ j, s.jobseq ≤ j → l.who ≠ some (sendNo j)) : Inv c { s with tasks := u } where
  tasks := h.tasks.step hn hl
  results := h.results
  opened := h.opened
  stands w := (h.stands w).tasks fun k => call_other hn (hw w k)
  off := h.off
  place := by
    have hp := h.place
    show Place { s with tasks := u } s.owner
    cases ho : s.owner with
    | idle => rw [ho] at hp; exact ⟨hp.1.step hn, hp.2⟩
    | spawn n => rw [ho] at hp; exact ⟨hp.1.step hn, hp.2⟩
    | submitting i => rw [ho] at hp; exact ⟨hp.1, hp.2.1.step hn, hp.2.2⟩
    | waiting r => rw [ho] at hp; exact ⟨hp.1, hp.2.1.step hn, hp.2.2⟩
  fresh j hle := (call_other hn (hj j hle)).trans (h.fresh j hle)
  freshRecv := h.freshRecv
  once j hb := by
    obtain ⟨w, k, h1, h2⟩ := h.once j hb
    exact ⟨w, k, (call_final hn (.inr ⟨_, h1⟩)).trans h1, h2⟩
  task := h.task
  reply := h.reply
  nodup := h.nodup
  got := h.got

/-- a step on the result channel that starts no call -/
theorem Inv.results_step (h : Inv c s) {u : Chan.State Bytes} {l : Chan.Act Bytes}
    (hn : Chan.next s.results l = some u) (hl : Fits l) (ho : Open s.results l)
    (hw : ∀ n, l.who = some n → s.results.call n ≠ .idle) : Inv c { s with results := u } where
  tasks := h.tasks
  results := h.results.step hn hl
  opened := h.opened.step ho hn
  stands w := (h.stands w).results hn
  off := h.off
  place := by
    have hp := h.place
    show Place { s with results := u } s.owner
    cases ho : s.owner with
    | idle => rw [ho] at hp; exact ⟨hp.1, hp.2.step hn⟩
    | spawn n => rw [ho] at hp; exact ⟨hp.1, hp.2.step hn⟩
    | submitting i => rw [ho] at hp; exact ⟨hp.1, hp.2.1, hp.2.2.step hn⟩
    | waiting r => rw [ho] at hp; exact ⟨hp.1, hp.2.1, hp.2.2.1.step hn, hp.2.2.2⟩
  fresh := h.fresh
  freshRecv r hle := by
    have hidle := h.freshRecv r hle
    exact (call_other hn fun e => hw _ e hidle).trans hidle
  once j hb := h.once j fun e => hb ((call_other hn fun e' => hw _ e' e).trans e)
  task := h.task
  reply j hb := h.reply j fun e => hb ((call_other hn fun e' => hw _ e' e).trans e)
  nodup := h.nodup
  got p hp := by
    obtain ⟨h1, h2⟩ := h.got p hp
    exact ⟨h1, (call_final hn (.inr ⟨_, h2⟩)).trans h2⟩

theorem Worker.past_update {x : Worker} (hx : ∀ l, (s.worker w).Past l → x.Past l) {v l : Nat}
    (h : (s.worker v).Past l) : (update s.worker w x v).Past l := by
  by_cases e : v = w
  · subst e
    rw [update_self]
    exact hx l h
  · rwa [update_of_ne e]

/-- a worker goes on without a step on a channel -/
theorem Inv.worker_step (h : Inv c s) {x : Worker} (hoff : s.worker w ≠ .off)
    (hst : Stands s.tasks.call s.results.call w x) (hx : ∀ l, (s.worker w).Past l → x.Past l) :
    Inv c (s.setWorker w x) where
  tasks := h.tasks
  results := h.results
  opened := h.opened
  stands := (forall_update_iff s.worker fun v y => Stands s.tasks.call s.results.call v y).2
    ⟨hst, fun v _ => h.stands v⟩
  off v hv := by
    have hne : v ≠ w := fun e => hoff (e ▸ h.off v hv)
    exact (update_of_ne hne _ _).trans (h.off v hv)
  place := by
    have hp := h.place
    show Place (s.setWorker w x) s.owner
    cases ho : s.owner <;> rw [ho] at hp <;> exact hp
  fresh := h.fresh
  freshRecv := h.freshRecv
  once j hb := by
    obtain ⟨v, k, h1, h2⟩ := h.once j hb
    exact ⟨v, k, h1, Worker.past_update hx h2⟩
  task := h.task
  reply := h.reply
  nodup := h.nodup
  got := h.got

/-- the owner goes on without a step on a channel -/
theorem Inv.owner_step (h : Inv c s) {x : Owner} (hx : Place s x) :
    Inv c { s with owner := x } where
  tasks := h.tasks
  results := h.results
  opened := h.opened
  stands := h.stands
  off := h.off
  place := by
    show Place { s with owner := x } x
    cases x <;> exact hx
  fresh := h.fresh
  freshRecv := h.freshRecv
  once := h.once
  task := h.task
  reply := h.reply
  nodup := h.nodup
  got := h.got

/-! ### workers -/

/-- a worker makes a step of its receive -/
theorem Inv.worker_tasks (h : Inv c s) {u : Chan.State Bytes} {l : Chan.Act Bytes} {x : Worker}
    (hn : Chan.next s.tasks l = some u) (hl : Fits l)
    (hw : l.who = some (roundNo w k)) (hoff : s.worker w ≠ .off)
    (hst : Stands u.call s.results.call w x) (hx : ∀ i, (s.worker w).Past i → x.Past i) :
    Inv c { s with tasks := u, worker := update s.worker w x } := by
  have hsend : ∀ j, l.who ≠ some (sendNo j) := by
    intro j e
    exact sendNo_ne_recvNo j _ (Option.some.inj (e.symm.trans hw))
  refine {
    tasks := h.tasks.step hn hl
    results := h.results
    opened := h.opened
    stands := ?_
    off := ?_
    place := ?_
    fresh := fun j hle => (call_other hn (hsend j)).trans (h.fresh j hle)
    freshRecv := h.freshRecv
    once := ?_
    task := h.task
    reply := h.reply
    nodup := h.nodup
    got := h.got }
  · refine (forall_update_iff s.worker fun v y => Stands u.call s.results.call v y).2
      ⟨hst, fun v hv => (h.stands v).tasks fun i => call_other hn fun e => ?_⟩
    exact hv (roundNo_inj (Option.some.inj (e.symm.trans hw))).1
  · intro v hv
    have hne : v ≠ w := fun e => hoff (e ▸ h.off v hv)
    exact (update_of_ne hne _ _).trans (h.off v hv)
  · have hp := h.place
    show Place { s with tasks := u, worker := update s.worker w x } s.owner
    cases ho : s.owner with
    | idle => rw [ho] at hp; exact ⟨hp.1.step hn, hp.2⟩
    | spawn n => rw [ho] at hp; exact ⟨hp.1.step hn, hp.2⟩
    | submitting i => rw [ho] at hp; exact ⟨hp.1, hp.2.1.step hn, hp.2.2⟩
    | waiting r => rw [ho] at hp; exact ⟨hp.1, hp.2.1.step hn, hp.2.2⟩
  · intro j hb
    obtain ⟨v, i, h1, h2⟩ := h.once j hb
    exact ⟨v, i, (call_final hn (.inr ⟨_, h1⟩)).trans h1, Worker.past_update hx h2⟩

theorem Before.tasks {rc : Calls} {u v : Chan.State Bytes} {l : Chan.Act Bytes}
    (h : Before u.call rc w k) (hn : Chan.next u l = some v) : Before v.call rc w k := by
  intro i hi
  obtain ⟨j, x, h1, h2⟩ := h i hi
  exact ⟨j, x, (call_final hn (.inr ⟨_, h1⟩)).trans h1, h2⟩

/-- a section of a receive leaves the rounds behind it alone -/
theorem Stands.received {rc : Calls} {u v : Chan.State Bytes} {l : Chan.Act Bytes}
    (hn : Chan.next u l = some v) (hw : l.who = some (roundNo w k)) (hb : Before u.call rc w k)
    (hidle : ∀ i, k < i → u.call (roundNo w i) = .idle)
    (hc : v.call (roundNo w k) = .recvWait ∨ ∃ o, v.call (roundNo w k) = .got o) :
    Stands v.call rc w (.receiving k) := by
  refine ⟨hb.tasks hn, fun i hi => ?_, hc⟩
  have hne : i ≠ k := Nat.ne_of_gt hi
  exact (call_other hn fun e => hne (roundNo_inj (Option.some.inj (hw.symm.trans e))).2.symm).trans
    (hidle i hi)

/-- the result of the job that the worker received: nobody has sent it before -/
theorem Inv.not_sent (h : Inv c s) (hw : s.worker w = .receiving k)
    (hc : s.tasks.call (roundNo w k) = .got (some (.arr (some j)))) :
    s.results.call (sendNo j) = .idle := by
  by_contra hb
  obtain ⟨v, l, h1, h2⟩ := h.once j hb
  obtain ⟨rfl, rfl⟩ := roundNo_inj (h.tasks.got_inj h1 hc)
  rw [hw] at h2
  exact Nat.lt_irrefl l h2

theorem Inv.got_lt (h : Inv c s) {n : Nat}
    (hc : s.tasks.call n = .got (some (.arr (some j)))) : j < s.jobseq := by
  obtain ⟨i, e, hb⟩ := h.tasks.got hc
  cases e
  by_contra hlt
  exact hb (h.fresh j (Nat.le_of_not_lt hlt))

/-- `$task[1]` and `$task[0]` -/
theorem message_get (c : Input) (f : Nat → Harr) {j : Nat} {id x : Val}
    (hf : f j = c.message id x) :
    Pool.hpArrGetV f (.arr (some j)) (.int 0) = some id ∧
      Pool.hpArrGetV f (.arr (some j)) (.int 1) = some x := by
  rw [Pool.hpArrGetV, Pool.hpArrGetV, hf]
  exact ⟨rfl, rfl⟩

/-- behind the send of the result of job `j` by worker `w` in round `k` -/
def State.replied (c : Input) (s : State) (w k j : Nat) : State :=
  { s with
    reply := update s.reply j
      (c.message (.int (Int64.ofNat j)) (c.cb (s.item j) (.int (Int64.ofNat j))))
    results := chanSendImpl s.results (sendNo j) (.arr (some j)) true
    worker := update s.worker w (.sending k j) }

/-- **The result of a job is sent by the worker that received it**, and by no other. -/
theorem Inv.reply_step (h : Inv c s) (hw : s.worker w = .receiving k)
    (hc : s.tasks.call (roundNo w k) = .got (some (.arr (some j)))) :
    Inv c (s.replied c w k j) := by
  have hidle := h.not_sent hw hc
  have hlt := h.got_lt hc
  have hst := h.stands w
  rw [hw] at hst
  have hn : Chan.next s.results (.send (sendNo j) (.arr (some j)) true) =
      some (chanSendImpl s.results (sendNo j) (.arr (some j)) true) := by
    rw [Chan.next, hidle]
  obtain ⟨cl, hcl, hcase, -⟩ := send_call s.results (sendNo j) (.arr (some j)) true
  have hself :
      (chanSendImpl s.results (sendNo j) (.arr (some j)) true).call (sendNo j) ≠ .idle := by
    rw [hcl, update_self]
    rcases hcase with rfl | ⟨ok, rfl⟩ <;> rintro ⟨⟩
  have hother : ∀ m, m ≠ sendNo j →
      (chanSendImpl s.results (sendNo j) (.arr (some j)) true).call m = s.results.call m :=
    fun m hm => call_other hn fun e => hm (Option.some.inj e).symm
  have hpast : ∀ l, (s.worker w).Past l → (Worker.sending k j).Past l := by
    intro l hl
    rw [hw] at hl
    exact Nat.le_of_lt hl
  refine {
    tasks := h.tasks
    results := h.results.step hn ⟨j, rfl, rfl⟩
    opened := h.opened.step (l := .send _ _ true) rfl hn
    stands := ?_
    off := ?_
    place := ?_
    fresh := h.fresh
    freshRecv := fun r hr => (hother _ (sendNo_ne_recvNo j r).symm).trans (h.freshRecv r hr)
    once := ?_
    task := h.task
    reply := ?_
    nodup := h.nodup
    got := ?_ }
  · refine (forall_update_iff s.worker fun v y => Stands s.tasks.call _ v y).2
      ⟨⟨hst.1.results hn, hst.2.1, hc, hself⟩, fun v _ => (h.stands v).results hn⟩
  · intro v hv
    have hne : v ≠ w := by
      rintro rfl
      have hoff := h.off v hv
      rw [hw] at hoff
      cases hoff
    exact (update_of_ne hne _ _).trans (h.off v hv)
  · have hp := h.place
    show Place _ s.owner
    cases ho : s.owner with
    | idle => rw [ho] at hp; exact ⟨hp.1, hp.2.step hn⟩
    | spawn n => rw [ho] at hp; exact ⟨hp.1, hp.2.step hn⟩
    | submitting i => rw [ho] at hp; exact ⟨hp.1, hp.2.1, hp.2.2.step hn⟩
    | waiting r => rw [ho] at hp; exact ⟨hp.1, hp.2.1, hp.2.2.1.step hn, hp.2.2.2⟩
  · intro i hb
    by_cases e : i = j
    · subst e
      refine ⟨w, k, hc, ?_⟩
      show (update s.worker w (.sending k i) w).Past k
      rw [update_self]
      exact Nat.le_refl k
    · have hsame := hother _ fun e' => e (sendNo_inj e')
      obtain ⟨v, l, h1, h2⟩ := h.once i fun e' => hb (hsame.trans e')
      exact ⟨v, l, h1, Worker.past_update hpast h2⟩
  · intro i hb
    by_cases e : i = j
    · subst e
      exact ⟨hlt, update_self ..⟩
    · have hsame := hother _ fun e' => e (sendNo_inj e')
      obtain ⟨h1, h2⟩ := h.reply i fun e' => hb (hsame.trans e')
      exact ⟨h1, (update_of_ne e _ _).trans h2⟩
  · intro p hp
    obtain ⟨h1, h2⟩ := h.got p hp
    exact ⟨h1, (call_final hn (.inr ⟨_, h2⟩)).trans h2⟩

/-- what a step of worker `w` is -/
inductive Works (c : Input) (s : State) (w : Nat) : State → Prop
  | ask (k : Nat) : s.worker w = .ready k → s.tasks.call (roundNo w k) = .idle →
      Works c s w { s with
        tasks := chanRecvBody s.tasks (roundNo w k) true
        worker := update s.worker w (.receiving k) }
  | wake (k : Nat) : s.worker w = .receiving k → s.tasks.call (roundNo w k) = .recvWait →
      (s.tasks.wtr (roundNo w k)).done = true →
      Works c s w { s with tasks := chanRecvWake s.tasks (roundNo w k) }
  | leave (k : Nat) : s.worker w = .receiving k → s.tasks.call (roundNo w k) = .got none →
      Works c s w (s.setWorker w (.gone k))
  | reply (k j : Nat) : s.worker w = .receiving k →
      s.tasks.call (roundNo w k) = .got (some (.arr (some j))) → Works c s w (s.replied c w k j)
  | served (k j : Nat) : s.worker w = .sending k j → s.results.call (sendNo j) = .sendWait →
      (s.results.wtr (sendNo j)).done = true →
      Works c s w { s with results := chanSendWake s.results (sendNo j) }
  | again (k j : Nat) (v : Val) : s.worker w = .sending k j →
      s.results.call (sendNo j) = .sent v true → Works c s w (s.setWorker w (.ready (k + 1)))

theorem Inv.works (h : Inv c s) (hs : workerStep c s w = some t) : Works c s w t := by
  have hst := h.stands w
  unfold workerStep at hs
  cases hw : s.worker w with
  | off =>
    rw [hw] at hs
    cases hs
  | gone k =>
    rw [hw] at hs
    cases hs
  | ready k =>
    rw [hw] at hs hst
    obtain rfl := Option.some.inj hs
    exact .ask k hw (hst.2 k (Nat.le_refl k))
  | receiving k =>
    rw [hw] at hs
    dsimp only at hs
    cases hc : s.tasks.call (roundNo w k) with
    | recvWait =>
      rw [hc] at hs
      dsimp only at hs
      by_cases hd : (s.tasks.wtr (roundNo w k)).done = true
      · rw [if_pos hd] at hs
        obtain rfl := Option.some.inj hs
        exact .wake k hw hc hd
      · rw [if_neg hd] at hs
        cases hs
    | got out =>
      rw [hc] at hs
      cases out with
      | none =>
        obtain rfl := Option.some.inj hs
        exact .leave k hw hc
      | some m =>
        obtain ⟨j, rfl, _⟩ := h.tasks.got hc
        obtain ⟨h0, h1⟩ := message_get c s.task (h.task j (h.got_lt hc))
        dsimp only [Option.getD_some] at hs
        rw [if_neg (by rintro ⟨⟩), h1, Option.bind_some, h0, Option.bind_some] at hs
        obtain rfl := Option.some.inj hs
        exact .reply k j hw hc
    | idle | sendWait | sent =>
      rw [hc] at hs
      cases hs
  | sending k j =>
    rw [hw] at hs
    dsimp only at hs
    cases hc : s.results.call (sendNo j) with
    | sendWait =>
      rw [hc] at hs
      dsimp only at hs
      by_cases hd : (s.results.wtr (sendNo j)).done = true
      · rw [if_pos hd] at hs
        obtain rfl := Option.some.inj hs
        exact .served k j hw hc hd
      · rw [if_neg hd] at hs
        cases hs
    | sent v ok =>
      rw [hc] at hs
      cases ok with
      | false => cases hs
      | true =>
        obtain rfl := Option.some.inj hs
        exact .again k j v hw hc
    | idle | recvWait | got =>
      rw [hc] at hs
      cases hs

/-- **Every step of a worker keeps the invariant.** -/
theorem Inv.worker (h : Inv c s) (hs : workerStep c s w = some t) : Inv c t := by
  have hst := h.stands w
  cases h.works hs with
  | ask k hw hc =>
    rw [hw] at hst
    have hn : Chan.next s.tasks (.recv (roundNo w k) true) =
        some (chanRecvBody s.tasks (roundNo w k) true) := by
      rw [Chan.next, hc]
    obtain ⟨cl, hcl, hcase, -⟩ := recv_call s.tasks (roundNo w k) true
    refine h.worker_tasks hn ⟨_, rfl⟩ rfl (by rw [hw]; rintro ⟨⟩)
      (Stands.received hn rfl hst.1 (fun i hi => hst.2 i (Nat.le_of_lt hi)) ?_) ?_
    · rw [hcl, update_self]
      exact hcase
    · rw [hw]
      exact fun i hi => hi
  | wake k hw hc hd =>
    rw [hw] at hst
    have hn : Chan.next s.tasks (.recvWake (roundNo w k)) =
        some (chanRecvWake s.tasks (roundNo w k)) := by
      rw [Chan.next, hc, hd]
    obtain ⟨cl, hcl, hcase, -⟩ := recvWake_call s.tasks (roundNo w k)
    have hi := h.worker_tasks (x := .receiving k) hn trivial rfl (by rw [hw]; rintro ⟨⟩)
      (Stands.received hn rfl hst.1 hst.2.1 ?_) (by rw [hw]; exact fun i hi => hi)
    · rwa [← hw, update_eq_self] at hi
    · rw [hcl, update_self]
      exact hcase
  | leave k hw hc =>
    rw [hw] at hst
    refine h.worker_step (by rw [hw]; rintro ⟨⟩) ⟨hst.1, hst.2.1, hc⟩ ?_
    rw [hw]
    exact fun i hi => hi
  | reply k j hw hc => exact h.reply_step hw hc
  | served k j hw hc hd =>
    have hn : Chan.next s.results (.sendWake (sendNo j)) =
        some (chanSendWake s.results (sendNo j)) := by
      rw [Chan.next, hc, hd]
    refine h.results_step hn trivial trivial fun n e => ?_
    rw [← Option.some.inj e, hc]
    rintro ⟨⟩
  | again k j v hw hc =>
    rw [hw] at hst
    refine h.worker_step (by rw [hw]; rintro ⟨⟩) ⟨fun l hl => ?_, fun l hl => ?_⟩ ?_
    · by_cases e : l = k
      · subst e
        exact ⟨j, v, hst.2.2.1, hc⟩
      · exact hst.1 l (by omega)
    · exact hst.2.1 l hl
    · rw [hw]
      exact fun l hl => Nat.lt_succ_of_le hl

/-! ### the owner -/

theorem Inv.flag (h : Inv c s) (b : Bool) : Inv c { s with running := b } where
  tasks := h.tasks
  results := h.results
  opened := h.opened
  stands := h.stands
  off := h.off
  place := by
    have hp := h.place
    show Place { s with running := b } s.owner
    cases ho : s.owner <;> rw [ho] at hp <;> exact hp
  fresh := h.fresh
  freshRecv := h.freshRecv
  once := h.once
  task := h.task
  reply := h.reply
  nodup := h.nodup
  got := h.got

theorem Inv.spawn (h : Inv c s) {n : Nat} (ho : s.owner = .spawn (n + 1)) :
    Inv c { s with
      worker := update s.worker s.spawned (.ready 0)
      spawned := s.spawned + 1
      owner := .spawn n } := by
  have hoff := h.off s.spawned (Nat.le_refl _)
  have hst := h.stands s.spawned
  have hp := h.place
  rw [ho] at hp
  rw [hoff] at hst
  refine { h with
    stands := ?_
    off := ?_
    place := hp
    once := ?_ }
  · refine (forall_update_iff s.worker fun v y => Stands s.tasks.call s.results.call v y).2
      ⟨⟨fun l hl => absurd hl (Nat.not_lt_zero l), fun l _ => hst l⟩, fun v _ => h.stands v⟩
  · intro v hv
    have hne : v ≠ s.spawned := Nat.ne_of_gt hv
    exact (update_of_ne hne _ _).trans (h.off v (Nat.le_of_lt hv))
  · intro j hb
    obtain ⟨v, k, h1, h2⟩ := h.once j hb
    refine ⟨v, k, h1, Worker.past_update (fun l hl => ?_) h2⟩
    rw [hoff] at hl
    exact hl.elim

theorem Sent.succ {tc : Calls} {n : Nat} (h : Sent tc n) (hn : ∃ v ok, tc (sendNo n) = .sent v ok) :
    Sent tc (n + 1) := by
  intro j hj
  by_cases e : j = n
  · exact e ▸ hn
  · exact h j (by omega)

/-- a receive of the owner has returned -/
theorem Inv.returned (h : Inv c s) {r : Nat} {out : Option Val} (hr : r + 1 = s.recvs)
    (hc : s.results.call (recvNo r) = .got out) (hsent : Sent s.tasks.call s.jobseq)
    (hcame : Came s.results.call s.collected r) (hlt : ∀ p ∈ s.collected, p.1 < r) :
    Inv c (s.returned r out) := by
  refine { h with
    place := ⟨hsent, fun q hq => ?_⟩
    nodup := ?_
    got := ?_ }
  · by_cases e : q = r
    · subst e
      refine ⟨out, hc, ?_⟩
      rintro v rfl
      exact List.mem_append_right _ (List.mem_singleton.2 rfl)
    · obtain ⟨o, h1, h2⟩ := hcame q (by show q < r; have : q < s.recvs := hq; omega)
      exact ⟨o, h1, fun v hv => List.mem_append_left _ (h2 v hv)⟩
  · show ((s.collected ++ out.toList.map fun v => (r, v)).map Prod.fst).Nodup
    rw [List.map_append]
    refine List.nodup_append.2 ⟨h.nodup, ?_, ?_⟩
    · cases out
      · exact List.nodup_nil
      · exact List.nodup_singleton r
    · intro a ha b hb
      obtain ⟨p, hp, rfl⟩ := List.mem_map.1 ha
      have hbr : b = r := by
        cases out with
        | none => cases hb
        | some v => exact List.mem_singleton.1 hb
      rw [hbr]
      exact Nat.ne_of_lt (hlt p hp)
  · intro p hp
    rcases List.mem_append.1 hp with hp | hp
    · exact h.got p hp
    · cases out with
      | none => cases hp
      | some v =>
        obtain rfl := List.mem_singleton.1 hp
        exact ⟨by show r < s.recvs; omega, hc⟩

theorem Inv.owner (h : Inv c s) (hs : ownerStep s = some t) : Inv c t := by
  have hp := h.place
  unfold ownerStep at hs
  cases ho : s.owner with
  | idle =>
    rw [ho] at hs
    cases hs
  | spawn n =>
    rw [ho] at hs hp
    cases n with
    | zero =>
      obtain rfl := Option.some.inj hs
      exact h.owner_step (x := .idle) hp
    | succ n =>
      obtain rfl := Option.some.inj hs
      exact h.spawn ho
  | submitting i =>
    rw [ho] at hs hp
    dsimp only at hs
    cases hc : s.tasks.call (sendNo i) with
    | sent v ok =>
      rw [hc] at hs
      obtain rfl := Option.some.inj hs
      refine h.owner_step (x := .idle) ⟨?_, hp.2.2⟩
      rw [← hp.1]
      exact hp.2.1.succ ⟨v, ok, hc⟩
    | sendWait =>
      rw [hc] at hs
      dsimp only at hs
      by_cases hd : (s.tasks.wtr (sendNo i)).done = true
      · rw [if_pos hd] at hs
        obtain rfl := Option.some.inj hs
        have hn : Chan.next s.tasks (.sendWake (sendNo i)) =
            some (chanSendWake s.tasks (sendNo i)) := by
          rw [Chan.next, hc, hd]
        rw [← ho]
        refine h.tasks_step hn trivial (fun w k e => ?_) fun j hj e => ?_
        · exact sendNo_ne_recvNo i _ (Option.some.inj e)
        · have hi : i + 1 = s.jobseq := hp.1
          have hij := sendNo_inj (Option.some.inj e)
          omega
      · rw [if_neg hd] at hs
        cases hs
    | idle | recvWait | got =>
      rw [hc] at hs
      cases hs
  | waiting r =>
    rw [ho] at hs hp
    dsimp only at hs
    cases hc : s.results.call (recvNo r) with
    | got out =>
      rw [hc] at hs
      obtain rfl := Option.some.inj hs
      exact h.returned hp.1 hc hp.2.1 hp.2.2.1 hp.2.2.2
    | recvWait =>
      rw [hc] at hs
      dsimp only at hs
      by_cases hd : (s.results.wtr (recvNo r)).done = true
      · rw [if_pos hd] at hs
        obtain rfl := Option.some.inj hs
        have hn : Chan.next s.results (.recvWake (recvNo r)) =
            some (chanRecvWake s.results (recvNo r)) := by
          rw [Chan.next, hc, hd]
        rw [← ho]
        refine h.results_step hn trivial trivial fun n e => ?_
        rw [← Option.some.inj e, hc]
        rintro ⟨⟩
      · rw [if_neg hd] at hs
        cases hs
    | idle | sendWait | sent =>
      rw [hc] at hs
      cases hs

/-! ### the methods -/

theorem Inv.submit (h : Inv c s) (ho : s.owner = .idle) (x : Val) : Inv c (s.submit c x) := by
  have hp := h.place
  rw [ho] at hp
  have hidle := h.fresh s.jobseq (Nat.le_refl _)
  have hn : Chan.next s.tasks (.send (sendNo s.jobseq) (.arr (some s.jobseq)) true) =
      some (chanSendImpl s.tasks (sendNo s.jobseq) (.arr (some s.jobseq)) true) := by
    rw [Chan.next, hidle]
  have hother : ∀ m, m ≠ sendNo s.jobseq →
      (chanSendImpl s.tasks (sendNo s.jobseq) (.arr (some s.jobseq)) true).call m =
        s.tasks.call m :=
    fun m hm => call_other hn fun e => hm (Option.some.inj e).symm
  refine {
    tasks := h.tasks.step hn ⟨s.jobseq, rfl, rfl⟩
    results := h.results
    opened := h.opened
    stands := fun w => (h.stands w).tasks fun l => hother _ (sendNo_ne_recvNo _ _).symm
    off := h.off
    place := ⟨rfl, hp.1.step hn, hp.2⟩
    fresh := fun j hj => ?_
    freshRecv := h.freshRecv
    once := fun j hb => ?_
    task := fun j hj => ?_
    reply := fun j hb => ?_
    nodup := h.nodup
    got := h.got }
  · have hlt : s.jobseq < j := hj
    exact (hother _ fun e => Nat.ne_of_gt hlt (sendNo_inj e)).trans (h.fresh j (Nat.le_of_lt hlt))
  · obtain ⟨w, k, h1, h2⟩ := h.once j hb
    exact ⟨w, k, (call_final hn (.inr ⟨_, h1⟩)).trans h1, h2⟩
  · show update s.task s.jobseq _ j = c.message _ (update s.item s.jobseq x j)
    by_cases e : j = s.jobseq
    · rw [e, update_self, update_self]
    · have hlt : j < s.jobseq := by
        have : j < s.jobseq + 1 := hj
        omega
      rw [update_of_ne e, update_of_ne e]
      exact h.task j hlt
  · obtain ⟨h1, h2⟩ := h.reply j hb
    refine ⟨Nat.lt_succ_of_lt h1, ?_⟩
    show s.reply j = c.message _ (c.cb (update s.item s.jobseq x j) _)
    rw [update_of_ne (Nat.ne_of_lt h1)]
    exact h2

/-- behind the section of a receive of the owner -/
theorem Inv.asked (h : Inv c s) (ho : s.owner = .idle) (block : Bool) :
    Inv c { s with
      results := chanRecvBody s.results (recvNo s.recvs) block
      recvs := s.recvs + 1
      owner := .waiting s.recvs } := by
  have hp := h.place
  rw [ho] at hp
  have hidle := h.freshRecv s.recvs (Nat.le_refl _)
  have hn : Chan.next s.results (.recv (recvNo s.recvs) block) =
      some (chanRecvBody s.results (recvNo s.recvs) block) := by
    rw [Chan.next, hidle]
  have hother : ∀ m, m ≠ recvNo s.recvs →
      (chanRecvBody s.results (recvNo s.recvs) block).call m = s.results.call m :=
    fun m hm => call_other hn fun e => hm (Option.some.inj e).symm
  have hsend : ∀ j, (chanRecvBody s.results (recvNo s.recvs) block).call (sendNo j) =
      s.results.call (sendNo j) := fun j => hother _ (sendNo_ne_recvNo j _)
  refine {
    tasks := h.tasks
    results := h.results.step hn ⟨s.recvs, rfl⟩
    opened := h.opened.step (l := .recv _ block) trivial hn
    stands := fun w => (h.stands w).results hn
    off := h.off
    place := ⟨rfl, hp.1, hp.2.step hn, fun p hp => (h.got p hp).1⟩
    fresh := h.fresh
    freshRecv := fun r hr => ?_
    once := fun j hb => h.once j fun e => hb ((hsend j).trans e)
    task := h.task
    reply := fun j hb => h.reply j fun e => hb ((hsend j).trans e)
    nodup := h.nodup
    got := fun p hp => ?_ }
  · have hlt : s.recvs < r := hr
    exact (hother _ fun e => Nat.ne_of_gt hlt (recvNo_inj e)).trans
      (h.freshRecv r (Nat.le_of_lt hlt))
  · obtain ⟨h1, h2⟩ := h.got p hp
    exact ⟨Nat.lt_succ_of_lt h1, (call_final hn (.inr ⟨_, h2⟩)).trans h2⟩

/-- a receive that does not wait returns at once -/
theorem recv_now (u : Chan.State Bytes) (n : Nat) :
    ∃ o, (chanRecvBody u n false).call n = .got o := by
  unfold chanRecvBody
  split
  · split <;> exact ⟨_, update_self ..⟩
  · split
    · exact ⟨_, update_self ..⟩
    · split
      · exact ⟨_, update_self ..⟩
      · exact ⟨_, update_self ..⟩

theorem Inv.collect (h : Inv c s) (ho : s.owner = .idle) : Inv c s.collect := by
  obtain ⟨o, hc⟩ := recv_now s.results (recvNo s.recvs)
  have ha := h.asked ho false
  obtain ⟨h1, h2, h3, h4⟩ := ha.place
  unfold State.collect
  dsimp only
  rw [hc]
  exact ha.returned h1 hc h2 h3 h4

theorem free_some {u : State} (h : s.free u = some t) : s.owner = .idle ∧ u = t := by
  unfold State.free at h
  split at h
  · next ho => exact ⟨ho, Option.some.inj h⟩
  · cases h

/-- **Every step keeps the invariant.** -/
theorem Inv.step (h : Inv c s) {a : Act} (hs : next c s a = some t) : Inv c t := by
  cases a with
  | worker w => exact h.worker hs
  | owner => exact h.owner hs
  | start =>
    obtain ⟨ho, rfl⟩ := free_some hs
    unfold State.start
    by_cases hr : s.running = true
    · rw [if_pos hr]
      exact h
    · have hp := h.place
      rw [ho] at hp
      rw [if_neg hr]
      exact (h.owner_step (x := .spawn c.workers) hp).flag true
  | submit x =>
    obtain ⟨ho, rfl⟩ := free_some hs
    exact h.submit ho x
  | collect =>
    obtain ⟨ho, rfl⟩ := free_some hs
    exact h.collect ho
  | waitOne =>
    obtain ⟨ho, rfl⟩ := free_some hs
    exact h.asked ho true
  | shutdown =>
    obtain ⟨ho, rfl⟩ := free_some hs
    unfold State.shutdown
    by_cases hr : s.running = true
    · have hn : Chan.next s.tasks .close = some (hpbiChanClose s.tasks) := rfl
      rw [if_pos hr]
      exact (h.tasks_step hn trivial (by rintro _ _ ⟨⟩) (by rintro _ _ ⟨⟩)).flag false
    · rw [if_neg hr]
      exact h

theorem Inv.begin (c : Input) : Inv c (begin c) where
  tasks := .start
  results := .start
  opened := .init ⟨0, rfl⟩
  stands _ _ := rfl
  off _ _ := rfl
  place := ⟨fun j hj => absurd hj (Nat.not_lt_zero j), fun r hr => absurd hr (Nat.not_lt_zero r)⟩
  fresh _ _ := rfl
  freshRecv _ _ := rfl
  once _ hb := absurd rfl hb
  task j hj := absurd hj (Nat.not_lt_zero j)
  reply _ hb := absurd rfl hb
  nodup := List.nodup_nil
  got _ hp := absurd hp List.not_mem_nil

theorem Inv.reach (hs : (sys c).Reach s) : Inv c s :=
  hs.inv (fun _ e => e ▸ Inv.begin c) fun _ _ _ h hn => h.step hn

end

/-! ## what the owner sees -/

section
variable {c : Input} {s : State} {w j : Nat}

/-- what is collected is the message of a job whose result was sent -/
theorem Inv.collected (h : Inv c s) {p : Nat × Val} (hp : p ∈ s.collected) :
    ∃ j, p.2 = .arr (some j) ∧ s.results.call (recvNo p.1) = .got (some (.arr (some j))) ∧
      s.results.call (sendNo j) ≠ .idle := by
  obtain ⟨_, hc⟩ := h.got p hp
  obtain ⟨j, e, hb⟩ := h.results.got hc
  exact ⟨j, e, e ▸ hc, hb⟩

/-- with capacity 0 a message whose send returned true has gone to a receive -/
theorem ChanOk.handed {u : Chan.State Bytes} (h : ChanOk u) {v : Val}
    (hc : u.call (sendNo j) = .sent v true) :
    v = .arr (some j) ∧ ∃ r, u.call (recvNo r) = .got (some (.arr (some j))) ∨
      Handed u (recvNo r) (.arr (some j)) := by
  obtain ⟨k, hk, hplace⟩ := h.delivered.once _ v hc
  obtain ⟨i, e⟩ := h.entered _ (List.mem_of_getElem? hk)
  obtain ⟨e1, rfl⟩ := Prod.mk.inj e
  obtain rfl := sendNo_inj e1
  refine ⟨rfl, ?_⟩
  rcases hplace with ⟨n, _, hn⟩ | ⟨_, hheld⟩
  · have hrec : (u.call n).Receives := by
      rcases hn with hn | hn
      · exact .inr ⟨_, hn⟩
      · exact .inl hn.1
    obtain ⟨r, rfl⟩ := h.receives n hrec
    exact ⟨r, hn⟩
  · -- what is held belongs to a sender that sleeps
    have hm := List.mem_of_getElem? hheld
    have hlive : u.ch.live = [] := by
      refine live_of_len_zero (Nat.le_zero.1 ?_)
      rw [← h.cap]
      exact h.inv.ch.len_le
    rw [State.held, hlive, List.nil_append] at hm
    obtain ⟨i, hi, hv⟩ := List.mem_map.1 hm
    have hwait := (h.inv.sendq_wait i hi).1
    have hin : (i, (u.wtr i).value) ∈ u.entered :=
      ((DInv.reachIf h.reach).sends.mem_iff i _).2 (accepted_of hwait)
    obtain ⟨l, e⟩ := h.entered _ hin
    obtain ⟨rfl, e2⟩ := Prod.mk.inj e
    rw [hv] at e2
    cases e2
    rw [hc] at hwait
    cases hwait

/-- the round of a worker in which a task came in lies behind it, or it has the task -/
theorem Inv.round (h : Inv c s) {k : Nat}
    (hr : s.tasks.call (roundNo w k) = .got (some (.arr (some j))) ∨
      Handed s.tasks (roundNo w k) (.arr (some j))) :
    w < s.spawned ∧ (Has s w j ∨ ∃ v, s.results.call (sendNo j) = .sent v true) := by
  have hst := h.stands w
  have hnot : s.tasks.call (roundNo w k) ≠ .idle := by
    rcases hr with e | ⟨e, _⟩ <;> rw [e] <;> rintro ⟨⟩
  have hbefore : ∀ l, Before s.tasks.call s.results.call w l → k < l →
      ∃ v, s.results.call (sendNo j) = .sent v true := by
    intro l hb hl
    obtain ⟨i, v, h1, h2⟩ := hb k hl
    rcases hr with e | ⟨e, _⟩ <;> rw [e] at h1 <;> cases h1
    exact ⟨v, h2⟩
  constructor
  · by_contra hlt
    rw [h.off w (Nat.le_of_not_lt hlt)] at hst
    exact hnot (hst k)
  · cases hw : s.worker w with
    | off =>
      rw [hw] at hst
      exact absurd (hst k) hnot
    | ready l =>
      rw [hw] at hst
      by_cases hl : k < l
      · exact .inr (hbefore l hst.1 hl)
      · exact absurd (hst.2 k (Nat.le_of_not_lt hl)) hnot
    | receiving l =>
      rw [hw] at hst
      rcases Nat.lt_trichotomy k l with hl | rfl | hl
      · exact .inr (hbefore l hst.1 hl)
      · exact .inl (.inl ⟨k, hw, hr⟩)
      · exact absurd (hst.2.1 k hl) hnot
    | sending l i =>
      rw [hw] at hst
      rcases Nat.lt_trichotomy k l with hl | rfl | hl
      · exact .inr (hbefore l hst.1 hl)
      · rcases hr with e | ⟨e, _⟩
        · rw [hst.2.2.1] at e
          cases e
          exact .inl (.inr ⟨k, hw⟩)
        · rw [hst.2.2.1] at e
          cases e
      · exact absurd (hst.2.1 k hl) hnot
    | gone l =>
      rw [hw] at hst
      rcases Nat.lt_trichotomy k l with hl | rfl | hl
      · exact .inr (hbefore l hst.1 hl)
      · rcases hr with e | ⟨e, _⟩ <;> rw [hst.2.2] at e <;> cases e
      · exact absurd (hst.2.1 k hl) hnot

/-- a job that the pool took is with a worker, or a receive of the owner has its result -/
theorem Inv.account (h : Inv c s) (hsent : Sent s.tasks.call s.jobseq) (hj : Taken s j) :
    (∃ w, w < s.spawned ∧ Has s w j) ∨
    ∃ q, s.results.call (recvNo q) = .got (some (.arr (some j))) ∨
      Handed s.results (recvNo q) (.arr (some j)) := by
  have hdone : s.tasks.call (sendNo j) = .sent (.arr (some j)) true := by
    rcases h.tasks.delivered.entered_call _ _ hj with e | e
    · exact e
    · by_cases hlt : j < s.jobseq
      · obtain ⟨v, ok, e'⟩ := hsent j hlt
        rw [e] at e'
        cases e'
      · rw [h.fresh j (Nat.le_of_not_lt hlt)] at e
        cases e
  obtain ⟨_, r, hr⟩ := h.tasks.handed hdone
  obtain ⟨⟨w, k⟩, rfl⟩ := Nat.pairEquiv.surjective r
  obtain ⟨hlt, hhas | ⟨v, hres⟩⟩ := h.round hr
  · exact .inl ⟨w, hlt, hhas⟩
  · exact .inr (h.results.handed hres).2

/-- what a receive behind the owner got is collected -/
theorem Came.received {n q : Nat} (hcame : Came s.results.call s.collected n) (hlt : q < n)
    (hq : s.results.call (recvNo q) = .got (some (.arr (some j))) ∨
      Handed s.results (recvNo q) (.arr (some j))) : j ∈ collectedJobs s := by
  obtain ⟨o, h1, h2⟩ := hcame q hlt
  rcases hq with e | ⟨e, _⟩ <;> rw [h1] at e <;> cases e
  exact List.mem_map.2 ⟨_, h2 _ rfl, rfl⟩

theorem Inv.recv_lt (h : Inv c s) {q : Nat}
    (hq : s.results.call (recvNo q) = .got (some (.arr (some j))) ∨
      Handed s.results (recvNo q) (.arr (some j))) : q < s.recvs := by
  by_contra hlt
  have hidle := h.freshRecv q (Nat.le_of_not_lt hlt)
  rcases hq with e | ⟨e, _⟩ <;> rw [hidle] at e <;> cases e

/-- a worker has one job at most -/
theorem Has.unique {i : Nat} (hi : Has s w i) (hj : Has s w j) : i = j := by
  rcases hi with ⟨k, hk, hi⟩ | ⟨k, hi⟩ <;> rcases hj with ⟨l, hl, hj⟩ | ⟨l, hj⟩
  · obtain rfl : k = l := Worker.receiving.inj (hk.symm.trans hl)
    rcases hi with hi | ⟨hi, _, hvi, _⟩ <;> rcases hj with hj | ⟨hj, _, hvj, _⟩
    · rw [hi] at hj
      cases hj
      rfl
    · rw [hi] at hj
      cases hj
    · rw [hi] at hj
      cases hj
    · rw [hvi] at hvj
      cases hvj
      rfl
  · rw [hk] at hj
    cases hj
  · rw [hi] at hl
    cases hl
  · exact (Worker.sending.inj (hi.symm.trans hj)).2

/-- a pool of one worker whose callable gives the item back -/
def echo : Input := ⟨fun x _ => x, 1, fun _ => .null⟩

/-- one job goes through the pool, and a second one is submitted -/
def through : List Act :=
  [.start, .owner, .owner, .worker 0, .submit (.int 7), .owner, .worker 0, .worker 0, .collect,
    .worker 0, .worker 0, .worker 0, .submit (.int 8), .owner]

def done : State := ((sys echo).run (begin echo) through).getD (begin echo)

end

end Stream
end HolyPhp
