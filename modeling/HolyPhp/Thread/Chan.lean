import HolyPhp.Lib.Runs
import HolyPhp.Lib.Ring
import HolyPhp.Runtime.Value

/-!
# Channels: `chan_send_impl`, `chan_recv_impl`, `hpbi_chan_close`

One channel and any number of calls on it.  A call has a number of its own, and the waiter a call
sleeps on is found under that number (a call has at most one waiter at a time), so the queues
`sendq`, `recvq` are lists of call numbers.

Every function below is one critical section under `ch->mu`:

* `chanSendImpl s i v block`  the section of a send;
* `chanRecvBody s i block`    the body of the receive loop, up to the release of the lock;
* `chanRecvWake s i`          the section of a receiver after its sleep (it unlinks itself, looks
                              at its waiter and may go round the loop again without unlocking);
* `chanSendWake s i`          the end of a blocked send, outside the lock;
* `hpbiChanClose s`.

`State.entered`, `State.left` are histories, not in the code: the sends that the channel took, in
the order of their sections, and the values that left it, each with the receive it went to.
-/

set_option linter.unusedVariables false

namespace HolyPhp
namespace Chan
open Function Runs

section
variable {S : Type}

structure ChanRec (S : Type) where
  cap : Nat
  len : Nat
  head : Nat
  tail : Nat
  buf : Nat → HVal S
  closed : Bool
  sendq : List Nat
  recvq : List Nat

structure ChanWaiter (S : Type) where
  value : HVal S
  done : Bool

/-- where a call stands -/
inductive Call (S : Type) where
  | idle
  /-- asleep in the slow path of `chan_send_impl` -/
  | sendWait
  /-- asleep in the loop of `chan_recv_impl` -/
  | recvWait
  /-- `chan_send_impl` with the value `v` returned `ok` -/
  | sent (v : HVal S) (ok : Bool)
  /-- `chan_recv_impl` returned true with `*out`, or false -/
  | got (out : Option (HVal S))

structure State (S : Type) where
  ch : ChanRec S
  wtr : Nat → ChanWaiter S
  call : Nat → Call S
  entered : List (Nat × HVal S)
  left : List (Nat × HVal S)

/-- `buf[tail] = v; tail = (tail + 1) % cap; len++` -/
def ChanRec.put (ch : ChanRec S) (v : HVal S) : ChanRec S :=
  { ch with buf := update ch.buf ch.tail v, tail := (ch.tail + 1) % ch.cap, len := ch.len + 1 }

/-- `head = (head + 1) % cap; len--` -/
def ChanRec.take (ch : ChanRec S) : ChanRec S :=
  { ch with head := (ch.head + 1) % ch.cap, len := ch.len - 1 }

/-- the live slots, oldest first -/
def ChanRec.live (ch : ChanRec S) : List (HVal S) := Ring.contents ch.cap ch.head ch.len ch.buf

/-- `hpbi_chan_new`; `calloc` leaves null values in the slots -/
def hpbiChanNew (cap : Int64) : ChanRec S where
  cap := cap.toInt.toNat
  len := 0
  head := 0
  tail := 0
  buf := fun _ => .null
  closed := false
  sendq := []
  recvq := []

namespace State

/-- the call `i` returns -/
def ret (s : State S) (i : Nat) (c : Call S) : State S := { s with call := update s.call i c }

/-! ### the branches of `chan_send_impl` -/

/-- fast path 1: direct handoff to the waiting receiver `r` -/
def handoff (s : State S) (i : Nat) (v : HVal S) (r : Nat) (q : List Nat) : State S :=
  { s with
    ch := { s.ch with recvq := q }
    wtr := update s.wtr r ⟨v, true⟩
    call := update s.call i (.sent v true)
    entered := s.entered ++ [(i, v)]
    left := s.left ++ [(r, v)] }

/-- fast path 2: a free slot -/
def fill (s : State S) (i : Nat) (v : HVal S) : State S :=
  { s with
    ch := s.ch.put v
    call := update s.call i (.sent v true)
    entered := s.entered ++ [(i, v)] }

/-- slow path: queue as a sender and sleep -/
def queueSend (s : State S) (i : Nat) (v : HVal S) : State S :=
  { s with
    ch := { s.ch with sendq := s.ch.sendq ++ [i] }
    wtr := update s.wtr i ⟨v, false⟩
    call := update s.call i .sendWait
    entered := s.entered ++ [(i, v)] }

/-! ### the branches of `chan_recv_impl` -/

/-- the waiter of the popped sender `w` is done -/
def wake (s : State S) (w : Nat) : Nat → ChanWaiter S :=
  update s.wtr w { s.wtr w with done := true }

/-- a buffered value, no sender queued -/
def takeBuf (s : State S) (i : Nat) : State S :=
  { s with
    ch := s.ch.take
    call := update s.call i (.got (some (s.ch.buf s.ch.head)))
    left := s.left ++ [(i, s.ch.buf s.ch.head)] }

/-- a buffered value; the queued sender `w` moves into the buffer -/
def takeRefill (s : State S) (i w : Nat) (q : List Nat) : State S :=
  { s with
    ch := { s.ch.take.put (s.wtr w).value with sendq := q }
    wtr := s.wake w
    call := update s.call i (.got (some (s.ch.buf s.ch.head)))
    left := s.left ++ [(i, s.ch.buf s.ch.head)] }

/-- nothing buffered: direct handoff from the queued sender `w` -/
def takeDirect (s : State S) (i w : Nat) (q : List Nat) : State S :=
  { s with
    ch := { s.ch with sendq := q }
    wtr := s.wake w
    call := update s.call i (.got (some (s.wtr w).value))
    left := s.left ++ [(i, (s.wtr w).value)] }

/-- queue as a receiver and sleep; `memset` makes the value of the new waiter null -/
def queueRecv (s : State S) (i : Nat) : State S :=
  { s with
    ch := { s.ch with recvq := s.ch.recvq ++ [i] }
    wtr := update s.wtr i ⟨.null, false⟩
    call := update s.call i .recvWait }

/-- a woken receiver removes itself from the queue, where it is still linked -/
def unlink (s : State S) (i : Nat) : State S :=
  { s with ch := { s.ch with recvq := s.ch.recvq.erase i } }

end State

open State

/-- the critical section of `chan_send_impl` -/
def chanSendImpl (s : State S) (i : Nat) (v : HVal S) (block : Bool) : State S :=
  if s.ch.closed then s.ret i (.sent v false)
  else match s.ch.recvq with
    | r :: q => s.handoff i v r q
    | [] =>
      if 0 < s.ch.cap ∧ s.ch.len < s.ch.cap then s.fill i v
      else if !block then s.ret i (.sent v false)
      else s.queueSend i v

/-- the body of the loop of `chan_recv_impl` -/
def chanRecvBody (s : State S) (i : Nat) (block : Bool) : State S :=
  if 0 < s.ch.len then
    match s.ch.sendq with
    | w :: q => s.takeRefill i w q
    | [] => s.takeBuf i
  else match s.ch.sendq with
    | w :: q => s.takeDirect i w q
    | [] =>
      if s.ch.closed then s.ret i (.got none)
      else if !block then s.ret i (.got none)
      else s.queueRecv i

/-- the section of `chan_recv_impl` after the sleep; without a return the loop goes round -/
def chanRecvWake (s : State S) (i : Nat) : State S :=
  if (s.wtr i).done ∧ (s.wtr i).value.tag ≠ .null then
    (s.unlink i).ret i (.got (some (s.wtr i).value))
  else if s.ch.closed ∧ s.ch.len = 0 ∧ s.ch.sendq = [] then (s.unlink i).ret i (.got none)
  else chanRecvBody (s.unlink i) i true

/-- the end of the slow path of `chan_send_impl`: `ok = w->done` -/
def chanSendWake (s : State S) (i : Nat) : State S :=
  s.ret i (.sent (s.wtr i).value (s.wtr i).done)

/-- `hpbi_chan_close`: the queued receivers are woken, the queued senders stay -/
def hpbiChanClose (s : State S) : State S :=
  { s with
    ch := { s.ch with closed := true, recvq := [] }
    wtr := fun j => if j ∈ s.ch.recvq then { s.wtr j with done := true } else s.wtr j }

/-! ## the system -/

inductive Act (S : Type) where
  | send (i : Nat) (v : HVal S) (block : Bool)
  | sendWake (i : Nat)
  | recv (i : Nat) (block : Bool)
  | recvWake (i : Nat)
  | close

/-- a section runs when its call is there: a call starts once, a sleeper goes on when its waiter
is done (`while (!w->done) pthread_cond_wait`) -/
def next (s : State S) : Act S → Option (State S)
  | .send i v block =>
    match s.call i with
    | .idle => some (chanSendImpl s i v block)
    | _ => none
  | .sendWake i =>
    match s.call i, (s.wtr i).done with
    | .sendWait, true => some (chanSendWake s i)
    | _, _ => none
  | .recv i block =>
    match s.call i with
    | .idle => some (chanRecvBody s i block)
    | _ => none
  | .recvWake i =>
    match s.call i, (s.wtr i).done with
    | .recvWait, true => some (chanRecvWake s i)
    | _, _ => none
  | .close => some (hpbiChanClose s)

/-- a channel of capacity `cap` before the first call -/
def start (cap : Int64) : State S where
  ch := hpbiChanNew cap
  wtr := fun _ => ⟨.null, false⟩
  call := fun _ => .idle
  entered := []
  left := []

def sys (S : Type) : Sys (State S) (Act S) := ⟨fun s => ∃ cap, s = start cap, next⟩

/-! ## what a section can do -/

theorem send_cases (s : State S) (i : Nat) (v : HVal S) (block : Bool) :
    chanSendImpl s i v block = s.ret i (.sent v false) ∨
    (∃ r q, s.ch.closed = false ∧ s.ch.recvq = r :: q ∧
      chanSendImpl s i v block = s.handoff i v r q) ∨
    (s.ch.recvq = [] ∧ s.ch.len < s.ch.cap ∧ chanSendImpl s i v block = s.fill i v) ∨
    (s.ch.recvq = [] ∧ ¬ (0 < s.ch.cap ∧ s.ch.len < s.ch.cap) ∧
      chanSendImpl s i v block = s.queueSend i v) := by
  unfold chanSendImpl
  cases hc : s.ch.closed with
  | true => exact .inl rfl
  | false =>
    rw [if_neg Bool.false_ne_true]
    cases hq : s.ch.recvq with
    | cons r q => exact .inr (.inl ⟨r, q, rfl, rfl, rfl⟩)
    | nil =>
      by_cases hroom : 0 < s.ch.cap ∧ s.ch.len < s.ch.cap
      · exact .inr (.inr (.inl ⟨rfl, hroom.2, if_pos hroom⟩))
      · rw [if_neg hroom]
        cases block with
        | false => exact .inl rfl
        | true => exact .inr (.inr (.inr ⟨rfl, hroom, rfl⟩))

theorem recv_cases (s : State S) (i : Nat) (block : Bool) :
    (∃ w q, 0 < s.ch.len ∧ s.ch.sendq = w :: q ∧ chanRecvBody s i block = s.takeRefill i w q) ∨
    (0 < s.ch.len ∧ s.ch.sendq = [] ∧ chanRecvBody s i block = s.takeBuf i) ∨
    (∃ w q, s.ch.len = 0 ∧ s.ch.sendq = w :: q ∧ chanRecvBody s i block = s.takeDirect i w q) ∨
    (s.ch.len = 0 ∧ s.ch.sendq = [] ∧ chanRecvBody s i block = s.ret i (.got none)) ∨
    (s.ch.len = 0 ∧ s.ch.sendq = [] ∧ s.ch.closed = false ∧
      chanRecvBody s i block = s.queueRecv i) := by
  unfold chanRecvBody
  by_cases hl : 0 < s.ch.len
  · rw [if_pos hl]
    cases hq : s.ch.sendq with
    | cons w q => exact .inl ⟨w, q, hl, rfl, rfl⟩
    | nil => exact .inr (.inl ⟨hl, rfl, rfl⟩)
  · have h0 : s.ch.len = 0 := by omega
    rw [if_neg hl]
    cases hq : s.ch.sendq with
    | cons w q => exact .inr (.inr (.inl ⟨w, q, h0, rfl, rfl⟩))
    | nil =>
      cases hc : s.ch.closed with
      | true => exact .inr (.inr (.inr (.inl ⟨h0, rfl, rfl⟩)))
      | false =>
        cases block with
        | false => exact .inr (.inr (.inr (.inl ⟨h0, rfl, rfl⟩)))
        | true => exact .inr (.inr (.inr (.inr ⟨h0, rfl, rfl, rfl⟩)))

theorem wake_cases (s : State S) (i : Nat) :
    ((s.wtr i).done = true ∧ (s.wtr i).value ≠ .null ∧
      chanRecvWake s i = (s.unlink i).ret i (.got (some (s.wtr i).value))) ∨
    (¬ ((s.wtr i).done = true ∧ (s.wtr i).value ≠ .null) ∧
      chanRecvWake s i = (s.unlink i).ret i (.got none)) ∨
    (¬ ((s.wtr i).done = true ∧ (s.wtr i).value ≠ .null) ∧
      chanRecvWake s i = chanRecvBody (s.unlink i) i true) := by
  have htag : (s.wtr i).value ≠ .null ↔ (s.wtr i).value.tag ≠ .null :=
    not_congr HVal.tag_eq_null.symm
  by_cases hv : (s.wtr i).done = true ∧ (s.wtr i).value.tag ≠ .null
  · exact .inl ⟨hv.1, htag.mpr hv.2, if_pos hv⟩
  · refine .inr ?_
    unfold chanRecvWake
    rw [if_neg hv, htag]
    by_cases hc : s.ch.closed ∧ s.ch.len = 0 ∧ s.ch.sendq = []
    · exact .inl ⟨hv, if_pos hc⟩
    · exact .inr ⟨hv, if_neg hc⟩

/-- what a step of the system is -/
theorem next_cases {s t : State S} {l : Act S} (h : next s l = some t) :
    (∃ i v b, l = .send i v b ∧ s.call i = .idle ∧ t = chanSendImpl s i v b) ∨
    (∃ i, l = .sendWake i ∧ s.call i = .sendWait ∧ (s.wtr i).done = true ∧
      t = s.ret i (.sent (s.wtr i).value true)) ∨
    (∃ i b, l = .recv i b ∧ s.call i = .idle ∧ t = chanRecvBody s i b) ∨
    (∃ i, l = .recvWake i ∧ s.call i = .recvWait ∧ (s.wtr i).done = true ∧
      t = chanRecvWake s i) ∨
    (l = .close ∧ t = hpbiChanClose s) := by
  cases l with
  | send i v b =>
    simp only [next] at h
    split at h
    · exact .inl ⟨i, v, b, rfl, by assumption, (Option.some.inj h).symm⟩
    · cases h
  | sendWake i =>
    simp only [next] at h
    split at h
    · rename_i hc hd
      refine .inr (.inl ⟨i, rfl, hc, hd, ?_⟩)
      rw [← Option.some.inj h, chanSendWake, hd]
    · cases h
  | recv i b =>
    simp only [next] at h
    split at h
    · exact .inr (.inr (.inl ⟨i, b, rfl, by assumption, (Option.some.inj h).symm⟩))
    · cases h
  | recvWake i =>
    simp only [next] at h
    split at h
    · exact .inr (.inr (.inr (.inl ⟨i, rfl, by assumption, by assumption,
        (Option.some.inj h).symm⟩)))
    · cases h
  | close => exact .inr (.inr (.inr (.inr ⟨rfl, (Option.some.inj h).symm⟩)))

end

end Chan
end HolyPhp
