import Mathlib.Data.List.Nodup
import HolyPhp.Thread.Chan

/-!
# The channel invariant

`ChanInv ch` is the shape of the record at every release of `ch->mu`: the ring buffer is a ring,
receivers wait only at an empty channel, senders wait only at a full one.  `Inv s` adds what ties
the record to the calls and to the histories: the values that entered are the values that left,
then the live slots, then the values of the queued senders, as LISTS (`Inv.fifo`).

`Inv.step`: every section keeps `Inv`.  One lemma per branch of the code.
-/

namespace HolyPhp
namespace Chan
open Function Runs State

variable {S : Type}

structure ChanInv (ch : ChanRec S) : Prop where
  len_le : ch.len ≤ ch.cap
  head_lt : 0 < ch.cap → ch.head < ch.cap
  tail_eq : 0 < ch.cap → ch.tail = (ch.head + ch.len) % ch.cap
  recvq_empty : ch.recvq ≠ [] → ch.len = 0 ∧ ch.sendq = []
  sendq_full : ch.sendq ≠ [] → ch.len = ch.cap

/-- the values of the queued senders, in queue order -/
def State.queued (s : State S) : List (HVal S) := s.ch.sendq.map fun i => (s.wtr i).value

/-- the values that the channel holds -/
def State.held (s : State S) : List (HVal S) := s.ch.live ++ s.queued

structure Inv (s : State S) : Prop where
  ch : ChanInv s.ch
  fifo : s.entered.map Prod.snd = s.left.map Prod.snd ++ s.held
  sendq_wait : ∀ i ∈ s.ch.sendq, s.call i = .sendWait ∧ (s.wtr i).done = false
  recvq_wait : ∀ i ∈ s.ch.recvq, s.call i = .recvWait ∧ (s.wtr i).done = false
  sendq_nodup : s.ch.sendq.Nodup
  recvq_nodup : s.ch.recvq.Nodup

/-! ## the ring buffer -/

theorem live_of_len_zero {ch : ChanRec S} (h : ch.len = 0) : ch.live = [] := by
  unfold ChanRec.live
  rw [h, Ring.contents_zero]

theorem live_put {ch : ChanRec S} (h : ChanInv ch) (hl : ch.len < ch.cap) (v : HVal S) :
    (ch.put v).live = ch.live ++ [v] := by
  have ht := h.tail_eq (by omega)
  show Ring.contents ch.cap ch.head (ch.len + 1) (update ch.buf ch.tail v) = _
  rw [ht, Ring.contents_push ch.buf v hl]
  rfl

theorem live_take {ch : ChanRec S} (h : ChanInv ch) (hl : 0 < ch.len) :
    ch.live = ch.buf ch.head :: ch.take.live := by
  have hcap : 0 < ch.cap := lt_of_lt_of_le hl h.len_le
  obtain ⟨n, hn⟩ := Nat.exists_eq_succ_of_ne_zero (Nat.pos_iff_ne_zero.mp hl)
  unfold ChanRec.live ChanRec.take
  rw [hn, Ring.contents_pull ch.buf (h.head_lt hcap)]
  rfl

theorem ChanInv.put {ch : ChanRec S} (h : ChanInv ch) (hr : ch.recvq = []) (hl : ch.len < ch.cap)
    (v : HVal S) : ChanInv (ch.put v) where
  len_le := hl
  head_lt := h.head_lt
  tail_eq hc := Ring.tail_push (h.tail_eq hc)
  recvq_empty hq := absurd hr hq
  sendq_full hq := by
    have := h.sendq_full hq
    omega

theorem ChanInv.take {ch : ChanRec S} (h : ChanInv ch) (hs : ch.sendq = []) (hl : 0 < ch.len) :
    ChanInv ch.take where
  len_le := by
    have := h.len_le
    show ch.len - 1 ≤ ch.cap
    omega
  head_lt hc := Nat.mod_lt _ hc
  tail_eq hc := by
    have ht := h.tail_eq hc
    apply Ring.tail_pull
    show ch.tail = (ch.head + (ch.len - 1 + 1)) % ch.cap
    rw [Nat.sub_add_cancel hl]
    exact ht
  recvq_empty hq := by
    have := (h.recvq_empty hq).1
    omega
  sendq_full hq := absurd hs hq

/-- one queued sender moves into the slot that a receive freed -/
theorem ChanInv.refill {ch : ChanRec S} (h : ChanInv ch) (hl : 0 < ch.len) {w : Nat} {q : List Nat}
    (hs : ch.sendq = w :: q) (v : HVal S) : ChanInv { ch.take.put v with sendq := q } := by
  have hfull : ch.len = ch.cap := h.sendq_full (by rw [hs]; exact List.cons_ne_nil _ _)
  have hr : ch.recvq = [] := by
    by_contra hq
    have := (h.recvq_empty hq).1
    omega
  have ht : ChanInv { ch.take with sendq := [] } :=
    @ChanInv.take S { ch with sendq := [] }
      { h with recvq_empty := fun hq => absurd hr hq, sendq_full := fun hq => absurd rfl hq } rfl hl
  have hp := ht.put hr (show ch.len - 1 < ch.cap by omega) v
  exact { hp with
    recvq_empty := fun hq => absurd hr hq
    sendq_full := fun _ => by
      show ch.len - 1 + 1 = ch.cap
      omega }

theorem live_refill {ch : ChanRec S} (h : ChanInv ch) (hl : 0 < ch.len) (v : HVal S) :
    ch.live ++ [v] = ch.buf ch.head :: (ch.take.put v).live := by
  have hlt : ch.len - 1 < ch.cap := by
    have := h.len_le
    omega
  have hcap : 0 < ch.cap := by omega
  have ht : ch.tail = ((ch.head + 1) % ch.cap + (ch.len - 1)) % ch.cap := by
    apply Ring.tail_pull
    rw [Nat.sub_add_cancel hl]
    exact h.tail_eq hcap
  rw [live_take h hl, List.cons_append]
  congr 1
  show _ = Ring.contents ch.cap ((ch.head + 1) % ch.cap) (ch.len - 1 + 1)
    (update ch.buf ch.tail v)
  rw [ht, Ring.contents_push ch.buf v hlt]
  rfl

/-! ## the branches of a send -/

namespace Inv
variable {s : State S} {i : Nat}

/-- another call than the queued ones may move: the queues keep their facts -/
theorem waits_update {q : List Nat} {f : Nat → Call S} {c c' : Call S}
    (h : ∀ j ∈ q, f j = c ∧ (s.wtr j).done = false) (hi : i ∉ q) :
    ∀ j ∈ q, update f i c' j = c ∧ (s.wtr j).done = false := by
  intro j hj
  rw [update_of_ne (ne_of_mem_of_not_mem hj hi)]
  exact h j hj

theorem not_mem_sendq (h : Inv s) (hi : s.call i ≠ .sendWait) : i ∉ s.ch.sendq :=
  fun hm => hi (h.sendq_wait i hm).1

theorem not_mem_recvq (h : Inv s) (hi : s.call i ≠ .recvWait) : i ∉ s.ch.recvq :=
  fun hm => hi (h.recvq_wait i hm).1

theorem idle_not_mem (h : Inv s) (hi : s.call i = .idle) : i ∉ s.ch.sendq ∧ i ∉ s.ch.recvq :=
  ⟨h.not_mem_sendq (by rw [hi]; simp), h.not_mem_recvq (by rw [hi]; simp)⟩

theorem nodup_snoc {q : List Nat} (h : q.Nodup) (hi : i ∉ q) : (q ++ [i]).Nodup := by
  rw [← List.concat_eq_append]
  exact h.concat hi

theorem ret (h : Inv s) (c : Call S) (hs : i ∉ s.ch.sendq) (hr : i ∉ s.ch.recvq) :
    Inv (s.ret i c) where
  ch := h.ch
  fifo := h.fifo
  sendq_wait := waits_update h.sendq_wait hs
  recvq_wait := waits_update h.recvq_wait hr
  sendq_nodup := h.sendq_nodup
  recvq_nodup := h.recvq_nodup

theorem handoff (h : Inv s) (hi : s.call i = .idle) (v : HVal S) {r : Nat} {q : List Nat}
    (hq : s.ch.recvq = r :: q) : Inv (s.handoff i v r q) := by
  -- a waiting receiver means an empty channel, so the value leaves at once and in order
  obtain ⟨hlen, hsend⟩ := h.ch.recvq_empty (by rw [hq]; exact List.cons_ne_nil _ _)
  have hnd : (r :: q).Nodup := hq ▸ h.recvq_nodup
  have hheld : s.held = [] := by
    unfold State.held State.queued
    rw [live_of_len_zero hlen, hsend]
    rfl
  have hheld' : (s.handoff i v r q).held = [] := by
    show ChanRec.live s.ch ++ s.ch.sendq.map _ = []
    rw [live_of_len_zero hlen, hsend]
    rfl
  refine ⟨?_, ?_, ?_, ?_, h.sendq_nodup, (List.nodup_cons.mp hnd).2⟩
  · exact { h.ch with recvq_empty := fun _ => ⟨hlen, hsend⟩ }
  · have hf := h.fifo
    rw [hheld, List.append_nil] at hf
    rw [hheld', List.append_nil]
    show (s.entered ++ [(i, v)]).map Prod.snd = (s.left ++ [(r, v)]).map Prod.snd
    rw [List.map_append, List.map_append, hf]
    rfl
  · intro j hj
    have hj' : j ∈ s.ch.sendq := hj
    rw [hsend] at hj'
    exact absurd hj' List.not_mem_nil
  · intro j hj
    have hjq : j ∈ q := hj
    have hjr : j ≠ r := fun e => (List.nodup_cons.mp hnd).1 (e ▸ hjq)
    have hw := h.recvq_wait j (by rw [hq]; exact List.mem_cons_of_mem _ hjq)
    have hji : j ≠ i := by
      intro he
      subst he
      rw [hi] at hw
      cases hw.1
    show update s.call i _ j = _ ∧ (update s.wtr r _ j).done = false
    rw [update_of_ne hji, update_of_ne hjr]
    exact hw

theorem fill (h : Inv s) (hi : s.call i = .idle) (v : HVal S) (hr : s.ch.recvq = [])
    (hl : s.ch.len < s.ch.cap) : Inv (s.fill i v) := by
  have hsend : s.ch.sendq = [] := by
    by_contra hq
    have := h.ch.sendq_full hq
    omega
  refine ⟨h.ch.put hr hl v, ?_, ?_, ?_, h.sendq_nodup, h.recvq_nodup⟩
  · have hf := h.fifo
    unfold State.held State.queued at hf
    rw [hsend, List.map_nil, List.append_nil] at hf
    show (s.entered ++ [(i, v)]).map Prod.snd
      = s.left.map Prod.snd ++ ((s.ch.put v).live ++ s.ch.sendq.map _)
    rw [List.map_append, hf, live_put h.ch hl, hsend, List.map_nil, List.append_nil,
      List.append_assoc]
    rfl
  · exact waits_update h.sendq_wait (h.idle_not_mem hi).1
  · exact waits_update h.recvq_wait (h.idle_not_mem hi).2

theorem queueSend (h : Inv s) (hi : s.call i = .idle) (v : HVal S) (hr : s.ch.recvq = [])
    (hfull : ¬ (0 < s.ch.cap ∧ s.ch.len < s.ch.cap)) : Inv (s.queueSend i v) := by
  have hns : i ∉ s.ch.sendq := (h.idle_not_mem hi).1
  have hval : ∀ j ∈ s.ch.sendq, update s.wtr i ⟨v, false⟩ j = s.wtr j :=
    fun j hj => update_of_ne (ne_of_mem_of_not_mem hj hns) _ _
  refine ⟨?_, ?_, ?_, ?_, ?_, h.recvq_nodup⟩
  · exact { h.ch with
      recvq_empty := fun hq => absurd hr hq
      sendq_full := fun _ => by
        have := h.ch.len_le
        show s.ch.len = s.ch.cap
        omega }
  · show (s.entered ++ [(i, v)]).map Prod.snd = s.left.map Prod.snd
      ++ (s.ch.live ++ (s.ch.sendq ++ [i]).map fun j => (update s.wtr i ⟨v, false⟩ j).value)
    have hq : s.ch.sendq.map (fun j => (update s.wtr i ⟨v, false⟩ j).value) = s.queued :=
      List.map_congr_left fun j hj => by rw [hval j hj]
    rw [List.map_append, List.map_append, hq, h.fifo]
    simp [State.held]
  · intro j hj
    rcases List.mem_append.mp hj with hj | hj
    · have hji : j ≠ i := ne_of_mem_of_not_mem hj hns
      show update s.call i _ j = _ ∧ (update s.wtr i _ j).done = false
      rw [update_of_ne hji, update_of_ne hji]
      exact h.sendq_wait j hj
    · rw [List.mem_singleton.mp hj]
      show update s.call i _ i = _ ∧ (update s.wtr i _ i).done = false
      rw [update_self, update_self]
      exact ⟨rfl, rfl⟩
  · intro j hj
    have hj' : j ∈ s.ch.recvq := hj
    rw [hr] at hj'
    exact absurd hj' List.not_mem_nil
  · exact nodup_snoc h.sendq_nodup hns

/-! ## the branches of a receive -/

theorem takeBuf (h : Inv s) (hs : i ∉ s.ch.sendq) (hr : i ∉ s.ch.recvq) (hl : 0 < s.ch.len)
    (hq : s.ch.sendq = []) : Inv (s.takeBuf i) := by
  refine ⟨h.ch.take hq hl, ?_, waits_update h.sendq_wait hs, waits_update h.recvq_wait hr,
    h.sendq_nodup, h.recvq_nodup⟩
  show s.entered.map Prod.snd = (s.left ++ [(i, s.ch.buf s.ch.head)]).map Prod.snd
    ++ (s.ch.take.live ++ s.queued)
  rw [h.fifo, State.held, live_take h.ch hl, List.map_append]
  simp

/-- a sender popped from the queue is marked done: the others keep their facts -/
theorem sendq_popped (h : Inv s) (hs : i ∉ s.ch.sendq) {w : Nat} {q : List Nat} {c : Call S}
    (hq : s.ch.sendq = w :: q) :
    ∀ j ∈ q, update s.call i c j = .sendWait ∧ (s.wake w j).done = false := by
  intro j hj
  have hnd : (w :: q).Nodup := hq ▸ h.sendq_nodup
  have hjw : j ≠ w := fun e => (List.nodup_cons.mp hnd).1 (e ▸ hj)
  have hmem : j ∈ s.ch.sendq := by rw [hq]; exact List.mem_cons_of_mem _ hj
  rw [update_of_ne (ne_of_mem_of_not_mem hmem hs), State.wake, update_of_ne hjw]
  exact h.sendq_wait j hmem

theorem wake_value (s : State S) (w j : Nat) : (s.wake w j).value = (s.wtr j).value := by
  unfold State.wake
  by_cases e : j = w
  · rw [e, update_self]
  · rw [update_of_ne e]

theorem recvq_nil (h : Inv s) {w : Nat} {q : List Nat} (hq : s.ch.sendq = w :: q) :
    s.ch.recvq = [] := by
  by_contra hne
  rw [(h.ch.recvq_empty hne).2] at hq
  cases hq

theorem takeRefill (h : Inv s) (hs : i ∉ s.ch.sendq) (hl : 0 < s.ch.len) {w : Nat} {q : List Nat}
    (hq : s.ch.sendq = w :: q) : Inv (s.takeRefill i w q) := by
  have hnd : (w :: q).Nodup := hq ▸ h.sendq_nodup
  refine ⟨h.ch.refill hl hq _, ?_, h.sendq_popped hs hq, ?_, (List.nodup_cons.mp hnd).2,
    h.recvq_nodup⟩
  · show s.entered.map Prod.snd = (s.left ++ [(i, s.ch.buf s.ch.head)]).map Prod.snd
      ++ ((s.ch.take.put (s.wtr w).value).live ++ q.map fun j => (s.wake w j).value)
    have hl' := live_refill h.ch hl (s.wtr w).value
    simp only [wake_value]
    rw [h.fifo, State.held, State.queued, hq, List.map_append, List.map_cons, List.append_assoc]
    congr 1
    rw [← List.singleton_append, ← List.append_assoc, hl']
    rfl
  · intro j hj
    have hj' : j ∈ s.ch.recvq := hj
    rw [h.recvq_nil hq] at hj'
    exact absurd hj' List.not_mem_nil

theorem takeDirect (h : Inv s) (hs : i ∉ s.ch.sendq) (hl : s.ch.len = 0) {w : Nat} {q : List Nat}
    (hq : s.ch.sendq = w :: q) : Inv (s.takeDirect i w q) := by
  have hnd : (w :: q).Nodup := hq ▸ h.sendq_nodup
  have hr := h.recvq_nil hq
  refine ⟨?_, ?_, h.sendq_popped hs hq, ?_, (List.nodup_cons.mp hnd).2, h.recvq_nodup⟩
  · exact { h.ch with
      recvq_empty := fun hne => absurd hr hne
      sendq_full := fun _ => h.ch.sendq_full (by rw [hq]; exact List.cons_ne_nil _ _) }
  · show s.entered.map Prod.snd = (s.left ++ [(i, (s.wtr w).value)]).map Prod.snd
      ++ (s.ch.live ++ q.map fun j => (s.wake w j).value)
    simp only [wake_value]
    rw [h.fifo, State.held, State.queued, hq, live_of_len_zero hl]
    simp
  · intro j hj
    have hj' : j ∈ s.ch.recvq := hj
    rw [hr] at hj'
    exact absurd hj' List.not_mem_nil

theorem queueRecv (h : Inv s) (hr : i ∉ s.ch.recvq) (hl : s.ch.len = 0) (hq : s.ch.sendq = []) :
    Inv (s.queueRecv i) := by
  have hnil : ∀ (P : Nat → Prop), ∀ j ∈ s.ch.sendq, P j := by
    intro P j hj
    rw [hq] at hj
    exact absurd hj List.not_mem_nil
  refine ⟨?_, ?_, hnil _, ?_, h.sendq_nodup, ?_⟩
  · exact { h.ch with recvq_empty := fun _ => ⟨hl, hq⟩ }
  · have hf := h.fifo
    unfold State.held State.queued at hf
    show s.entered.map Prod.snd = s.left.map Prod.snd ++ (s.ch.live ++ s.ch.sendq.map _)
    rw [hf, hq]
    rfl
  · intro j hj
    rcases List.mem_append.mp hj with hj | hj
    · have hji : j ≠ i := ne_of_mem_of_not_mem hj hr
      show update s.call i _ j = _ ∧ (update s.wtr i _ j).done = false
      rw [update_of_ne hji, update_of_ne hji]
      exact h.recvq_wait j hj
    · rw [List.mem_singleton.mp hj]
      show update s.call i _ i = _ ∧ (update s.wtr i _ i).done = false
      rw [update_self, update_self]
      exact ⟨rfl, rfl⟩
  · exact nodup_snoc h.recvq_nodup hr

theorem recvBody (h : Inv s) (hs : i ∉ s.ch.sendq) (hr : i ∉ s.ch.recvq) (block : Bool) :
    Inv (chanRecvBody s i block) := by
  obtain ⟨w, q, hl, hq, e⟩ | ⟨hl, hq, e⟩ | ⟨w, q, hl, hq, e⟩ | ⟨hl, hq, e⟩ | ⟨hl, hq, _, e⟩ :=
    recv_cases s i block <;> rw [e]
  · exact h.takeRefill hs hl hq
  · exact h.takeBuf hs hr hl hq
  · exact h.takeDirect hs hl hq
  · exact h.ret _ hs hr
  · exact h.queueRecv hr hl hq

theorem unlink (h : Inv s) (i : Nat) : Inv (s.unlink i) where
  ch := { h.ch with
    recvq_empty := fun hq => h.ch.recvq_empty (fun e => hq (by
      show s.ch.recvq.erase i = []
      rw [e]
      rfl)) }
  fifo := h.fifo
  sendq_wait := h.sendq_wait
  recvq_wait := fun j hj => h.recvq_wait j (List.mem_of_mem_erase hj)
  sendq_nodup := h.sendq_nodup
  recvq_nodup := h.recvq_nodup.erase i

theorem recvWake (h : Inv s) (hi : s.call i = .recvWait) : Inv (chanRecvWake s i) := by
  have hu := h.unlink i
  have hs : i ∉ (s.unlink i).ch.sendq := h.not_mem_sendq (by rw [hi]; simp)
  have hr : i ∉ (s.unlink i).ch.recvq := h.recvq_nodup.not_mem_erase
  obtain ⟨_, _, e⟩ | ⟨_, e⟩ | ⟨_, e⟩ := wake_cases s i <;> rw [e]
  · exact hu.ret _ hs hr
  · exact hu.ret _ hs hr
  · exact hu.recvBody hs hr true

theorem close (h : Inv s) : Inv (hpbiChanClose s) := by
  have hoff : ∀ j ∈ s.ch.sendq, j ∉ s.ch.recvq := fun j hj hj' => by
    have h1 := (h.sendq_wait j hj).1
    rw [(h.recvq_wait j hj').1] at h1
    cases h1
  refine ⟨?_, ?_, ?_, fun j hj => absurd hj List.not_mem_nil, h.sendq_nodup, List.nodup_nil⟩
  · exact { h.ch with recvq_empty := fun hq => absurd rfl hq }
  · rw [show (hpbiChanClose s).held = s.held by
      unfold State.held State.queued
      congr 1
      apply List.map_congr_left
      intro j hj
      show (if j ∈ s.ch.recvq then _ else s.wtr j).value = _
      rw [if_neg (hoff j hj)]]
    exact h.fifo
  · intro j hj
    refine ⟨(h.sendq_wait j hj).1, ?_⟩
    show (if j ∈ s.ch.recvq then _ else s.wtr j).done = false
    rw [if_neg (hoff j hj)]
    exact (h.sendq_wait j hj).2

/-! ## runs -/

theorem send (h : Inv s) (hi : s.call i = .idle) (v : HVal S) (block : Bool) :
    Inv (chanSendImpl s i v block) := by
  obtain e | ⟨r, q, _, hq, e⟩ | ⟨hr, hl, e⟩ | ⟨hr, hl, e⟩ := send_cases s i v block <;> rw [e]
  · exact h.ret _ (h.idle_not_mem hi).1 (h.idle_not_mem hi).2
  · exact h.handoff hi v hq
  · exact h.fill hi v hr hl
  · exact h.queueSend hi v hr hl

theorem step {t : State S} {l : Act S} (h : Inv s) (hn : next s l = some t) : Inv t := by
  obtain ⟨i, v, b, -, hi, rfl⟩ | ⟨i, -, hi, hd, rfl⟩ | ⟨i, b, -, hi, rfl⟩ | ⟨i, -, hi, -, rfl⟩ |
    ⟨-, rfl⟩ := next_cases hn
  · exact h.send hi v b
  · refine h.ret _ (fun hm => ?_) (h.not_mem_recvq (by rw [hi]; simp))
    rw [(h.sendq_wait i hm).2] at hd
    cases hd
  · exact h.recvBody (h.idle_not_mem hi).1 (h.idle_not_mem hi).2 b
  · exact h.recvWake hi
  · exact h.close

theorem start (cap : Int64) : Inv (start cap : State S) where
  ch := {
    len_le := Nat.zero_le _
    head_lt := id
    tail_eq := fun _ => (Nat.zero_mod _).symm
    recvq_empty := fun hq => absurd rfl hq
    sendq_full := fun hq => absurd rfl hq }
  fifo := rfl
  sendq_wait := fun _ hj => absurd hj List.not_mem_nil
  recvq_wait := fun _ hj => absurd hj List.not_mem_nil
  sendq_nodup := List.nodup_nil
  recvq_nodup := List.nodup_nil

theorem reach (hs : (sys S).Reach s) : Inv s :=
  hs.inv (fun _ ⟨cap, e⟩ => e ▸ Inv.start cap) (fun _ _ _ h hn => h.step hn)

end Inv

/-- the values in the buffer: what entered and neither left nor belongs to a queued sender -/
def State.buffered (s : State S) : List (HVal S) :=
  ((s.entered.map Prod.snd).drop s.left.length).take s.ch.len

/-- the shape of the channel at a release of `ch->mu` -/
structure Shape (s : State S) : Prop where
  len_le : s.ch.len ≤ s.ch.cap
  head_lt : 0 < s.ch.cap → s.ch.head < s.ch.cap
  tail_lt : 0 < s.ch.cap → s.ch.tail < s.ch.cap
  tail_eq : 0 < s.ch.cap → s.ch.tail = (s.ch.head + s.ch.len) % s.ch.cap
  /-- the live slots hold the buffered values in the order they entered -/
  slots : ∀ k, k < s.ch.len → s.buffered[k]? = some (s.ch.buf ((s.ch.head + k) % s.ch.cap))
  slots_len : s.buffered.length = s.ch.len
  recvq : s.ch.recvq ≠ [] → s.ch.len = 0 ∧ s.ch.sendq = []
  sendq : s.ch.sendq ≠ [] → s.ch.len = s.ch.cap

/-- **Every reachable channel is in shape.** -/
theorem chan_shape {s : State S} (hs : (sys S).Reach s) : Shape s := by
  have h := Inv.reach hs
  have hb : s.buffered = s.ch.live := by
    unfold State.buffered
    rw [h.fifo, List.drop_left' (List.length_map ..), State.held]
    exact List.take_left' (Ring.length_contents ..)
  exact {
    len_le := h.ch.len_le
    head_lt := h.ch.head_lt
    tail_lt := fun hc => by
      rw [h.ch.tail_eq hc]
      exact Nat.mod_lt _ hc
    tail_eq := h.ch.tail_eq
    slots := fun k hk => by
      rw [hb, ChanRec.live, Ring.contents, List.getElem?_map, List.getElem?_range hk]
      rfl
    slots_len := by
      rw [hb]
      exact Ring.length_contents ..
    recvq := h.ch.recvq_empty
    sendq := h.ch.sendq_full }

/-- a channel of capacity 1 after two sends, the second one asleep in the queue -/
theorem chan_shape_full :
    Shape (chanSendImpl (chanSendImpl (start 1 : State Bytes) 0 (.int 7) true) 1 .null true) :=
  chan_shape (((Sys.Reach.init ⟨1, rfl⟩ : (sys Bytes).Reach (start 1)).step
    (l := .send 0 (.int 7) true) rfl).step (l := .send 1 .null true) rfl)

/-! ## what a step does to a call -/

/-- the call that a step belongs to -/
def Act.who : Act S → Option Nat
  | .send i _ _ => some i
  | .sendWake i => some i
  | .recv i _ => some i
  | .recvWake i => some i
  | .close => none

/-- the call has returned -/
def Call.Final (c : Call S) : Prop := (∃ v ok, c = .sent v ok) ∨ ∃ o, c = .got o

theorem send_call (s : State S) (i : Nat) (v : HVal S) (block : Bool) :
    ∃ c, (chanSendImpl s i v block).call = update s.call i c ∧
      (c = .sendWait ∨ ∃ ok, c = .sent v ok) ∧
      (chanSendImpl s i v block).ch.cap = s.ch.cap := by
  obtain e | ⟨r, q, _, _, e⟩ | ⟨_, _, e⟩ | ⟨_, _, e⟩ := send_cases s i v block <;> rw [e]
  · exact ⟨_, rfl, .inr ⟨false, rfl⟩, rfl⟩
  · exact ⟨_, rfl, .inr ⟨true, rfl⟩, rfl⟩
  · exact ⟨_, rfl, .inr ⟨true, rfl⟩, rfl⟩
  · exact ⟨_, rfl, .inl rfl, rfl⟩

theorem recv_call (s : State S) (i : Nat) (block : Bool) :
    ∃ c, (chanRecvBody s i block).call = update s.call i c ∧ (c = .recvWait ∨ ∃ o, c = .got o) ∧
      (chanRecvBody s i block).ch.cap = s.ch.cap := by
  obtain ⟨w, q, _, _, e⟩ | ⟨_, _, e⟩ | ⟨w, q, _, _, e⟩ | ⟨_, _, e⟩ | ⟨_, _, _, e⟩ :=
    recv_cases s i block <;> rw [e]
  · exact ⟨_, rfl, .inr ⟨_, rfl⟩, rfl⟩
  · exact ⟨_, rfl, .inr ⟨_, rfl⟩, rfl⟩
  · exact ⟨_, rfl, .inr ⟨_, rfl⟩, rfl⟩
  · exact ⟨_, rfl, .inr ⟨_, rfl⟩, rfl⟩
  · exact ⟨_, rfl, .inl rfl, rfl⟩

theorem recvWake_call (s : State S) (i : Nat) :
    ∃ c, (chanRecvWake s i).call = update s.call i c ∧ (c = .recvWait ∨ ∃ o, c = .got o) ∧
      (chanRecvWake s i).ch.cap = s.ch.cap := by
  obtain ⟨_, _, e⟩ | ⟨_, e⟩ | ⟨_, e⟩ := wake_cases s i <;> rw [e]
  · exact ⟨_, rfl, .inr ⟨_, rfl⟩, rfl⟩
  · exact ⟨_, rfl, .inr ⟨_, rfl⟩, rfl⟩
  · exact recv_call (s.unlink i) i true

/-- a step moves its own call, which has not returned, and the capacity stays -/
theorem next_call {s t : State S} {l : Act S} (h : next s l = some t) :
    ((l.who = none ∧ t.call = s.call) ∨
      ∃ i c, l.who = some i ∧ t.call = update s.call i c ∧ ¬ (s.call i).Final ∧ c ≠ .idle) ∧
    t.ch.cap = s.ch.cap := by
  have hidle : ¬ (Call.idle : Call S).Final := by
    rintro (⟨_, _, e⟩ | ⟨_, e⟩) <;> cases e
  have hsend : ¬ (Call.sendWait : Call S).Final := by
    rintro (⟨_, _, e⟩ | ⟨_, e⟩) <;> cases e
  have hrecv : ¬ (Call.recvWait : Call S).Final := by
    rintro (⟨_, _, e⟩ | ⟨_, e⟩) <;> cases e
  obtain ⟨i, v, b, rfl, hi, rfl⟩ | ⟨i, rfl, hi, hd, rfl⟩ | ⟨i, b, rfl, hi, rfl⟩ |
    ⟨i, rfl, hi, -, rfl⟩ | ⟨rfl, rfl⟩ := next_cases h
  · obtain ⟨c, hc, hcase, hcap⟩ := send_call s i v b
    refine ⟨.inr ⟨i, c, rfl, hc, hi ▸ hidle, ?_⟩, hcap⟩
    rcases hcase with rfl | ⟨ok, rfl⟩ <;> rintro ⟨⟩
  · exact ⟨.inr ⟨i, _, rfl, rfl, hi ▸ hsend, by rintro ⟨⟩⟩, rfl⟩
  · obtain ⟨c, hc, hcase, hcap⟩ := recv_call s i b
    refine ⟨.inr ⟨i, c, rfl, hc, hi ▸ hidle, ?_⟩, hcap⟩
    rcases hcase with rfl | ⟨o, rfl⟩ <;> rintro ⟨⟩
  · obtain ⟨c, hc, hcase, hcap⟩ := recvWake_call s i
    refine ⟨.inr ⟨i, c, rfl, hc, hi ▸ hrecv, ?_⟩, hcap⟩
    rcases hcase with rfl | ⟨o, rfl⟩ <;> rintro ⟨⟩
  · exact ⟨.inl ⟨rfl, rfl⟩, rfl⟩

theorem call_other {s t : State S} {l : Act S} (h : next s l = some t) {j : Nat}
    (hj : l.who ≠ some j) : t.call j = s.call j := by
  obtain ⟨⟨-, e⟩ | ⟨i, c, hi, e, -⟩, -⟩ := next_call h
  · rw [e]
  · rw [e]
    refine update_of_ne ?_ _ _
    rintro rfl
    exact hj hi

/-- what a call has returned stays -/
theorem call_final {s t : State S} {l : Act S} (h : next s l = some t) {j : Nat}
    (hj : (s.call j).Final) : t.call j = s.call j := by
  obtain ⟨⟨-, e⟩ | ⟨i, c, hi, e, hf, -⟩, -⟩ := next_call h
  · rw [e]
  · rw [e]
    refine update_of_ne ?_ _ _
    rintro rfl
    exact hf hj

theorem call_busy {s t : State S} {l : Act S} (h : next s l = some t) {j : Nat}
    (hj : s.call j ≠ .idle) : t.call j ≠ .idle := by
  obtain ⟨⟨-, e⟩ | ⟨i, c, hi, e, -, hc⟩, -⟩ := next_call h
  · rwa [e]
  · rw [e]
    by_cases hij : j = i
    · rw [hij, update_self]
      exact hc
    · rwa [update_of_ne hij]

theorem recv_entered (s : State S) (i : Nat) (block : Bool) :
    (chanRecvBody s i block).entered = s.entered := by
  obtain ⟨w, q, _, _, e⟩ | ⟨_, _, e⟩ | ⟨w, q, _, _, e⟩ | ⟨_, _, e⟩ | ⟨_, _, _, e⟩ :=
    recv_cases s i block <;> rw [e] <;> rfl

/-- nothing enters but the value of a send -/
theorem next_entered {s t : State S} {l : Act S} (h : next s l = some t) :
    t.entered = s.entered ∨
      ∃ i v b, l = .send i v b ∧ t.entered = s.entered ++ [(i, v)] := by
  obtain ⟨i, v, b, rfl, hi, rfl⟩ | ⟨i, rfl, hi, hd, rfl⟩ | ⟨i, b, rfl, hi, rfl⟩ |
    ⟨i, rfl, hi, -, rfl⟩ | ⟨rfl, rfl⟩ := next_cases h
  · obtain e | ⟨r, q, _, _, e⟩ | ⟨_, _, e⟩ | ⟨_, _, e⟩ := send_cases s i v b <;> rw [e]
    · exact .inl rfl
    · exact .inr ⟨i, v, b, rfl, rfl⟩
    · exact .inr ⟨i, v, b, rfl, rfl⟩
    · exact .inr ⟨i, v, b, rfl, rfl⟩
  · exact .inl rfl
  · exact .inl (recv_entered s i b)
  · obtain ⟨_, _, e⟩ | ⟨_, e⟩ | ⟨_, e⟩ := wake_cases s i <;> rw [e]
    · exact .inl rfl
    · exact .inl rfl
    · exact .inl (recv_entered (s.unlink i) i true)
  · exact .inl rfl

/-- the call is a receive that has started -/
def Call.Receives (c : Call S) : Prop := c = .recvWait ∨ ∃ o, c = .got o

theorem next_receives {s t : State S} {l : Act S} (h : next s l = some t) {n : Nat}
    (hn : (t.call n).Receives) : (s.call n).Receives ∨ ∃ b, l = .recv n b := by
  obtain ⟨i, v, b, rfl, hi, rfl⟩ | ⟨i, rfl, hi, hd, rfl⟩ | ⟨i, b, rfl, hi, rfl⟩ |
    ⟨i, rfl, hi, -, rfl⟩ | ⟨rfl, rfl⟩ := next_cases h
  · obtain ⟨c, hc, hcase, -⟩ := send_call s i v b
    rw [hc] at hn
    by_cases e : n = i
    · rw [e, update_self] at hn
      rcases hcase with rfl | ⟨ok, rfl⟩ <;> rcases hn with e | ⟨o, e⟩ <;> cases e
    · rw [update_of_ne e] at hn
      exact .inl hn
  · by_cases e : n = i
    · subst e
      have hn' : ((update s.call n (.sent (s.wtr n).value true)) n).Receives := hn
      rw [update_self] at hn'
      rcases hn' with e | ⟨o, e⟩ <;> cases e
    · exact .inl ((update_of_ne e _ s.call) ▸ hn)
  · by_cases e : n = i
    · exact .inr ⟨b, by rw [e]⟩
    · obtain ⟨c, hc, -⟩ := recv_call s i b
      rw [hc, update_of_ne e] at hn
      exact .inl hn
  · by_cases e : n = i
    · exact .inl (.inl (e ▸ hi))
    · obtain ⟨c, hc, -⟩ := recvWake_call s i
      rw [hc, update_of_ne e] at hn
      exact .inl hn
  · exact .inl hn

end Chan
end HolyPhp
