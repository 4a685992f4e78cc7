import HolyPhp.Lib.Graph
import HolyPhp.Thread.ChanInv

/-!
# Delivery: each accepted value reaches one receive, in order

Positions of the history `entered` name the messages.  `Delivered s` says that message `k` either
left as departure `k`, for ONE receive that returned it or was handed it (`Handed`: its next
section returns it), or is still held.

A waiting receiver tells a handoff from the wake-up by `close` by its value alone: a null value is
taken for a wake-up, and the receiver goes on without it although the send returned true
(`delivered_fails`).  Runs without a null handoff deliver everything (`delivered_of_noNull`).
In these runs a call that sleeps is queued, or it has what it waits for (`Asleep`).
-/

namespace HolyPhp
namespace Chan
open Function Runs State Graph

variable {S : Type}

/-- the receiver `r` sleeps on a waiter that carries `v` to it -/
def Handed (s : State S) (r : Nat) (v : HVal S) : Prop :=
  s.call r = .recvWait ∧ (s.wtr r).done = true ∧ (s.wtr r).value = v ∧ v ≠ .null

structure Delivered (s : State S) : Prop where
  /-- the values left in the order in which they entered, and the rest is held in that order -/
  order : s.entered.map Prod.snd = s.left.map Prod.snd ++ s.held
  /-- a send enters once, and a receive takes one value -/
  sends_nodup : (s.entered.map Prod.fst).Nodup
  recvs_nodup : (s.left.map Prod.fst).Nodup
  /-- only an accepted send enters: it returned true or sleeps in `sendq` -/
  entered_call : ∀ i v, (i, v) ∈ s.entered → s.call i = .sent v true ∨ s.call i = .sendWait
  /-- a value whose send returned true went to one receive or is held -/
  once : ∀ i v, s.call i = .sent v true → ∃ k : Nat, s.entered[k]? = some (i, v) ∧
    ((∃ r, s.left[k]? = some (r, v) ∧ (s.call r = .got (some v) ∨ Handed s r v)) ∨
      (s.left.length ≤ k ∧ s.held[k - s.left.length]? = some v))
  /-- a value that a receive returned was sent -/
  got_sent : ∀ r v, s.call r = .got (some v) → ∃ (k i : Nat), s.left[k]? = some (r, v) ∧
    s.entered[k]? = some (i, v)
  /-- a receive that was handed a value returns it -/
  handed_next : ∀ r v, Handed s r v →
    ∃ t, next s (.recvWake r) = some t ∧ t.call r = .got (some v)

/-- no null value is sent while a receiver waits -/
def NoNullHandoff (s : State S) : Act S → Prop
  | .send _ v _ => v ≠ .null ∨ s.ch.recvq = []
  | _ => True

/-! ## what the histories are graphs of -/

/-- the value of a send that the channel took -/
def Call.accepted (w : ChanWaiter S) : Call S → Option (HVal S)
  | .sent v true => some v
  | .sendWait => some w.value
  | _ => none

/-- the value of a receive that returned it or was handed it -/
def Call.delivered (w : ChanWaiter S) : Call S → Option (HVal S)
  | .got out => out
  | .recvWait => if w.done ∧ w.value.tag ≠ .null then some w.value else none
  | _ => none

def accepted (s : State S) (i : Nat) : Option (HVal S) := (s.call i).accepted (s.wtr i)

def delivered (s : State S) (i : Nat) : Option (HVal S) := (s.call i).delivered (s.wtr i)

theorem accepted_of {s : State S} {i : Nat} {c : Call S} (h : s.call i = c) :
    accepted s i = c.accepted (s.wtr i) := by rw [accepted, h]

theorem delivered_of {s : State S} {i : Nat} {c : Call S} (h : s.call i = c) :
    delivered s i = c.delivered (s.wtr i) := by rw [delivered, h]

theorem delivered_null {w : ChanWaiter S} (h : w.value = .null) :
    (Call.recvWait : Call S).delivered w = none :=
  if_neg fun e => e.2 (HVal.tag_eq_null.mpr h)

theorem delivered_sleeping {w : ChanWaiter S} (h : w.done = false) :
    (Call.recvWait : Call S).delivered w = none :=
  if_neg fun e => by
    rw [h] at e
    cases e.1

theorem delivered_done {w : ChanWaiter S} (h : w.done = true) (hv : w.value ≠ .null) :
    (Call.recvWait : Call S).delivered w = some w.value :=
  if_pos ⟨h, fun e => hv (HVal.tag_eq_null.mp e)⟩

structure DInv (s : State S) : Prop where
  sends : IsGraph s.entered (accepted s)
  recvs : IsGraph s.left (delivered s)
  /-- a queued receiver has no value yet -/
  waiting_null : ∀ r ∈ s.ch.recvq, (s.wtr r).value = .null

theorem delivered_cases {s : State S} {r : Nat} {v : HVal S} (h : delivered s r = some v) :
    s.call r = .got (some v) ∨ Handed s r v := by
  cases hc : s.call r with
  | got out =>
    rw [delivered_of hc] at h
    exact .inl (congrArg Call.got h)
  | recvWait =>
    rw [delivered_of hc, Call.delivered] at h
    split at h
    · rename_i hw
      have hv := Option.some.inj h
      exact .inr ⟨hc, hw.1, hv, fun e => hw.2 (HVal.tag_eq_null.mpr (hv.trans e))⟩
    · cases h
  | idle | sendWait | sent _ _ =>
    rw [delivered_of hc] at h
    cases h

/-- `accepted` looks at the state of a call and, for a blocked send, at the value of its waiter -/
theorem accepted_congr {s t : State S} {j : Nat} (hc : t.call j = s.call j)
    (hw : s.call j = .sendWait → (t.wtr j).value = (s.wtr j).value) :
    accepted t j = accepted s j := by
  rw [accepted, hc, accepted]
  cases h : s.call j with
  | sendWait => exact congrArg some (hw h)
  | sent v ok => cases ok <;> rfl
  | idle | recvWait | got _ => rfl

theorem delivered_congr {s t : State S} {j : Nat} (hc : t.call j = s.call j)
    (hw : s.call j = .recvWait → t.wtr j = s.wtr j) : delivered t j = delivered s j := by
  rw [delivered, hc, delivered]
  cases h : s.call j with
  | recvWait => rw [hw h]
  | idle | sendWait | sent _ _ | got _ => rfl

namespace DInv
variable {s : State S} {i : Nat}

/-- a step that moves the call `i` alone to `c`: `accepted` changes at `i` alone -/
theorem accepted_update {t : State S} {o : Option (HVal S)} (c : Call S)
    (hcall : t.call = update s.call i c) (hi : c.accepted (t.wtr i) = o)
    (hw : ∀ j, j ≠ i → s.call j = .sendWait → (t.wtr j).value = (s.wtr j).value) :
    accepted t = update (accepted s) i o := by
  funext j
  by_cases e : j = i
  · rw [e, update_self, ← hi, accepted, hcall, update_self]
  · rw [update_of_ne e]
    exact accepted_congr (by rw [hcall, update_of_ne e]) (hw j e)

theorem delivered_update {t : State S} {o : Option (HVal S)} (c : Call S)
    (hcall : t.call = update s.call i c) (hi : c.delivered (t.wtr i) = o)
    (hw : ∀ j, j ≠ i → s.call j = .recvWait → t.wtr j = s.wtr j) :
    delivered t = update (delivered s) i o := by
  funext j
  by_cases e : j = i
  · rw [e, update_self, ← hi, delivered, hcall, update_self]
  · rw [update_of_ne e]
    exact delivered_congr (by rw [hcall, update_of_ne e]) (hw j e)

theorem accepted_same {t : State S} (c : Call S) (hcall : t.call = update s.call i c)
    (hi : c.accepted (t.wtr i) = accepted s i)
    (hw : ∀ j, j ≠ i → s.call j = .sendWait → (t.wtr j).value = (s.wtr j).value) :
    accepted t = accepted s := by
  rw [accepted_update c hcall hi hw, update_eq_self]

theorem delivered_same {t : State S} (c : Call S) (hcall : t.call = update s.call i c)
    (hi : c.delivered (t.wtr i) = delivered s i)
    (hw : ∀ j, j ≠ i → s.call j = .recvWait → t.wtr j = s.wtr j) :
    delivered t = delivered s := by
  rw [delivered_update c hcall hi hw, update_eq_self]

/-- the call `i` is in neither history -/
def Fresh (s : State S) (i : Nat) : Prop := accepted s i = none ∧ delivered s i = none

theorem fresh_idle (hi : s.call i = .idle) : Fresh s i :=
  ⟨accepted_of hi, delivered_of hi⟩

/-- a receiver that `close` woke has no value -/
theorem fresh_woken (hi : s.call i = .recvWait)
    (hv : ¬ ((s.wtr i).done = true ∧ (s.wtr i).value ≠ .null)) : Fresh s i := by
  refine ⟨accepted_of hi, (delivered_of hi).trans ?_⟩
  exact if_neg fun h => hv ⟨h.1, fun e => h.2 (HVal.tag_eq_null.mpr e)⟩

/-- a call that returns without effect -/
theorem ret (h : DInv s) {c : Call S} (ha : c.accepted (s.wtr i) = accepted s i)
    (hd : c.delivered (s.wtr i) = delivered s i) : DInv (s.ret i c) where
  sends := by
    rw [accepted_same (t := s.ret i c) c rfl ha fun _ _ _ => rfl]
    exact h.sends
  recvs := by
    rw [delivered_same (t := s.ret i c) c rfl hd fun _ _ _ => rfl]
    exact h.recvs
  waiting_null := h.waiting_null

theorem ret_sent_false (h : DInv s) (hf : Fresh s i) (v : HVal S) :
    DInv (s.ret i (.sent v false)) := h.ret hf.1.symm hf.2.symm

theorem ret_got_none (h : DInv s) (hf : Fresh s i) : DInv (s.ret i (.got none)) :=
  h.ret hf.1.symm hf.2.symm

/-- the handed value reaches the waiter of `r`, where the receiver tells it from a wake-up
because it is not null -/
theorem handoff (h : DInv s) (hI : Inv s) (hi : s.call i = .idle) {v : HVal S} (hv : v ≠ .null)
    {r : Nat} {q : List Nat} (hq : s.ch.recvq = r :: q) : DInv (s.handoff i v r q) := by
  obtain ⟨hr, hd⟩ := hI.recvq_wait r (by rw [hq]; exact List.mem_cons_self)
  have hri : r ≠ i := by
    intro he
    subst he
    rw [hr] at hi
    cases hi
  have hwtr : ∀ j, j ≠ r → (s.handoff i v r q).wtr j = s.wtr j := fun j hj => update_of_ne hj ..
  have hacc : accepted (s.handoff i v r q) = update (accepted s) i (some v) := by
    apply accepted_update (.sent v true) rfl rfl
    intro j _ hj
    rw [hwtr j]
    intro he
    subst he
    rw [hr] at hj
    cases hj
  have hdel : delivered (s.handoff i v r q) = update (delivered s) r (some v) := by
    funext j
    by_cases ej : j = r
    · have hcall : (s.handoff i v r q).call r = .recvWait := (update_of_ne hri ..).trans hr
      have hw : (s.handoff i v r q).wtr r = ⟨v, true⟩ := update_self ..
      rw [ej, update_self, delivered, hcall, hw]
      exact delivered_done rfl hv
    · rw [update_of_ne ej]
      by_cases ei : j = i
      · have hcall : (s.handoff i v r q).call i = .sent v true := update_self ..
        rw [ei, (fresh_idle hi).2, delivered, hcall]
        rfl
      · exact delivered_congr (update_of_ne ei ..) fun _ => hwtr j ej
  exact {
    sends := by
      rw [hacc]
      exact h.sends.snoc (fresh_idle hi).1 v
    recvs := by
      rw [hdel]
      exact h.recvs.snoc ((delivered_of hr).trans (delivered_sleeping hd)) v
    waiting_null := fun j hj => by
      have hjq : j ∈ q := hj
      rw [hwtr j]
      · exact h.waiting_null j (by rw [hq]; exact List.mem_cons_of_mem _ hjq)
      · intro he
        subst he
        exact (List.nodup_cons.mp (hq ▸ hI.recvq_nodup)).1 hjq }

theorem fill (h : DInv s) (hi : s.call i = .idle) (v : HVal S) : DInv (s.fill i v) where
  sends := by
    have e : accepted (s.fill i v) = update (accepted s) i (some v) :=
      accepted_update (.sent v true) rfl rfl fun _ _ _ => rfl
    rw [e]
    exact h.sends.snoc (fresh_idle hi).1 v
  recvs := by
    have e : delivered (s.fill i v) = delivered s :=
      delivered_same (.sent v true) rfl (fresh_idle hi).2.symm fun _ _ _ => rfl
    rw [e]
    exact h.recvs
  waiting_null := h.waiting_null

theorem queueSend (h : DInv s) (hI : Inv s) (hi : s.call i = .idle) (v : HVal S) :
    DInv (s.queueSend i v) := by
  have hwi : (s.queueSend i v).wtr i = ⟨v, false⟩ := update_self ..
  have hwtr : ∀ j, j ≠ i → (s.queueSend i v).wtr j = s.wtr j := fun j hj => update_of_ne hj ..
  have hacc : accepted (s.queueSend i v) = update (accepted s) i (some v) :=
    accepted_update .sendWait rfl (by rw [hwi]; rfl) fun j hj _ => by rw [hwtr j hj]
  have hdel : delivered (s.queueSend i v) = delivered s :=
    delivered_same .sendWait rfl (fresh_idle hi).2.symm fun j hj _ => hwtr j hj
  refine ⟨?_, ?_, fun j hj => ?_⟩
  · rw [hacc]
    exact h.sends.snoc (fresh_idle hi).1 v
  · rw [hdel]
    exact h.recvs
  · rw [hwtr j (ne_of_mem_of_not_mem hj (hI.idle_not_mem hi).2)]
    exact h.waiting_null j hj

/-- a receive that takes `v`; the waiter of a popped sender may be marked done on the way -/
theorem take (h : DInv s) (hf : Fresh s i) {t : State S} {v : HVal S}
    (hcall : t.call = update s.call i (.got (some v))) (hent : t.entered = s.entered)
    (hleft : t.left = s.left ++ [(i, v)]) (hval : ∀ j, (t.wtr j).value = (s.wtr j).value)
    (hrecv : ∀ j, s.call j = .recvWait → t.wtr j = s.wtr j)
    (hq : t.ch.recvq = s.ch.recvq) : DInv t where
  sends := by
    rw [accepted_same _ hcall hf.1.symm fun j _ _ => hval j, hent]
    exact h.sends
  recvs := by
    rw [delivered_update (o := some v) _ hcall rfl fun j _ hj => hrecv j hj, hleft]
    exact h.recvs.snoc hf.2 v
  waiting_null := fun j hj => by
    rw [hval j]
    exact h.waiting_null j (hq ▸ hj)

theorem wake_recv (hI : Inv s) {w : Nat} {q : List Nat} (hq : s.ch.sendq = w :: q) (j : Nat)
    (hj : s.call j = .recvWait) : s.wake w j = s.wtr j := by
  refine update_of_ne ?_ ..
  intro he
  subst he
  rw [(hI.sendq_wait j (by rw [hq]; exact List.mem_cons_self)).1] at hj
  cases hj

theorem queueRecv (h : DInv s) (hf : Fresh s i) : DInv (s.queueRecv i) := by
  have hwi : (s.queueRecv i).wtr i = ⟨.null, false⟩ := update_self ..
  have hwtr : ∀ j, j ≠ i → (s.queueRecv i).wtr j = s.wtr j := fun j hj => update_of_ne hj ..
  have hacc : accepted (s.queueRecv i) = accepted s :=
    accepted_same .recvWait rfl hf.1.symm fun j hj _ => by rw [hwtr j hj]
  have hdel : delivered (s.queueRecv i) = delivered s :=
    delivered_same .recvWait rfl ((delivered_null (by rw [hwi])).trans hf.2.symm)
      fun j hj _ => hwtr j hj
  refine ⟨?_, ?_, fun j hj => ?_⟩
  · rw [hacc]
    exact h.sends
  · rw [hdel]
    exact h.recvs
  · by_cases e : j = i
    · rw [e, hwi]
    · have hj' : j ∈ s.ch.recvq ++ [i] := hj
      rw [hwtr j e]
      exact h.waiting_null j ((List.mem_append.mp hj').resolve_right
        fun h' => e (List.mem_singleton.mp h'))

theorem recvBody (h : DInv s) (hI : Inv s) (hf : Fresh s i) (block : Bool) :
    DInv (chanRecvBody s i block) := by
  obtain ⟨w, q, _, hq, e⟩ | ⟨_, _, e⟩ | ⟨w, q, _, hq, e⟩ | ⟨_, _, e⟩ | ⟨_, _, _, e⟩ :=
    recv_cases s i block <;> rw [e]
  · exact h.take hf rfl rfl rfl (Inv.wake_value s w) (wake_recv hI hq) rfl
  · exact h.take hf rfl rfl rfl (fun _ => rfl) (fun _ _ => rfl) rfl
  · exact h.take hf rfl rfl rfl (Inv.wake_value s w) (wake_recv hI hq) rfl
  · exact h.ret_got_none hf
  · exact h.queueRecv hf

theorem unlink (h : DInv s) (i : Nat) : DInv (s.unlink i) where
  sends := h.sends
  recvs := h.recvs
  waiting_null := fun j hj => h.waiting_null j (List.mem_of_mem_erase hj)

theorem recvWake (h : DInv s) (hI : Inv s) (hi : s.call i = .recvWait) :
    DInv (chanRecvWake s i) := by
  have hu := h.unlink i
  obtain ⟨hd, hv, e⟩ | ⟨hv, e⟩ | ⟨hv, e⟩ := wake_cases s i <;> rw [e]
  · have ha : accepted (s.unlink i) i = none := accepted_of hi
    have hdel : delivered (s.unlink i) i = some (s.wtr i).value :=
      (delivered_of hi).trans (delivered_done hd hv)
    exact hu.ret ha.symm hdel.symm
  · exact hu.ret_got_none (fresh_woken hi hv)
  · exact hu.recvBody (hI.unlink i) (fresh_woken hi hv) true

theorem close (h : DInv s) (hI : Inv s) : DInv (hpbiChanClose s) := by
  have hval : ∀ j, ((hpbiChanClose s).wtr j).value = (s.wtr j).value := by
    intro j
    show (if j ∈ s.ch.recvq then _ else s.wtr j).value = _
    split <;> rfl
  refine ⟨?_, ?_, fun j hj => absurd hj List.not_mem_nil⟩
  · rw [show accepted (hpbiChanClose s) = accepted s from
      funext fun j => accepted_congr rfl fun _ => hval j]
    exact h.sends
  · rw [show delivered (hpbiChanClose s) = delivered s from funext fun j => ?_]
    · exact h.recvs
    · by_cases hj : j ∈ s.ch.recvq
      · -- a receiver woken here has no value, before and after
        have hn := h.waiting_null j hj
        have hc := (hI.recvq_wait j hj).1
        rw [delivered_of (s := s) hc, delivered_null hn, delivered_of (s := hpbiChanClose s) hc,
          delivered_null ((hval j).trans hn)]
      · exact delivered_congr rfl fun _ => if_neg hj

/-! ## runs -/

theorem step {t : State S} {l : Act S} (h : DInv s) (hI : Inv s) (hc : NoNullHandoff s l)
    (hn : next s l = some t) : DInv t := by
  obtain ⟨i, v, b, rfl, hi, rfl⟩ | ⟨i, -, hi, hd, rfl⟩ | ⟨i, b, -, hi, rfl⟩ | ⟨i, -, hi, -, rfl⟩ |
    ⟨-, rfl⟩ := next_cases hn
  · obtain e | ⟨r, q, _, hq, e⟩ | ⟨_, _, e⟩ | ⟨_, _, e⟩ := send_cases s i v b <;> rw [e]
    · exact h.ret_sent_false (fresh_idle hi) v
    · refine h.handoff hI hi (hc.resolve_right ?_) hq
      rw [hq]
      exact List.cons_ne_nil _ _
    · exact h.fill hi v
    · exact h.queueSend hI hi v
  · exact h.ret (accepted_of hi).symm (delivered_of hi).symm
  · exact h.recvBody hI (fresh_idle hi) b
  · exact h.recvWake hI hi
  · exact h.close hI

theorem start (cap : Int64) : DInv (start cap : State S) where
  sends := IsGraph.nil
  recvs := IsGraph.nil
  waiting_null := fun _ hj => absurd hj List.not_mem_nil

theorem reachIf (hs : (sys S).ReachIf NoNullHandoff s) : DInv s :=
  hs.inv_of (J := Inv) (fun _ h => Inv.reach h.reach) (fun _ ⟨cap, e⟩ => e ▸ DInv.start cap)
    fun _ _ _ hI h hc hn => h.step hI hc hn

end DInv

/-- **Delivery.**  Without a null handoff every value whose send returned true is returned by
exactly one receive (or on its way into it) or held, in the order of the sends. -/
theorem delivered_of_noNull {s : State S} (hs : (sys S).ReachIf NoNullHandoff s) :
    Delivered s := by
  have hI := Inv.reach hs.reach
  have h := DInv.reachIf hs
  exact {
    order := hI.fifo
    sends_nodup := h.sends.nodup
    recvs_nodup := h.recvs.nodup
    entered_call := fun i v hm => by
      have ha := (h.sends.mem_iff i v).mp hm
      cases hc : s.call i with
      | sent v' ok =>
        rw [accepted_of hc] at ha
        cases ok with
        | true => exact .inl (by rw [← show v' = v from Option.some.inj ha])
        | false => cases ha
      | sendWait => exact .inr rfl
      | idle | recvWait | got _ =>
        rw [accepted_of hc] at ha
        cases ha
    once := fun i v hc => by
      obtain ⟨k, hk⟩ := h.sends.exists_getElem? (accepted_of hc)
      refine ⟨k, hk, ?_⟩
      have hv : (s.left.map Prod.snd ++ s.held)[k]? = some v := by
        rw [← hI.fifo, List.getElem?_map, hk]
        rfl
      by_cases hl : k < s.left.length
      · rw [List.getElem?_append_left (by rwa [List.length_map])] at hv
        obtain ⟨r, hr⟩ := exists_fst_of_map_snd rfl hv
        exact .inl ⟨r, hr, delivered_cases (h.recvs.of_getElem? hr)⟩
      · rw [List.getElem?_append_right (by rw [List.length_map]; omega), List.length_map] at hv
        exact .inr ⟨by omega, hv⟩
    got_sent := fun r v hc => by
      obtain ⟨k, hk⟩ := h.recvs.exists_getElem? (delivered_of hc)
      have hv : (s.left.map Prod.snd ++ s.held)[k]? = some v := by
        rw [List.getElem?_append_left (by
          rw [List.length_map]
          exact (List.getElem?_eq_some_iff.mp hk).1), List.getElem?_map, hk]
        rfl
      obtain ⟨i, hi⟩ := exists_fst_of_map_snd hI.fifo hv
      exact ⟨k, i, hk, hi⟩
    handed_next := fun r v hn => by
      obtain ⟨hc, hd, hv, hne⟩ := hn
      refine ⟨chanRecvWake s r, by rw [next, hc, hd], ?_⟩
      rw [chanRecvWake, if_pos ⟨hd, fun e => hne (hv ▸ HVal.tag_eq_null.mp e)⟩, hv]
      exact update_self .. }

/-- a send of 7 to a waiting receiver -/
theorem delivered_seven :
    Delivered (chanSendImpl (chanRecvBody (start 0 : State Bytes) 0 true) 1 (.int 7) true) :=
  delivered_of_noNull (((Sys.ReachIf.init ⟨0, rfl⟩ :
    (sys Bytes).ReachIf NoNullHandoff (start 0)).step (l := Act.recv 0 true) trivial rfl).step
    (l := Act.send 1 (.int 7) true) (.inl (by simp)) rfl)

/-- a receiver waits on an open channel, null is sent to it (the send returns true), it wakes up
and waits again -/
def nullRun : State Bytes :=
  chanRecvWake (chanSendImpl (chanRecvBody (start 0) 0 true) 1 .null true) 0

theorem nullRun_reach : (sys Bytes).Reach nullRun :=
  (((Sys.Reach.init ⟨0, rfl⟩ : (sys Bytes).Reach (start 0)).step (l := .recv 0 true) rfl).step
    (l := .send 1 .null true) rfl).step (l := .recvWake 0) rfl

/-- the null value is lost: its send returned true, no receive has it and it is not held -/
theorem delivered_fails : ¬ ∀ s : State Bytes, (sys Bytes).Reach s → Delivered s := by
  intro h
  obtain ⟨k, hk, hk'⟩ := (h nullRun nullRun_reach).once 1 .null rfl
  have hent : nullRun.entered = [(1, .null)] := rfl
  have hleft : nullRun.left = [(0, .null)] := rfl
  have h0 : k = 0 := by
    rw [hent] at hk
    have := (List.getElem?_eq_some_iff.mp hk).1
    simpa using this
  rw [hleft, h0] at hk'
  rcases hk' with ⟨r, hr, hgot⟩ | ⟨hl, -⟩
  · have hr0 : r = 0 := (Prod.mk.inj (Option.some.inj hr)).1.symm
    rw [hr0] at hgot
    rcases hgot with e | ⟨-, hd, -⟩
    · cases e
    · cases hd
  · cases hl

/-! ## who sleeps is queued -/

structure Asleep (s : State S) (i : Nat) : Prop where
  send : s.call i = .sendWait → i ∈ s.ch.sendq ∨ (s.wtr i).done = true
  /-- a receiver that is not queued has its value, or `close` woke it -/
  recv : s.call i = .recvWait → i ∈ s.ch.recvq ∨
    ((s.wtr i).done = true ∧ ((s.wtr i).value ≠ .null ∨ s.ch.closed = true))

namespace Asleep
variable {s t : State S} {i : Nat}

/-- a section of the call `i`: the other calls stay queued or are done -/
theorem of_update {c : Call S} (h : ∀ j, j ≠ i → Asleep s j) (hcall : t.call = update s.call i c)
    (hi : (c = .sendWait → i ∈ t.ch.sendq) ∧ (c = .recvWait → i ∈ t.ch.recvq))
    (hs : ∀ j, j ≠ i → s.call j = .sendWait →
      (j ∈ s.ch.sendq → j ∈ t.ch.sendq ∨ (t.wtr j).done = true) ∧
      ((s.wtr j).done = true → (t.wtr j).done = true))
    (hr : ∀ j, j ≠ i → s.call j = .recvWait →
      (t.wtr j = s.wtr j ∧ (j ∈ s.ch.recvq → j ∈ t.ch.recvq)) ∨
        ((t.wtr j).done = true ∧ (t.wtr j).value ≠ .null))
    (hc : t.ch.closed = s.ch.closed) (j : Nat) : Asleep t j where
  send hj := by
    rw [hcall] at hj
    by_cases e : j = i
    · rw [e, update_self] at hj
      exact .inl (e ▸ hi.1 hj)
    · rw [update_of_ne e] at hj
      rcases (h j e).send hj with hq | hd
      · exact (hs j e hj).1 hq
      · exact .inr ((hs j e hj).2 hd)
  recv hj := by
    rw [hcall] at hj
    by_cases e : j = i
    · rw [e, update_self] at hj
      exact .inl (e ▸ hi.2 hj)
    · rw [update_of_ne e] at hj
      rcases hr j e hj with ⟨hw, hq⟩ | ⟨hd, hv⟩
      · rw [hw, hc]
        exact ((h j e).recv hj).imp hq id
      · exact .inr ⟨hd, .inl hv⟩

/-- the call `i` returns -/
theorem ret {c : Call S} (h : ∀ j, j ≠ i → Asleep s j) (hc : c.Final) (j : Nat) :
    Asleep (s.ret i c) j := by
  refine of_update (t := s.ret i c) h rfl ?_ (fun j _ _ => ⟨.inl, id⟩)
    (fun j _ _ => .inl ⟨rfl, id⟩) rfl j
  constructor <;> rintro rfl <;> rcases hc with ⟨_, _, e⟩ | ⟨_, e⟩ <;> cases e

/-- the first queued sender is served -/
theorem pop (h : ∀ j, j ≠ i → Asleep s j) (hI : Inv s) {w : Nat} {q : List Nat}
    (hq : s.ch.sendq = w :: q) {c : Call S} (hf : c.Final) (hcall : t.call = update s.call i c) (hsend : t.ch.sendq = q)
    (hrecv : t.ch.recvq = s.ch.recvq) (hw : t.wtr = s.wake w) (hc : t.ch.closed = s.ch.closed)
    (j : Nat) : Asleep t j := by
  have hwait := (hI.sendq_wait w (by rw [hq]; exact List.mem_cons_self)).1
  refine of_update h hcall ?_ (fun j _ hj => ⟨fun hm => ?_, fun hd => ?_⟩) (fun j _ hj => .inl ?_)
    hc j
  · constructor <;> rintro rfl <;> rcases hf with ⟨_, _, e⟩ | ⟨_, e⟩ <;> cases e
  · rw [hq] at hm
    rcases List.mem_cons.1 hm with rfl | hm
    · rw [hw, State.wake, update_self]
      exact .inr rfl
    · exact .inl (hsend ▸ hm)
  · rw [hw, State.wake]
    by_cases e : j = w
    · rw [e, update_self]
    · rw [update_of_ne e]
      exact hd
  · have hne : j ≠ w := by
      rintro rfl
      rw [hwait] at hj
      cases hj
    rw [hw, hrecv, State.wake, update_of_ne hne]
    exact ⟨rfl, id⟩

theorem send_section (h : ∀ j, Asleep s j) (hI : Inv s) {v : HVal S}
    (hv : v ≠ .null ∨ s.ch.recvq = []) (block : Bool) (j : Nat) :
    Asleep (chanSendImpl s i v block) j := by
  have h' : ∀ j, j ≠ i → Asleep s j := fun j _ => h j
  obtain e | ⟨r, q, _, hq, e⟩ | ⟨_, _, e⟩ | ⟨_, _, e⟩ := send_cases s i v block <;> rw [e]
  · exact ret h' (.inl ⟨v, false, rfl⟩) j
  · have hwait := (hI.recvq_wait r (by rw [hq]; exact List.mem_cons_self)).1
    refine of_update (t := s.handoff i v r q) (c := .sent v true) h' rfl ⟨by rintro ⟨⟩, by rintro ⟨⟩⟩
      (fun j _ hj => ⟨.inl, fun hd => ?_⟩) (fun j _ hj => ?_) rfl j
    · have hne : j ≠ r := by
        rintro rfl
        rw [hwait] at hj
        cases hj
      rw [State.handoff]
      dsimp only
      rwa [update_of_ne hne]
    · by_cases hjr : j = r
      · subst hjr
        refine .inr ?_
        rw [State.handoff]
        dsimp only
        rw [update_self]
        refine ⟨rfl, hv.resolve_right ?_⟩
        rw [hq]
        exact List.cons_ne_nil _ _
      · refine .inl ⟨update_of_ne hjr _ _, fun hm => ?_⟩
        rw [hq] at hm
        exact (List.mem_cons.1 hm).resolve_left hjr
  · exact of_update (t := s.fill i v) (c := .sent v true) h' rfl ⟨by rintro ⟨⟩, by rintro ⟨⟩⟩
      (fun j _ _ => ⟨.inl, id⟩) (fun j _ _ => .inl ⟨rfl, id⟩) rfl j
  · refine of_update (t := s.queueSend i v) (c := .sendWait) h' rfl ⟨fun _ => ?_, by rintro ⟨⟩⟩
      (fun j hj _ => ⟨fun hm => .inl ?_, fun hd => ?_⟩) (fun j hj _ => .inl ⟨?_, id⟩) rfl j
    · exact List.mem_append_right _ (List.mem_singleton.2 rfl)
    · exact List.mem_append_left _ hm
    · rw [State.queueSend]
      dsimp only
      rwa [update_of_ne hj]
    · exact update_of_ne hj _ _

/-- the place of the receiver itself does not count -/
theorem recv_section (h : ∀ j, j ≠ i → Asleep s j) (hI : Inv s) (block : Bool) (j : Nat) :
    Asleep (chanRecvBody s i block) j := by
  obtain ⟨w, q, _, hq, e⟩ | ⟨_, _, e⟩ | ⟨w, q, _, hq, e⟩ | ⟨_, _, e⟩ | ⟨_, _, _, e⟩ :=
    recv_cases s i block <;> rw [e]
  · exact pop (t := s.takeRefill i w q) h hI hq (.inr ⟨_, rfl⟩) rfl rfl rfl rfl rfl j
  · exact of_update (t := s.takeBuf i) (c := .got (some (s.ch.buf s.ch.head))) h rfl
      ⟨by rintro ⟨⟩, by rintro ⟨⟩⟩
      (fun j _ _ => ⟨.inl, id⟩) (fun j _ _ => .inl ⟨rfl, id⟩) rfl j
  · exact pop (t := s.takeDirect i w q) h hI hq (.inr ⟨_, rfl⟩) rfl rfl rfl rfl rfl j
  · exact ret h (.inr ⟨none, rfl⟩) j
  · refine of_update (t := s.queueRecv i) (c := .recvWait) h rfl ⟨by rintro ⟨⟩, fun _ => ?_⟩
      (fun j hj _ => ⟨.inl, fun hd => ?_⟩) (fun j hj _ => .inl ⟨?_, fun hm => ?_⟩) rfl j
    · exact List.mem_append_right _ (List.mem_singleton.2 rfl)
    · rw [State.queueRecv]
      dsimp only
      rwa [update_of_ne hj]
    · exact update_of_ne hj _ _
    · exact List.mem_append_left _ hm

theorem wake_section (h : ∀ j, Asleep s j) (hI : Inv s) (j : Nat) :
    Asleep (chanRecvWake s i) j := by
  have hu : ∀ j, j ≠ i → Asleep (s.unlink i) j := fun j hj =>
    ⟨(h j).send, fun hc => ((h j).recv hc).imp (List.mem_erase_of_ne hj).2 id⟩
  obtain ⟨_, _, e⟩ | ⟨_, e⟩ | ⟨_, e⟩ := wake_cases s i <;> rw [e]
  · exact ret hu (.inr ⟨_, rfl⟩) j
  · exact ret hu (.inr ⟨_, rfl⟩) j
  · exact recv_section hu (hI.unlink i) true j

theorem step {l : Act S} (h : ∀ j, Asleep s j) (hI : Inv s) (hc : NoNullHandoff s l)
    (hn : next s l = some t) (j : Nat) : Asleep t j := by
  obtain ⟨i, v, b, rfl, hi, rfl⟩ | ⟨i, -, hi, hd, rfl⟩ | ⟨i, b, -, hi, rfl⟩ | ⟨i, -, hi, -, rfl⟩ |
    ⟨-, rfl⟩ := next_cases hn
  · exact send_section h hI hc b j
  · exact ret (fun j _ => h j) (.inl ⟨_, _, rfl⟩) j
  · exact recv_section (fun j _ => h j) hI b j
  · exact wake_section h hI j
  · refine ⟨fun hj => ((h j).send hj).imp id fun hd => ?_, fun hj => .inr ?_⟩
    · show (if j ∈ s.ch.recvq then _ else s.wtr j).done = true
      split
      · rfl
      · exact hd
    · have hdone : (if j ∈ s.ch.recvq then { s.wtr j with done := true } else s.wtr j).done =
          true := by
        split
        · rfl
        · next hm => exact (((h j).recv hj).resolve_left hm).1
      exact ⟨hdone, .inr rfl⟩

theorem reachIf (hs : (sys S).ReachIf NoNullHandoff s) : ∀ j, Asleep s j :=
  hs.inv_of (J := Inv) (fun _ h => Inv.reach h.reach)
    (by rintro _ ⟨_, rfl⟩ _; exact ⟨by rintro ⟨⟩, by rintro ⟨⟩⟩)
    fun _ _ _ hI h hc hn j => step h hI hc hn j

end Asleep

/-! ## channels that nobody closes -/

/-- nobody closes the channel, and all sends wait -/
def Open (_ : State S) : Act S → Prop
  | .send _ _ b => b = true
  | .close => False
  | _ => True

structure Opened (s : State S) : Prop where
  closed : s.ch.closed = false
  sent : ∀ i v, s.call i ≠ .sent v false

theorem recv_closed (s : State S) (i : Nat) (block : Bool) :
    (chanRecvBody s i block).ch.closed = s.ch.closed := by
  obtain ⟨w, q, _, _, e⟩ | ⟨_, _, e⟩ | ⟨w, q, _, _, e⟩ | ⟨_, _, e⟩ | ⟨_, _, _, e⟩ :=
    recv_cases s i block <;> rw [e] <;> rfl

/-- a call goes on to a place that is no failed send -/
theorem Opened.move {s t : State S} {i : Nat} {c : Call S} (h : Opened s)
    (hcall : t.call = update s.call i c) (hc : ∀ v, c ≠ .sent v false)
    (hcl : t.ch.closed = s.ch.closed) : Opened t := by
  refine ⟨hcl.trans h.closed, fun j v => ?_⟩
  rw [hcall]
  by_cases e : j = i
  · rw [e, update_self]
    exact hc v
  · rw [update_of_ne e]
    exact h.sent j v

theorem Opened.step {s t : State S} {l : Act S} (h : Opened s) (hc : Open s l)
    (hn : next s l = some t) : Opened t := by
  obtain ⟨i, v, b, rfl, hi, rfl⟩ | ⟨i, -, hi, hd, rfl⟩ | ⟨i, b, -, hi, rfl⟩ | ⟨i, -, hi, -, rfl⟩ |
    ⟨rfl, rfl⟩ := next_cases hn
  · obtain rfl : b = true := hc
    unfold chanSendImpl
    rw [h.closed, if_neg Bool.false_ne_true]
    split
    · exact h.move (i := i) rfl (by rintro _ ⟨⟩) rfl
    · split
      · exact h.move (i := i) rfl (by rintro _ ⟨⟩) rfl
      · exact h.move (i := i) rfl (by rintro _ ⟨⟩) rfl
  · exact h.move (i := i) rfl (by rintro _ ⟨⟩) rfl
  · obtain ⟨c, hcall, hcase, -⟩ := recv_call s i b
    refine h.move hcall (fun v => ?_) (recv_closed s i b)
    rcases hcase with rfl | ⟨o, rfl⟩ <;> rintro ⟨⟩
  · obtain ⟨c, hcall, hcase, -⟩ := recvWake_call s i
    refine h.move hcall (fun v => ?_) ?_
    · rcases hcase with rfl | ⟨o, rfl⟩ <;> rintro ⟨⟩
    · obtain ⟨_, _, e⟩ | ⟨_, e⟩ | ⟨_, e⟩ := wake_cases s i <;> rw [e]
      · rfl
      · rfl
      · exact recv_closed (s.unlink i) i true
  · exact hc.elim

theorem Opened.reachIf {s : State S} (hs : (sys S).ReachIf Open s) : Opened s :=
  hs.inv (by rintro _ ⟨_, rfl⟩; exact ⟨rfl, by rintro _ _ ⟨⟩⟩) fun _ _ _ h hc hn => h.step hc hn

end Chan
end HolyPhp
