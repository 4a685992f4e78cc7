import HolyPhp.Thread.ChanInv

/-!
# The life of a blocked sender's waiter

The slow path of `chan_send_impl` allocates a `ChanWaiter`, queues it and sleeps on it; a receiver
pops it, marks it done and wakes the sender.  Here the sections of `Thread.Chan` are kept whole,
and the accesses to a waiter that two threads can interleave are steps of their own:

* the sender holds `w->mu` at `test` and `leave`, and goes `test`, `asleep`, `test`, ..., `leave`,
  `unlocked`, `free`, `gone`;
* the receiver that popped `w` still holds `ch->mu` (`busy = some (w, _)`: no other section runs)
  and goes `lock`, `signal`, `unlock`, `free`.

`frees w` counts the calls of `chan_waiter_free(w)`, `late w` records an access after the first.
Both sides free the waiter: `waiter_lifetime` says what holds of a waiter as long as no receiver
serves its sender, and of every sender that a receiver served and that returned.
-/

set_option linter.unusedVariables false

namespace HolyPhp
namespace Chan
open Function Runs State

variable {S : Type}

/-- where a send is in the slow path -/
inductive SPhase where
  /-- no waiter yet -/
  | none
  /-- holds `w->mu`, at `while (!w->done)` -/
  | test
  /-- in `pthread_cond_wait`, `w->mu` released -/
  | asleep
  /-- out of the loop, holds `w->mu` -/
  | leave
  /-- `w->mu` released, at `ok = w->done` -/
  | unlocked
  /-- at `chan_waiter_free(w)` -/
  | free
  /-- returned -/
  | gone
  deriving DecidableEq, Repr

/-- where the receiver is that popped a waiter and marked it done -/
inductive RPhase where
  | lock | signal | unlock | free
  deriving DecidableEq, Repr

structure FState (S : Type) where
  base : State S
  snd : Nat → SPhase
  busy : Option (Nat × RPhase)
  frees : Nat → Nat
  late : Nat → Bool

inductive FAct (S : Type) where
  /-- a section under `ch->mu` -/
  | sec (l : Act S)
  | sTest (i : Nat)
  /-- `pthread_cond_wait` returns, for a signal or spuriously, with `w->mu` held again -/
  | sWake (i : Nat)
  | sUnlock (i : Nat)
  | sRead (i : Nat)
  | sFree (i : Nat)
  | rLock
  | rSignal
  | rUnlock
  | rFree

namespace FState

/-- a read or write of the waiter `w` -/
def touch (s : FState S) (w : Nat) : Nat → Bool :=
  update s.late w (s.late w || decide (0 < s.frees w))

/-- `chan_waiter_free(w)` -/
def drop (s : FState S) (w : Nat) : Nat → Nat := update s.frees w (s.frees w + 1)

/-- the sender moves on, with an access to its waiter -/
def move (s : FState S) (i : Nat) (p : SPhase) : FState S :=
  { s with snd := update s.snd i p, late := s.touch i }

/-- the receiver moves on, with an access to the waiter it popped -/
def serve (s : FState S) (w : Nat) (p : RPhase) : FState S :=
  { s with busy := some (w, p), late := s.touch w }

/-- a section that led to `t` popped the sender `w`: the receiver has read and marked the waiter
and goes on to wake the sender -/
def popped (s : FState S) (t : State S) (w : Nat) : FState S :=
  { s with base := t, busy := some (w, .lock), late := s.touch w }

/-- a section that led to `t` queued the sender of the call: it walked along `next` through the
waiters, and it holds the mutex of the new one -/
def queued (s : FState S) (l : Act S) (t : State S) : FState S :=
  { s with
    base := t
    snd := match l with
      | .send i _ _ => update s.snd i .test
      | _ => s.snd
    late := fun w => s.late w || decide (w ∈ s.base.ch.sendq ∧ 0 < s.frees w) }

/-- the end of a section that led to `t` -/
def after (s : FState S) (l : Act S) (t : State S) : FState S :=
  if t.ch.sendq.length < s.base.ch.sendq.length then
    match s.base.ch.sendq with
    | w :: _ => s.popped t w
    | [] => { s with base := t }
  else if s.base.ch.sendq.length < t.ch.sendq.length then s.queued l t
  else { s with base := t }

/-- the sender frees its waiter and returns, which leads to `t` -/
def ended (s : FState S) (t : State S) (i : Nat) : FState S :=
  { s with base := t, snd := update s.snd i .gone, frees := s.drop i }

/-- the receiver frees the waiter it popped and releases `ch->mu` -/
def release (s : FState S) (w : Nat) : FState S := { s with busy := none, frees := s.drop w }

/-- `w->mu` is free: the sender is not between its lock and its unlock, the receiver neither -/
def muFree (s : FState S) (w : Nat) : Bool :=
  decide (s.snd w ≠ .test ∧ s.snd w ≠ .leave ∧ s.busy ≠ some (w, .signal) ∧
    s.busy ≠ some (w, .unlock))

end FState

open FState

def fnext (s : FState S) : FAct S → Option (FState S)
  | .sec l =>
    match s.busy, l with
    | some _, _ => none
    | none, .sendWake _ => none
    | none, l => (next s.base l).map (s.after l)
  | .sTest i =>
    if s.snd i = .test then some (s.move i (if (s.base.wtr i).done then .leave else .asleep))
    else none
  | .sWake i => if s.snd i = .asleep ∧ s.muFree i = true then some (s.move i .test) else none
  | .sUnlock i => if s.snd i = .leave then some (s.move i .unlocked) else none
  | .sRead i => if s.snd i = .unlocked then some (s.move i .free) else none
  | .sFree i =>
    if s.snd i = .free then (next s.base (.sendWake i)).map fun t => s.ended t i else none
  | .rLock =>
    match s.busy with
    | some (w, .lock) => if s.muFree w then some (s.serve w .signal) else none
    | _ => none
  | .rSignal =>
    match s.busy with
    | some (w, .signal) => some (s.serve w .unlock)
    | _ => none
  | .rUnlock =>
    match s.busy with
    | some (w, .unlock) => some (s.serve w .free)
    | _ => none
  | .rFree =>
    match s.busy with
    | some (w, .free) => some (s.release w)
    | _ => none

def fstart (cap : Int64) : FState S where
  base := start cap
  snd := fun _ => .none
  busy := none
  frees := fun _ => 0
  late := fun _ => false

def fsys (S : Type) : Sys (FState S) (FAct S) := ⟨fun s => ∃ cap, s = fstart cap, fnext⟩

/-- every waiter is freed at most once, exactly once when its send has returned, and not touched
after it was freed -/
structure WaiterOk (s : FState S) : Prop where
  at_most : ∀ i, s.frees i ≤ 1
  once : ∀ i, s.snd i = .gone → s.frees i = 1
  not_late : ∀ i, s.late i = false

/-- no receive runs while a blocked sender is queued -/
def NoServe (s : FState S) : FAct S → Prop
  | .sec (.recv _ _) => s.base.ch.sendq = []
  | .sec (.recvWake _) => s.base.ch.sendq = []
  | _ => True

/-! ## what a section does to waiters -/

/-- calls that are or were senders, and their waiters, are as before -/
def Keeps (s t : State S) : Prop :=
  ∀ j, (s.call j = .sendWait ∨ ∃ v ok, s.call j = .sent v ok) →
    t.call j = s.call j ∧ t.wtr j = s.wtr j

theorem Keeps.of_update {s t : State S} {i : Nat} {c : Call S}
    (hi : s.call i = .idle ∨ s.call i = .recvWait) (hcall : t.call = update s.call i c)
    (hw : ∀ j, j ≠ i → s.call j ≠ .recvWait → t.wtr j = s.wtr j) : Keeps s t := by
  intro j hj
  have hne : j ≠ i := by
    intro he
    subst he
    rcases hi with e | e <;> rw [e] at hj <;> rcases hj with e' | ⟨v, ok, e'⟩ <;> cases e'
  refine ⟨by rw [hcall, update_of_ne hne], hw j hne ?_⟩
  rcases hj with e | ⟨v, ok, e⟩ <;> rw [e] <;> simp

/-- a section that leaves `sendq` alone -/
def Quiet (s t : State S) : Prop :=
  t.ch.sendq = s.ch.sendq ∧ (∀ j, t.call j = .sendWait → s.call j = .sendWait) ∧ Keeps s t

/-- a section that popped the sender `w` -/
def Popped (s t : State S) : Prop :=
  ∃ i w q c, s.ch.sendq = w :: q ∧ t.ch.sendq = q ∧ (s.call i = .idle ∨ s.call i = .recvWait) ∧
    c ≠ .sendWait ∧ t.call = update s.call i c ∧ t.wtr = s.wake w

theorem Quiet.of_update {s t : State S} {i : Nat} {c : Call S} (hc : c ≠ .sendWait)
    (hq : t.ch.sendq = s.ch.sendq) (hi : s.call i = .idle ∨ s.call i = .recvWait)
    (hcall : t.call = update s.call i c)
    (hw : ∀ j, j ≠ i → s.call j ≠ .recvWait → t.wtr j = s.wtr j) : Quiet s t := by
  refine ⟨hq, fun j hj => ?_, Keeps.of_update hi hcall hw⟩
  by_cases e : j = i
  · rw [hcall, e, update_self] at hj
    exact absurd hj hc
  · rwa [hcall, update_of_ne e] at hj

theorem recvBody_effect (s : State S) {i : Nat} (hi : s.call i = .idle ∨ s.call i = .recvWait)
    (block : Bool) :
    Quiet s (chanRecvBody s i block) ∨ Popped s (chanRecvBody s i block) := by
  obtain ⟨w, q, _, hq, e⟩ | ⟨_, hq, e⟩ | ⟨w, q, _, hq, e⟩ | ⟨_, _, e⟩ | ⟨_, _, _, e⟩ :=
    recv_cases s i block <;> rw [e]
  · exact .inr ⟨i, w, q, _, hq, rfl, hi, by simp, rfl, rfl⟩
  · exact .inl (Quiet.of_update (by simp) rfl hi rfl fun _ _ _ => rfl)
  · exact .inr ⟨i, w, q, _, hq, rfl, hi, by simp, rfl, rfl⟩
  · exact .inl (Quiet.of_update (by simp) rfl hi rfl fun _ _ _ => rfl)
  · exact .inl (Quiet.of_update (by simp) rfl hi rfl fun j hj _ => update_of_ne hj ..)

theorem section_effect {s t : State S} {l : Act S} (hI : Inv s) (hn : next s l = some t)
    (hl : ∀ i, l ≠ .sendWake i) :
    Quiet s t ∨
    (∃ i v b, l = .send i v b ∧ s.call i = .idle ∧ t.ch.sendq = s.ch.sendq ++ [i] ∧
      t.call = update s.call i .sendWait ∧ t.wtr = update s.wtr i ⟨v, false⟩) ∨
    ((l = .close → False) ∧ (∀ i v b, l ≠ .send i v b) ∧ Popped s t) := by
  obtain ⟨i, v, b, rfl, hi, rfl⟩ | ⟨i, rfl, -⟩ | ⟨i, b, rfl, hi, rfl⟩ | ⟨i, rfl, hi, -, rfl⟩ |
    ⟨rfl, rfl⟩ := next_cases hn
  · obtain e | ⟨r, q, _, hq, e⟩ | ⟨_, _, e⟩ | ⟨_, _, e⟩ := send_cases s i v b <;> rw [e]
    · exact .inl (Quiet.of_update (by simp) rfl (.inl hi) rfl fun _ _ _ => rfl)
    · refine .inl (Quiet.of_update (by simp) rfl (.inl hi) rfl fun j _ hj => ?_)
      refine update_of_ne ?_ ..
      intro he
      subst he
      exact hj (hI.recvq_wait j (by rw [hq]; exact List.mem_cons_self)).1
    · exact .inl (Quiet.of_update (by simp) rfl (.inl hi) rfl fun _ _ _ => rfl)
    · exact .inr (.inl ⟨i, v, b, rfl, hi, rfl, rfl, rfl⟩)
  · exact absurd rfl (hl i)
  · rcases recvBody_effect s (.inl hi) b with h | h
    · exact .inl h
    · exact .inr (.inr ⟨by simp, by simp, h⟩)
  · obtain ⟨_, _, e⟩ | ⟨_, e⟩ | ⟨_, e⟩ := wake_cases s i <;> rw [e]
    · exact .inl (Quiet.of_update (by simp) rfl (.inr hi) rfl fun _ _ _ => rfl)
    · exact .inl (Quiet.of_update (by simp) rfl (.inr hi) rfl fun _ _ _ => rfl)
    · rcases recvBody_effect (s.unlink i) (.inr hi) true with h | h
      · exact .inl h
      · exact .inr (.inr ⟨by simp, by simp, h⟩)
  · refine .inl ⟨rfl, fun j hj => hj, fun j hj => ⟨rfl, ?_⟩⟩
    apply if_neg
    intro hm
    rw [(hI.recvq_wait j hm).1] at hj
    rcases hj with e | ⟨v, ok, e⟩ <;> cases e

/-- the waiters after a section -/
inductive Sec (s : FState S) (t : State S) : Act S → FState S → Prop
  | quiet (l : Act S) : Quiet s.base t → Sec s t l { s with base := t }
  | queued (i : Nat) (v : HVal S) (b : Bool) : s.base.call i = .idle →
      t.call = update s.base.call i .sendWait → t.wtr = update s.base.wtr i ⟨v, false⟩ →
      Sec s t (.send i v b) (FState.queued s (.send i v b) t)
  | popped (l : Act S) (w : Nat) (q : List Nat) : s.base.ch.sendq = w :: q →
      (∃ i b, l = .recv i b ∨ l = .recvWake i) → Popped s.base t → Sec s t l (s.popped t w)

theorem sec_cases {s f : FState S} {l : Act S} (hI : Inv s.base)
    (hn : fnext s (.sec l) = some f) :
    s.busy = none ∧ ∃ t, next s.base l = some t ∧ Sec s t l f := by
  simp only [fnext] at hn
  cases hb : s.busy with
  | some x => rw [hb] at hn; cases hn
  | none =>
    rw [hb] at hn
    have hl : ∀ i, l ≠ .sendWake i := by
      rintro i rfl
      cases hn
    have hn' : (next s.base l).map (s.after l) = some f := by
      cases l with
      | sendWake i => exact absurd rfl (hl i)
      | send _ _ _ | recv _ _ | recvWake _ | close => exact hn
    obtain ⟨t, ht, rfl⟩ := Option.map_eq_some_iff.mp hn'
    refine ⟨rfl, t, ht, ?_⟩
    unfold after
    obtain h | ⟨i, v, b, rfl, hi, hq, hc, hw⟩ | ⟨hcl, hs, h⟩ := section_effect hI ht hl
    · rw [h.1, if_neg (Nat.lt_irrefl _), if_neg (Nat.lt_irrefl _)]
      exact .quiet l h
    · rw [hq, List.length_append, if_neg (by simp), if_pos (by simp)]
      exact .queued i v b hi hc hw
    · obtain ⟨i, w, q, c, hq, hq', -⟩ := id h
      rw [hq, hq', if_pos (by simp)]
      refine .popped l w q hq ?_ h
      cases l with
      | close => exact absurd rfl hcl
      | send i v b => exact absurd rfl (hs i v b)
      | sendWake i => exact absurd rfl (hl i)
      | recv i b => exact ⟨i, b, .inl rfl⟩
      | recvWake i => exact ⟨i, true, .inr rfl⟩

/-- in the slow path, before the return -/
def SPhase.inside (p : SPhase) : Prop := p ≠ .none ∧ p ≠ .gone

/-- out of the waiting loop -/
def SPhase.past (p : SPhase) : Prop := p = .leave ∨ p = .unlocked ∨ p = .free ∨ p = .gone

/-- what a step outside the sections is -/
inductive Out (s : FState S) : FState S → Prop
  /-- a sender moves on; past the loop its waiter is done -/
  | move (i : Nat) (p : SPhase) : (s.snd i).inside → p.inside →
      (p.past → (s.base.wtr i).done = true ∨ (s.snd i).past) → Out s (s.move i p)
  /-- a sender returns -/
  | ret (i : Nat) : s.snd i = .free → s.base.call i = .sendWait →
      (s.base.wtr i).done = true →
      Out s (s.ended (s.base.ret i (.sent (s.base.wtr i).value true)) i)
  | serve (w : Nat) (p p' : RPhase) : s.busy = some (w, p) → Out s (s.serve w p')
  | release (w : Nat) : s.busy = some (w, .free) → Out s (s.release w)

theorem out_cases {s f : FState S} {a : FAct S} (ha : ∀ l, a ≠ .sec l)
    (h : fnext s a = some f) : Out s f := by
  cases a with
  | sec l => exact absurd rfl (ha l)
  | sTest i =>
    simp only [fnext] at h
    split at h
    · rename_i hi
      cases h
      refine .move i _ (by rw [hi]; simp [SPhase.inside]) ?_ fun hp => ?_
      · split <;> simp [SPhase.inside]
      · refine .inl (by_contra fun hd => ?_)
        rw [if_neg hd] at hp
        simp [SPhase.past] at hp
    · cases h
  | sWake i =>
    simp only [fnext] at h
    split at h
    · rename_i hi
      cases h
      exact .move i _ (by rw [hi.1]; simp [SPhase.inside]) (by simp [SPhase.inside])
        (by simp [SPhase.past])
    · cases h
  | sUnlock i | sRead i =>
    simp only [fnext] at h
    split at h
    · rename_i hi
      cases h
      exact .move i _ (by rw [hi]; simp [SPhase.inside]) (by simp [SPhase.inside])
        fun _ => .inr (by rw [hi]; simp [SPhase.past])
    · cases h
  | sFree i =>
    simp only [fnext] at h
    split at h
    · rename_i hi
      obtain ⟨t, ht, rfl⟩ := Option.map_eq_some_iff.mp h
      obtain ⟨i', v, b, e, -⟩ | ⟨i', e, hc, hd, rfl⟩ | ⟨i', b, e, -⟩ | ⟨i', e, -⟩ | ⟨e, -⟩ :=
        next_cases ht <;> cases e
      exact .ret i hi hc hd
    · cases h
  | rLock =>
    simp only [fnext] at h
    split at h
    · rename_i w hb
      split at h
      · cases h
        exact .serve w _ _ hb
      · cases h
    · cases h
  | rSignal | rUnlock =>
    simp only [fnext] at h
    split at h
    · rename_i w hb
      cases h
      exact .serve w _ _ hb
    · cases h
  | rFree =>
    simp only [fnext] at h
    split at h
    · rename_i w hb
      cases h
      exact .release w hb
    · cases h

/-! ## the fine system runs the channel -/

theorem base_step {s f : FState S} {a : FAct S} (h : fnext s a = some f) :
    f.base = s.base ∨ ∃ l, next s.base l = some f.base := by
  by_cases ha : ∃ l, a = .sec l
  · obtain ⟨l, rfl⟩ := ha
    simp only [fnext] at h
    split at h
    · cases h
    · cases h
    · obtain ⟨t, ht, rfl⟩ := Option.map_eq_some_iff.mp h
      refine .inr ⟨_, ht.trans (congrArg some ?_)⟩
      unfold after
      split_ifs
      · split <;> rfl
      · rfl
      · rfl
  · push Not at ha
    cases out_cases ha h with
    | move | serve | release => exact .inl rfl
    | ret i hi hc hd => exact .inr ⟨.sendWake i, by
        simp only [next, hc, hd, chanSendWake]
        rfl⟩

theorem base_inv {s : FState S} (hs : (fsys S).Reach s) : Inv s.base := by
  refine Inv.reach (Sys.ReachIf.sim (T := sys S) FState.base ?_ ?_ hs)
  · intro t h0
    obtain ⟨cap, rfl⟩ := h0
    exact ⟨cap, rfl⟩
  · intro s a f _ h
    rcases base_step h with heq | hl
    · exact .inl heq
    · obtain ⟨l, hl⟩ := hl
      exact .inr ⟨l, trivial, hl⟩

/-! ## as long as nobody serves -/

section
variable {s f : FState S} {t : State S} {a : FAct S} {l : Act S} {i w : Nat}

structure Unserved (s : FState S) : Prop where
  busy : s.busy = none
  waits : ∀ i, s.snd i ≠ .none →
    ¬ (s.snd i).past ∧ s.base.call i = .sendWait ∧ (s.base.wtr i).done = false
  frees : ∀ i, s.frees i = 0
  late : ∀ i, s.late i = false

theorem touch_fresh (hf : s.frees w = 0) (hl : ∀ j, s.late j = false) (j : Nat) :
    s.touch w j = false := by
  unfold touch
  by_cases e : j = w
  · rw [e, update_self, hl, hf]
    rfl
  · rw [update_of_ne e, hl]

namespace Unserved

/-- a section that serves nobody -/
theorem sec (h : Unserved s) (hc : NoServe s (.sec l)) (hs : Sec s t l f) : Unserved f := by
  cases hs with
  | quiet _ hq =>
    refine ⟨h.busy, fun j hj => ?_, h.frees, h.late⟩
    obtain ⟨hp, hcall, hd⟩ := h.waits j hj
    obtain ⟨ec, ew⟩ := hq.2.2 j (.inl hcall)
    exact ⟨hp, ec.trans hcall, by rw [ew]; exact hd⟩
  | queued i v b hi hcall hw =>
    refine ⟨h.busy, fun j hj => ?_, h.frees, fun j => ?_⟩
    · show ¬ (update s.snd i .test j).past ∧ t.call j = _ ∧ (t.wtr j).done = _
      rw [hcall, hw]
      by_cases e : j = i
      · rw [e, update_self, update_self, update_self]
        exact ⟨by simp [SPhase.past], rfl, rfl⟩
      · rw [update_of_ne e, update_of_ne e, update_of_ne e]
        exact h.waits j (by rwa [show (FState.queued s _ t).snd = update s.snd i .test from rfl,
          update_of_ne e] at hj)
    · show (s.late j || decide (_ ∧ 0 < s.frees j)) = false
      rw [h.late, h.frees]
      simp
  | popped _ w q hq hl _ =>
    obtain ⟨i, b, rfl | rfl⟩ := hl <;> exact absurd (hq.symm.trans hc) (List.cons_ne_nil _ _)

theorem out (h : Unserved s) (ho : Out s f) : Unserved f := by
  cases ho with
  | move i p hi hp hd =>
    have hne : s.snd i ≠ .none := hi.1
    refine ⟨h.busy, fun j hj => ?_, h.frees, touch_fresh (h.frees i) h.late⟩
    show ¬ (update s.snd i p j).past ∧ _
    by_cases e : j = i
    · rw [e, update_self]
      refine ⟨fun hpast => ?_, (h.waits i hne).2⟩
      rcases hd hpast with hdone | hpast'
      · exact Bool.false_ne_true ((h.waits i hne).2.2.symm.trans hdone)
      · exact (h.waits i hne).1 hpast'
    · rw [update_of_ne e]
      exact h.waits j (by rwa [show (s.move i p).snd = update s.snd i p from rfl,
        update_of_ne e] at hj)
  | ret i hi _ _ =>
    have hpast := (h.waits i (by rw [hi]; simp)).1
    rw [hi] at hpast
    exact absurd (.inr (.inr (.inl rfl))) hpast
  | serve w p p' hb => exact absurd (h.busy.symm.trans hb) (by simp)
  | release w hb => exact absurd (h.busy.symm.trans hb) (by simp)

theorem reach (hs : (fsys S).ReachIf NoServe s) : Unserved s := by
  refine hs.inv_of (J := fun s => Inv s.base) (fun s hs => base_inv hs.reach) ?_ ?_
  · intro s h0
    obtain ⟨cap, rfl⟩ := h0
    exact ⟨rfl, fun i hi => absurd rfl hi, fun _ => rfl, fun _ => rfl⟩
  · intro s a f hI h hc hn
    by_cases ha : ∃ l, a = .sec l
    · obtain ⟨l, rfl⟩ := ha
      obtain ⟨-, t, -, hsec⟩ := sec_cases hI hn
      exact h.sec hc hsec
    · exact h.out (out_cases (fun l e => ha ⟨l, e⟩) hn)

end Unserved

/-! ## a served sender -/

/-- the waiter that the receiver inside a section popped -/
def FState.holds (s : FState S) : Option Nat := s.busy.map Prod.fst

/-- the receiver that popped the waiter of `i` is through with it -/
def Served (s : FState S) (i : Nat) : Prop :=
  s.snd i ≠ .none ∧ (s.base.wtr i).done = true ∧ s.holds ≠ some i

instance (s : FState S) (i : Nat) : Decidable (Served s i) :=
  inferInstanceAs (Decidable (_ ∧ _ ∧ _))

/-- the calls of `chan_waiter_free` so far: one by the sender, one by the receiver -/
def freed (s : FState S) (i : Nat) : Nat :=
  (if s.snd i = .gone then 1 else 0) + if Served s i then 1 else 0

structure Counted (s : FState S) : Prop where
  waits : ∀ i, s.snd i ≠ .none →
    s.base.call i = .sendWait ∨ ∃ v ok, s.base.call i = .sent v ok
  asleep : ∀ i, s.base.call i = .sendWait → s.snd i ≠ .none
  past : ∀ i, (s.snd i).past → (s.base.wtr i).done = true
  busy : ∀ i, s.holds = some i → s.snd i ≠ .none ∧ (s.base.wtr i).done = true
  frees : ∀ i, s.frees i = freed s i

theorem freed_congr (hs : f.snd i = s.snd i)
    (hd : s.snd i ≠ .none → (f.base.wtr i).done = (s.base.wtr i).done)
    (hb : f.holds = some i ↔ s.holds = some i) : freed f i = freed s i := by
  have hserved : Served f i ↔ Served s i := by
    unfold Served
    rw [hs]
    apply and_congr_right
    intro hne
    rw [hd hne]
    exact and_congr_right fun _ => not_congr hb
  unfold freed
  rw [hs, if_congr hserved rfl rfl]

theorem freed_none (h : s.snd i = .none) : freed s i = 0 := by
  unfold freed
  rw [h, if_neg (by simp), if_neg fun hs => hs.1 h]

namespace Counted

/-- a section that leaves the waiters of all senders alone -/
theorem quiet (h : Counted s) (hb : s.busy = none) (hq : Quiet s.base t) :
    Counted { s with base := t } := by
  have hkeep : ∀ j, s.snd j ≠ .none → t.call j = s.base.call j ∧ t.wtr j = s.base.wtr j :=
    fun j hj => hq.2.2 j (h.waits j hj)
  refine ⟨fun j hj => ?_, fun j hj => h.asleep j (hq.2.1 j hj), fun j hj => ?_, fun j hj => ?_,
    fun j => ?_⟩
  · show t.call j = _ ∨ _
    rw [(hkeep j hj).1]
    exact h.waits j hj
  · have hne : s.snd j ≠ .none := by
      intro e
      simp [SPhase.past, e] at hj
    show (t.wtr j).done = true
    rw [(hkeep j hne).2]
    exact h.past j hj
  · obtain ⟨hne, hd⟩ := h.busy j hj
    exact ⟨hne, by rw [show _ = s.base.wtr j from (hkeep j hne).2]; exact hd⟩
  · refine (h.frees j).trans (Eq.symm (freed_congr ?_ (fun hne => ?_) ?_))
    · rfl
    · exact congrArg ChanWaiter.done (hkeep j hne).2
    · exact Iff.rfl

/-- a section that queues the sender `i` -/
theorem queued (h : Counted s) (hb : s.busy = none) {v : HVal S} {b : Bool}
    (hi : s.base.call i = .idle) (hcall : t.call = update s.base.call i .sendWait)
    (hw : t.wtr = update s.base.wtr i ⟨v, false⟩) :
    Counted (FState.queued s (.send i v b) t) := by
  have hsi : s.snd i = .none := by
    by_contra hne
    rcases h.waits i hne with e | ⟨v, ok, e⟩ <;> rw [hi] at e <;> cases e
  have hsnd : (FState.queued s (.send i v b) t).snd = update s.snd i .test := rfl
  have hhold : (FState.queued s (.send i v b) t).holds = none := by
    show s.busy.map Prod.fst = none
    rw [hb]
    rfl
  refine ⟨fun j hj => ?_, fun j hj => ?_, fun j hj => ?_, fun j hj => ?_, fun j => ?_⟩
  · show t.call j = _ ∨ ∃ v ok, t.call j = _
    rw [hcall]
    by_cases e : j = i
    · exact .inl (by rw [e, update_self])
    · rw [update_of_ne e]
      exact h.waits j (by rwa [hsnd, update_of_ne e] at hj)
  · rw [hsnd]
    by_cases e : j = i
    · rw [e, update_self]
      simp
    · rw [update_of_ne e]
      exact h.asleep j (by rwa [show (FState.queued s _ t).base.call = _ from hcall,
        update_of_ne e] at hj)
  · show (t.wtr j).done = true
    rw [hsnd] at hj
    by_cases e : j = i
    · rw [e, update_self] at hj
      simp [SPhase.past] at hj
    · rw [update_of_ne e] at hj
      rw [hw, update_of_ne e]
      exact h.past j hj
  · rw [hhold] at hj
    cases hj
  · by_cases e : j = i
    · have h0 : s.frees i = 0 := (h.frees i).trans (freed_none hsi)
      have hd : ((FState.queued s (.send i v b) t).base.wtr i).done = false := by
        rw [show (FState.queued s (.send i v b) t).base.wtr = _ from hw, update_self]
      show s.frees j = _
      rw [e, h0, freed, hsnd, update_self, if_neg (by simp), if_neg fun hs : Served _ i =>
        Bool.false_ne_true (hd.symm.trans hs.2.1)]
    · refine (h.frees j).trans (freed_congr ?_ (fun _ => ?_) ?_).symm
      · rw [hsnd, update_of_ne e]
      · rw [show (FState.queued s (.send i v b) t).base.wtr = _ from hw, update_of_ne e]
      · exact Iff.rfl

/-- a section that pops the sender `w` -/
theorem popped (h : Counted s) (hI : Inv s.base) (hb : s.busy = none) {q : List Nat}
    (hq : s.base.ch.sendq = w :: q) (hp : Popped s.base t) : Counted (s.popped t w) := by
  obtain ⟨i, w', q', c, hq', -, hi, hc, hcall, hw⟩ := hp
  obtain ⟨rfl, rfl⟩ : w = w' ∧ q = q' := List.cons.inj (hq.symm.trans hq')
  obtain ⟨hwc, hwd⟩ := hI.sendq_wait w (by rw [hq]; exact List.mem_cons_self)
  have hne : ∀ j, s.snd j ≠ .none → j ≠ i := by
    rintro j hj rfl
    rcases h.waits j hj with e | ⟨v, ok, e⟩ <;> rcases hi with e' | e' <;> rw [e'] at e <;> cases e
  have hdone : ∀ j, (s.base.wtr j).done = true ∨ j = w → (t.wtr j).done = true := by
    intro j hj
    rw [hw]
    unfold wake
    by_cases e : j = w
    · rw [e, update_self]
    · rw [update_of_ne e]
      exact hj.resolve_right e
  refine ⟨fun j hj => ?_, fun j hj => ?_, fun j hj => hdone j (.inl (h.past j hj)),
    fun j hj => ?_, fun j => ?_⟩
  · show t.call j = _ ∨ ∃ v ok, t.call j = _
    rw [hcall, update_of_ne (hne j hj)]
    exact h.waits j hj
  · apply h.asleep j
    rw [show (s.popped t w).base.call = _ from hcall] at hj
    by_cases e : j = i
    · rw [e, update_self] at hj
      exact absurd hj hc
    · rwa [update_of_ne e] at hj
  · obtain rfl : w = j := Option.some.inj hj
    exact ⟨h.asleep w hwc, hdone w (.inr rfl)⟩
  · refine (h.frees j).trans ?_
    by_cases e : j = w
    · -- the receiver goes on to wake it: not served yet
      unfold freed
      rw [e, if_neg fun hs : Served s w => Bool.false_ne_true (hwd.symm.trans hs.2.1),
        if_neg fun hs : Served (s.popped t w) w => hs.2.2 rfl]
      rfl
    · refine Eq.symm (freed_congr ?_ (fun _ => ?_) ?_)
      · rfl
      · show (t.wtr j).done = _
        rw [hw]
        exact congrArg ChanWaiter.done (update_of_ne e ..)
      · show some w = some j ↔ s.busy.map Prod.fst = some j
        rw [hb]
        exact iff_of_false (fun e' => e (Option.some.inj e').symm) (by simp)

theorem move (h : Counted s) {p : SPhase} (hi : (s.snd i).inside) (hp : p.inside)
    (hd : p.past → (s.base.wtr i).done = true ∨ (s.snd i).past) : Counted (s.move i p) := by
  have hsnd : (s.move i p).snd = update s.snd i p := rfl
  have hnone : ∀ j, (s.move i p).snd j ≠ .none ↔ s.snd j ≠ .none := by
    intro j
    rw [hsnd]
    by_cases e : j = i
    · rw [e, update_self]
      exact iff_of_true hp.1 hi.1
    · rw [update_of_ne e]
  refine ⟨fun j hj => h.waits j ((hnone j).mp hj), fun j hj => (hnone j).mpr (h.asleep j hj),
    fun j hj => ?_, fun j hj => ⟨(hnone j).mpr (h.busy j hj).1, (h.busy j hj).2⟩, fun j => ?_⟩
  · rw [hsnd] at hj
    by_cases e : j = i
    · rw [e, update_self] at hj
      rw [e]
      exact (hd hj).elim id (h.past i)
    · rw [update_of_ne e] at hj
      exact h.past j hj
  · refine (h.frees j).trans ?_
    have hgone : (s.move i p).snd j = .gone ↔ s.snd j = .gone := by
      rw [hsnd]
      by_cases e : j = i
      · rw [e, update_self]
        exact iff_of_false hp.2 hi.2
      · rw [update_of_ne e]
    have hserved : Served (s.move i p) j ↔ Served s j := and_congr_left' (hnone j)
    unfold freed
    rw [if_congr hgone.symm rfl rfl, if_congr hserved.symm rfl rfl]

theorem ended (h : Counted s) (hi : s.snd i = .free) (hd : (s.base.wtr i).done = true)
    (v : HVal S) : Counted (s.ended (s.base.ret i (.sent v true)) i) := by
  have hsnd : (s.ended (s.base.ret i (.sent v true)) i).snd = update s.snd i .gone := rfl
  have hcall : (s.ended (s.base.ret i (.sent v true)) i).base.call =
    update s.base.call i (.sent v true) := rfl
  have hne : s.snd i ≠ .none := by
    rw [hi]
    simp
  have hnone : ∀ j, (s.ended (s.base.ret i (.sent v true)) i).snd j ≠ .none ↔
      s.snd j ≠ .none := by
    intro j
    rw [hsnd]
    by_cases e : j = i
    · rw [e, update_self]
      exact iff_of_true (by simp) hne
    · rw [update_of_ne e]
  refine ⟨fun j hj => ?_, fun j hj => (hnone j).mpr ?_, fun j hj => ?_,
    fun j hj => ⟨(hnone j).mpr (h.busy j hj).1, (h.busy j hj).2⟩, fun j => ?_⟩
  · rw [hcall]
    by_cases e : j = i
    · exact .inr ⟨v, true, by rw [e, update_self]⟩
    · rw [update_of_ne e]
      exact h.waits j ((hnone j).mp hj)
  · rw [hcall] at hj
    by_cases e : j = i
    · rwa [e]
    · rw [update_of_ne e] at hj
      exact h.asleep j hj
  · by_cases e : j = i
    · rwa [e]
    · rw [hsnd, update_of_ne e] at hj
      exact h.past j hj
  · show update s.frees i (s.frees i + 1) j = _
    by_cases e : j = i
    · have hserved : Served (s.ended (s.base.ret i (.sent v true)) i) i ↔ Served s i :=
        and_congr_left' (hnone i)
      rw [e, update_self, h.frees i, freed, freed, hsnd, update_self, hi, if_congr hserved rfl rfl,
        if_neg (by simp), if_pos rfl]
      omega
    · rw [update_of_ne e, h.frees j]
      refine Eq.symm (freed_congr ?_ (fun _ => rfl) Iff.rfl)
      rw [hsnd, update_of_ne e]

theorem release (h : Counted s) (hb : s.busy = some (w, .free)) : Counted (s.release w) := by
  have hhold : s.holds = some w := by rw [FState.holds, hb]; rfl
  have hfree : (s.release w).holds = none := rfl
  obtain ⟨hne, hd⟩ := h.busy w hhold
  refine ⟨h.waits, h.asleep, h.past, fun j hj => ?_, fun j => ?_⟩
  · rw [hfree] at hj
    cases hj
  · show update s.frees w (s.frees w + 1) j = _
    by_cases e : j = w
    · have hserved : Served (s.release w) w := ⟨hne, hd, by rw [hfree]; simp⟩
      rw [e, update_self, h.frees w, freed, if_neg fun hs : Served s w => hs.2.2 hhold, freed,
        if_pos hserved]
      rfl
    · rw [update_of_ne e, h.frees j]
      refine Eq.symm (freed_congr rfl (fun _ => rfl) ?_)
      rw [hhold, hfree]
      exact iff_of_false (by simp) fun e' => e (Option.some.inj e').symm

theorem reach (hs : (fsys S).Reach s) : Counted s := by
  refine Sys.ReachIf.inv_of (J := fun s => Inv s.base) (fun s hs => base_inv hs) ?_ ?_ hs
  · intro s h0
    obtain ⟨cap, rfl⟩ := h0
    refine ⟨fun i hi => absurd rfl hi, fun i hi => ?_, fun i hi => ?_, fun i hi => ?_, fun i => ?_⟩
    · cases hi
    · simp [SPhase.past, fstart] at hi
    · cases hi
    · rfl
  · intro s a f hI h _ hn
    by_cases ha : ∃ l, a = .sec l
    · obtain ⟨l, rfl⟩ := ha
      obtain ⟨hb, t, -, hsec⟩ := sec_cases hI hn
      cases hsec with
      | quiet _ hq => exact h.quiet hb hq
      | queued i v b hi hcall hw => exact h.queued hb hi hcall hw
      | popped _ w q hq _ hp => exact h.popped hI hb hq hp
    · cases out_cases (fun l e => ha ⟨l, e⟩) hn with
      | move i p hi hp hd => exact h.move hi hp hd
      | ret i hi hc hd => exact h.ended hi hd _
      | serve w p p' hb =>
        have hh : (s.serve w p').holds = s.holds := by rw [FState.holds, FState.holds, hb]; rfl
        refine ⟨h.waits, h.asleep, h.past, fun j hj => h.busy j (hh ▸ hj), fun j => ?_⟩
        exact (h.frees j).trans (Eq.symm (freed_congr rfl (fun _ => rfl) (by rw [hh])))
      | release w hb => exact h.release hb

end Counted

/-- **The life of a waiter.**  As long as no receive serves a blocked sender, waiters are safe.  A
waiter that a receiver served was freed twice when the sender has returned and the receiver has
released `ch->mu`. -/
theorem waiter_lifetime (s : FState S) : ((fsys S).ReachIf NoServe s → WaiterOk s) ∧
    ((fsys S).Reach s → ∀ i, s.snd i = .gone → s.holds ≠ some i → s.frees i = 2) := by
  constructor
  · intro hs
    have h := Unserved.reach hs
    refine ⟨fun i => (h.frees i).trans_le (Nat.zero_le 1), fun i hi => ?_, h.late⟩
    refine absurd (.inr (.inr (.inr hi))) (h.waits i ?_).1
    rw [hi]
    simp
  · intro hs i hi hb
    have h := Counted.reach hs
    have hserved : Served s i := ⟨by rw [hi]; simp, h.past i (.inr (.inr (.inr hi))), hb⟩
    rw [h.frees i, freed, if_pos hi, if_pos hserved]

/-- a sender blocks on a channel without buffer, a receiver takes its value and wakes it; both
free the waiter -/
def servedRun : List (FAct Bytes) :=
  [.sec (.send 0 (.int 7) true), .sTest 0, .sec (.recv 1 true), .rLock, .rSignal, .rUnlock, .rFree,
    .sWake 0, .sTest 0, .sUnlock 0, .sRead 0, .sFree 0]

/-- where that run ends -/
def servedEnd : FState Bytes := ((fsys Bytes).run (fstart 0) servedRun).getD (fstart 0)

theorem servedEnd_reach : (fsys Bytes).Reach servedEnd := by
  have hrun : (fsys Bytes).run (fstart 0) servedRun = some servedEnd := rfl
  exact (Sys.Reach.init ⟨0, rfl⟩ : (fsys Bytes).Reach (fstart 0)).run hrun

/-- the sender alone, and the whole run -/
theorem waiter_lifetime_seven :
    WaiterOk (FState.queued (fstart 0) (.send 0 (.int 7) true)
      (chanSendImpl (start 0 : State Bytes) 0 (.int 7) true)) ∧ servedEnd.frees 0 = 2 :=
  ⟨(waiter_lifetime _).1 ((Sys.ReachIf.init ⟨0, rfl⟩ :
    (fsys Bytes).ReachIf NoServe (fstart 0)).step (l := .sec (.send 0 (.int 7) true)) trivial rfl),
    (waiter_lifetime _).2 servedEnd_reach 0 rfl (by decide)⟩

theorem waiterOk_fails : ¬ ∀ s : FState Bytes, (fsys Bytes).Reach s → WaiterOk s := by
  intro h
  have h2 : servedEnd.frees 0 = 2 := rfl
  have h1 := (h servedEnd servedEnd_reach).at_most 0
  omega

end

end Chan
end HolyPhp
