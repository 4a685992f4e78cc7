import Mathlib.Data.List.Nodup
import HolyPhp.Lib.Runs
import HolyPhp.Runtime.Value

/-!
# Barriers: `hpbi_barrier_new`, `hpbi_barrier_wait`

One barrier and any number of calls on it, each with a number of its own.  `State.hist` is a
history, not in the code: the calls in the order of their arrivals.  With `n = need`, the call at
position `p` arrived in round `p / n`, as number `p % n` of the round.

* `hpbiBarrierWait s i`  the section of an arrival, up to its return or its sleep;
* `waitLoop s i r k`     a sleeper tests the condition of its loop (for a broadcast or for a
                         spurious wake-up) with its locals `round = r`, `idx = k`;
* `Inv`                  the record is a function of the number of arrivals;
* `BarrierSafe`          returns, counts and indices of the rounds.

The members of `BarRec` are `size_t`: `round` is the number of completed rounds modulo `2 ^ 64`.
-/

set_option linter.unusedVariables false

namespace HolyPhp
namespace Barrier
open Function Runs

structure BarRec where
  need : Nat
  seen : Nat
  round : Nat
  deriving DecidableEq, Repr

/-- where a call of `hpbi_barrier_wait` stands -/
inductive Call where
  | idle
  /-- in the loop, with the locals `round` and `idx` -/
  | waiting (round idx : Nat)
  | returned (v : Int64)
  deriving DecidableEq

structure State where
  b : BarRec
  call : Nat → Call
  hist : List Nat

def hpbiBarrierNew (n : HVal Bytes) : BarRec :=
  let need := if hpValToInt n < 1 then 1 else hpValToInt n
  { need := need.toInt.toNat, seen := 0, round := 0 }

/-- the condition of the waiting loop -/
def blocked (b : BarRec) (round : Nat) : Prop := round = b.round ∧ b.seen ≠ 0

instance (b : BarRec) (round : Nat) : Decidable (blocked b round) :=
  inferInstanceAs (Decidable (_ ∧ _))

/-- `while (round == b->round && b->seen != 0) pthread_cond_wait(..)`, one test -/
def waitLoop (s : State) (i round idx : Nat) : State :=
  { s with
    call := update s.call i
      (if blocked s.b round then .waiting round idx else .returned (Int64.ofNat idx)) }

/-- `idx = b->seen++` -/
def State.enter (s : State) (i : Nat) : State :=
  { s with b := { s.b with seen := (s.b.seen + 1) % 2 ^ 64 }, hist := s.hist ++ [i] }

/-- the last arrival: release everyone -/
def State.release (s : State) (i : Nat) : State :=
  { s with
    b := { s.b with seen := 0, round := (s.b.round + 1) % 2 ^ 64 }
    call := update s.call i (.returned (Int64.ofNat (s.b.need - 1))) }

def hpbiBarrierWait (s : State) (i : Nat) : State :=
  let round := s.b.round
  let idx := s.b.seen
  if (s.enter i).b.seen = s.b.need then (s.enter i).release i
  else waitLoop (s.enter i) i round idx

inductive Act where
  | arrive (i : Nat)
  | wake (i : Nat)

def next (s : State) : Act → Option State
  | .arrive i =>
    match s.call i with
    | .idle => some (hpbiBarrierWait s i)
    | _ => none
  | .wake i =>
    match s.call i with
    | .waiting round idx => some (waitLoop s i round idx)
    | _ => none

def start (n : HVal Bytes) : State := ⟨hpbiBarrierNew n, fun _ => .idle, []⟩

def sys : Sys State Act := ⟨fun s => ∃ n, s = start n, next⟩

theorem next_cases {s t : State} {a : Act} (h : next s a = some t) :
    (∃ i, s.call i = .idle ∧ t = hpbiBarrierWait s i) ∨
    (∃ i round idx, s.call i = .waiting round idx ∧ t = waitLoop s i round idx) := by
  cases a with
  | arrive i =>
    simp only [next] at h
    split at h
    · exact .inl ⟨i, by assumption, (Option.some.inj h).symm⟩
    · cases h
  | wake i =>
    simp only [next] at h
    split at h
    · exact .inr ⟨i, _, _, by assumption, (Option.some.inj h).symm⟩
    · cases h

/-- what an arrival leaves to the other calls -/
theorem wait_frame (s : State) (i : Nat) : (hpbiBarrierWait s i).b.need = s.b.need ∧
    (hpbiBarrierWait s i).hist = s.hist ++ [i] ∧
    ∀ j, j ≠ i → (hpbiBarrierWait s i).call j = s.call j := by
  unfold hpbiBarrierWait
  by_cases h : (s.enter i).b.seen = s.b.need
  · simp only [if_pos h]
    exact ⟨rfl, rfl, fun j hj => update_of_ne hj ..⟩
  · simp only [if_neg h]
    exact ⟨rfl, rfl, fun j hj => update_of_ne hj ..⟩

/-! ## counting in rounds -/

theorem succ_of_last {m n : Nat} (h : m % n + 1 = n) :
    (m + 1) / n = m / n + 1 ∧ (m + 1) % n = 0 := by
  rw [Nat.div_mod_unique (by omega)]
  have := Nat.div_add_mod m n
  rw [Nat.mul_add]
  omega

theorem succ_of_lt {m n : Nat} (h : m % n + 1 < n) :
    (m + 1) / n = m / n ∧ (m + 1) % n = m % n + 1 := by
  rw [Nat.div_mod_unique (by omega)]
  have := Nat.div_add_mod m n
  omega

/-- at the end of a round every position lies in a round before -/
theorem div_lt_of_mod_eq_zero {p m n : Nat} (hn : 0 < n) (hp : p < m) (hm : m % n = 0) :
    p / n < m / n := by
  rw [Nat.div_lt_iff_lt_mul hn, Nat.div_mul_cancel (Nat.dvd_of_mod_eq_zero hm)]
  exact hp

/-! ## the invariant -/

structure Inv (s : State) : Prop where
  need_pos : 0 < s.b.need
  need_lt : s.b.need < 2 ^ 63
  seen : s.b.seen = s.hist.length % s.b.need
  round : s.b.round = s.hist.length / s.b.need % 2 ^ 64
  idle : ∀ i, s.call i = .idle ↔ i ∉ s.hist
  nodup : s.hist.Nodup
  waiting : ∀ (p i r k : Nat), s.hist[p]? = some i → s.call i = .waiting r k →
    r = p / s.b.need % 2 ^ 64 ∧ k = p % s.b.need
  returned : ∀ (p i : Nat) v, s.hist[p]? = some i → s.call i = .returned v →
    v = Int64.ofNat (p % s.b.need) ∧ p / s.b.need < s.hist.length / s.b.need

namespace Inv
variable {s : State} {i : Nat}

theorem not_mem (h : Inv s) (hi : s.call i = .idle) : i ∉ s.hist := (h.idle i).mp hi

/-- positions of the history after one more arrival -/
theorem getElem?_enter {p j : Nat} (hp : (s.hist ++ [i])[p]? = some j) :
    s.hist[p]? = some j ∨ (p = s.hist.length ∧ j = i) := by
  rcases Nat.lt_trichotomy p s.hist.length with hlt | heq | hgt
  · rw [List.getElem?_append_left hlt] at hp
    exact .inl hp
  · rw [heq, List.getElem?_concat_length] at hp
    exact .inr ⟨heq, (Option.some.inj hp).symm⟩
  · rw [List.getElem?_eq_none (by rw [List.length_append]; exact hgt)] at hp
    cases hp

/-- what is left to check of an arrival: the record, and the call itself -/
theorem arrive (h : Inv s) (hi : s.call i = .idle) {t : State} {c : Call}
    (hhist : t.hist = s.hist ++ [i]) (hcall : t.call = update s.call i c)
    (hneed : t.b.need = s.b.need) (hseen : t.b.seen = (s.hist.length + 1) % s.b.need)
    (hround : t.b.round = (s.hist.length + 1) / s.b.need % 2 ^ 64) (hc : c ≠ .idle)
    (hwait : ∀ r k, c = .waiting r k →
      r = s.hist.length / s.b.need % 2 ^ 64 ∧ k = s.hist.length % s.b.need)
    (hret : ∀ v, c = .returned v → v = Int64.ofNat (s.hist.length % s.b.need) ∧
      s.hist.length / s.b.need < (s.hist.length + 1) / s.b.need) : Inv t := by
  have hlen : t.hist.length = s.hist.length + 1 := by
    rw [hhist, List.length_append]
    rfl
  have hni := h.not_mem hi
  have hold : ∀ (p j : Nat), s.hist[p]? = some j → update s.call i c j = s.call j := fun p j hp =>
    update_of_ne (ne_of_mem_of_not_mem (List.mem_of_getElem? hp) hni) ..
  refine ⟨by rw [hneed]; exact h.need_pos, by rw [hneed]; exact h.need_lt,
    by rw [hneed, hlen]; exact hseen, by rw [hneed, hlen]; exact hround, fun j => ?_, ?_, ?_, ?_⟩
  · rw [hcall, hhist, List.mem_append, List.mem_singleton, not_or]
    by_cases e : j = i
    · rw [e, update_self]
      exact iff_of_false hc fun hn => hn.2 rfl
    · rw [update_of_ne e, h.idle j, and_iff_left e]
  · rw [hhist]
    exact h.nodup.append (List.nodup_singleton i) (List.disjoint_singleton.mpr hni)
  · intro p j r k hp hj
    rw [hneed]
    rw [hhist] at hp
    rw [hcall] at hj
    rcases getElem?_enter hp with hp | ⟨rfl, rfl⟩
    · rw [hold p j hp] at hj
      exact h.waiting p j r k hp hj
    · rw [update_self] at hj
      exact hwait r k hj
  · intro p j v hp hj
    rw [hneed, hlen]
    rw [hhist] at hp
    rw [hcall] at hj
    rcases getElem?_enter hp with hp | ⟨rfl, rfl⟩
    · rw [hold p j hp] at hj
      obtain ⟨hv, hlt⟩ := h.returned p j v hp hj
      exact ⟨hv, Nat.lt_of_lt_of_le hlt (Nat.div_le_div_right (Nat.le_succ _))⟩
    · rw [update_self] at hj
      exact hret v hj

theorem barrierWait (h : Inv s) (hi : s.call i = .idle) : Inv (hpbiBarrierWait s i) := by
  have hmod : s.hist.length % s.b.need < s.b.need := Nat.mod_lt _ h.need_pos
  have hneed := h.need_lt
  have hseen : (s.enter i).b.seen = s.hist.length % s.b.need + 1 := by
    show (s.b.seen + 1) % 2 ^ 64 = _
    rw [h.seen, Nat.mod_eq_of_lt (by omega)]
  unfold hpbiBarrierWait
  by_cases hl : s.hist.length % s.b.need + 1 = s.b.need
  · obtain ⟨hdiv, hzero⟩ := succ_of_last hl
    rw [if_pos (hseen.trans hl)]
    refine h.arrive hi rfl rfl rfl hzero.symm ?_ (by simp) (by simp) fun v hv => ?_
    · show (s.b.round + 1) % 2 ^ 64 = _
      rw [h.round, hdiv]
      omega
    · have hm : s.b.need - 1 = s.hist.length % s.b.need := by omega
      refine ⟨(Call.returned.inj hv).symm.trans ?_, by omega⟩
      rw [show (s.enter i).b.need = s.b.need from rfl, hm]
  · obtain ⟨hdiv, hsucc⟩ := succ_of_lt (by omega : s.hist.length % s.b.need + 1 < s.b.need)
    have hblocked : blocked (s.enter i).b s.b.round := ⟨rfl, by rw [hseen]; omega⟩
    rw [if_neg (by rw [hseen]; exact hl), waitLoop, if_pos hblocked]
    refine h.arrive hi rfl rfl rfl (hseen.trans hsucc.symm) ?_ (by simp) (fun r k hw => ?_)
      (by simp)
    · rw [hdiv]
      exact h.round
    · obtain ⟨hr, hk⟩ := Call.waiting.inj hw
      exact ⟨hr.symm.trans h.round, hk.symm.trans h.seen⟩

/-- a sleeper whose loop ends is in a completed round -/
theorem completed (h : Inv s) {p r k : Nat} (hp : s.hist[p]? = some i)
    (hi : s.call i = .waiting r k) (hb : ¬ blocked s.b r) :
    p / s.b.need < s.hist.length / s.b.need := by
  obtain ⟨hlt, -⟩ := List.getElem?_eq_some_iff.mp hp
  obtain ⟨hr, -⟩ := h.waiting p i r k hp hi
  by_cases e : p / s.b.need = s.hist.length / s.b.need
  · have hseen : s.b.seen = 0 := by
      by_contra hne
      exact hb ⟨by rw [hr, e, h.round], hne⟩
    exact div_lt_of_mod_eq_zero h.need_pos hlt (h.seen.symm.trans hseen)
  · have := Nat.div_le_div_right (c := s.b.need) (Nat.le_of_lt hlt)
    omega

theorem wake (h : Inv s) {r k : Nat} (hi : s.call i = .waiting r k) : Inv (waitLoop s i r k) := by
  have hcall : (waitLoop s i r k).call = update s.call i
      (if blocked s.b r then .waiting r k else .returned (Int64.ofNat k)) := rfl
  refine ⟨h.need_pos, h.need_lt, h.seen, h.round, fun j => ?_, h.nodup, ?_, ?_⟩
  · rw [hcall, show (waitLoop s i r k).hist = s.hist from rfl, ← h.idle j]
    by_cases e : j = i
    · rw [e, update_self, hi]
      exact iff_of_false (by split <;> simp) (by simp)
    · rw [update_of_ne e]
  · intro p j r' k' hp hj
    rw [hcall] at hj
    by_cases e : j = i
    · rw [e, update_self] at hj
      split at hj
      · obtain ⟨rfl, rfl⟩ := Call.waiting.inj hj
        exact h.waiting p i r k (e ▸ hp) hi
      · cases hj
    · rw [update_of_ne e] at hj
      exact h.waiting p j r' k' hp hj
  · intro p j v hp hj
    rw [hcall] at hj
    by_cases e : j = i
    · rw [e, update_self] at hj
      split at hj
      · cases hj
      · rename_i hb
        rw [e] at hp
        obtain ⟨-, hk⟩ := h.waiting p i r k hp hi
        exact ⟨by rw [← Call.returned.inj hj, hk]; rfl, h.completed hp hi hb⟩
    · rw [update_of_ne e] at hj
      exact h.returned p j v hp hj

theorem start (n : HVal Bytes) : Inv (start n) where
  need_pos := by
    show 0 < (if hpValToInt n < 1 then (1 : Int64) else hpValToInt n).toInt.toNat
    split
    · decide
    · rename_i hn
      have : (1 : Int64).toInt ≤ (hpValToInt n).toInt :=
        Int64.le_iff_toInt_le.mp (Int64.not_lt.mp hn)
      rw [show (1 : Int64).toInt = 1 from rfl] at this
      omega
  need_lt := by
    have := Int64.toInt_lt (if hpValToInt n < 1 then (1 : Int64) else hpValToInt n)
    show (if hpValToInt n < 1 then (1 : Int64) else hpValToInt n).toInt.toNat < 2 ^ 63
    omega
  seen := (Nat.zero_mod _).symm
  round := by
    show 0 = 0 / (hpbiBarrierNew n).need % 2 ^ 64
    rw [Nat.zero_div, Nat.zero_mod]
  idle i := iff_of_true rfl List.not_mem_nil
  nodup := List.nodup_nil
  waiting p i r k hp _ := by cases hp
  returned p i v hp _ := by cases hp

theorem reach (hs : sys.Reach s) : Inv s := by
  refine Sys.Reach.inv ?_ ?_ hs
  · intro s h0
    obtain ⟨n, rfl⟩ := h0
    exact Inv.start n
  · intro s a t h hn
    obtain ⟨i, hi, rfl⟩ | ⟨i, r, k, hi, rfl⟩ := next_cases hn
    · exact h.barrierWait hi
    · exact h.wake hi

end Inv

/-! ## rounds -/

/-- the completed rounds -/
def State.rounds (s : State) : Nat := s.hist.length / s.b.need

/-- the calls that arrived in round `r`, in order -/
def State.arrivals (s : State) (r : Nat) : List Nat := (s.hist.drop (r * s.b.need)).take s.b.need

/-- the index that a call returned or will return -/
def Call.index : Call → Option Int
  | .idle => none
  | .waiting _ idx => some idx
  | .returned v => some v.toInt

structure BarrierSafe (s : State) : Prop where
  /-- a call that arrived is in one round, and in no other -/
  arrived : ∀ i, s.call i ≠ .idle → ∃ r ≤ s.rounds, i ∈ s.arrivals r
  once : ∀ i r r', i ∈ s.arrivals r → i ∈ s.arrivals r' → r = r'
  /-- who returned is in a round of `need` arrivals -/
  no_early : ∀ i r v, i ∈ s.arrivals r → s.call i = .returned v → (s.arrivals r).length = s.b.need
  /-- `seen` counts the arrivals of the open round and no others -/
  counted : s.b.seen = (s.arrivals s.rounds).length
  /-- the indices of a completed round -/
  indices : ∀ r < s.rounds,
    (s.arrivals r).map (fun i => (s.call i).index) =
      (List.range s.b.need).map fun k : Nat => some (k : Int)

/-- no call of round `r` is kept in its loop -/
def Unblocked (s : State) (r : Nat) : Prop :=
  ∀ i ∈ s.arrivals r, ∀ round idx, s.call i = .waiting round idx → ¬ blocked s.b round

namespace Inv
variable {s : State} {i r : Nat}

theorem mem_arrivals (h : Inv s) :
    i ∈ s.arrivals r ↔ ∃ p : Nat, s.hist[p]? = some i ∧ p / s.b.need = r := by
  have hn := h.need_pos
  rw [State.arrivals, List.mem_iff_getElem?]
  constructor
  · intro h0
    obtain ⟨k, hk⟩ := h0
    rw [List.getElem?_take] at hk
    split at hk
    · rename_i hlt
      rw [List.getElem?_drop] at hk
      refine ⟨_, hk, ?_⟩
      rw [Nat.add_comm, Nat.add_mul_div_right _ _ hn, Nat.div_eq_of_lt hlt, Nat.zero_add]
    · cases hk
  · intro h0
    obtain ⟨p, hp, rfl⟩ := h0
    refine ⟨p % s.b.need, ?_⟩
    rw [List.getElem?_take, if_pos (Nat.mod_lt _ hn), List.getElem?_drop, Nat.div_add_mod']
    exact hp

theorem length_arrivals (h : Inv s) (hr : r < s.rounds) : (s.arrivals r).length = s.b.need := by
  have : (r + 1) * s.b.need ≤ s.hist.length :=
    (Nat.le_div_iff_mul_le h.need_pos).mp (Nat.succ_le_of_lt hr)
  rw [Nat.succ_mul] at this
  rw [State.arrivals, List.length_take, List.length_drop]
  omega

/-- the call at a position knows its number in the round -/
theorem index (h : Inv s) {p : Nat} (hp : s.hist[p]? = some i) :
    (s.call i).index = some ((p % s.b.need : Nat) : Int) := by
  cases hc : s.call i with
  | idle => exact absurd (List.mem_of_getElem? hp) (h.not_mem hc)
  | waiting r k => rw [(h.waiting p i r k hp hc).2]; rfl
  | returned v =>
    have hlt : p % s.b.need < 2 ^ 63 :=
      Nat.lt_trans (Nat.mod_lt _ h.need_pos) h.need_lt
    rw [(h.returned p i v hp hc).1, Call.index, Int64.toInt_ofNat_of_lt hlt]

theorem indices (h : Inv s) (hr : r < s.rounds) : (s.arrivals r).map (fun i => (s.call i).index) =
    (List.range s.b.need).map fun k : Nat => some (k : Int) := by
  have hlen := h.length_arrivals hr
  apply List.ext_getElem
  · rw [List.length_map, List.length_map, hlen, List.length_range]
  · intro k hk _
    rw [List.length_map, hlen] at hk
    rw [List.getElem_map, List.getElem_map, List.getElem_range]
    have hk' : k < (s.arrivals r).length := by rw [hlen]; exact hk
    have hp : s.hist[r * s.b.need + k]? = some (s.arrivals r)[k] := by
      rw [← List.getElem?_eq_getElem, State.arrivals, List.getElem?_take, if_pos hk,
        List.getElem?_drop]
    rw [h.index hp, Nat.mul_add_mod', Nat.mod_eq_of_lt hk]

theorem safe (h : Inv s) : BarrierSafe s where
  arrived i hi := by
    have hm : i ∈ s.hist := by_contra fun hn => hi ((h.idle i).mpr hn)
    obtain ⟨p, hp⟩ := List.mem_iff_getElem?.mp hm
    obtain ⟨hlt, -⟩ := List.getElem?_eq_some_iff.mp hp
    exact ⟨_, Nat.div_le_div_right (Nat.le_of_lt hlt), h.mem_arrivals.mpr ⟨p, hp, rfl⟩⟩
  once i r r' hr hr' := by
    obtain ⟨p, hp, rfl⟩ := h.mem_arrivals.mp hr
    obtain ⟨p', hp', rfl⟩ := h.mem_arrivals.mp hr'
    obtain ⟨hlt, -⟩ := List.getElem?_eq_some_iff.mp hp
    rw [(List.getElem?_inj hlt h.nodup).mp (hp.trans hp'.symm)]
  no_early i r v hi hv := by
    obtain ⟨p, hp, rfl⟩ := h.mem_arrivals.mp hi
    exact h.length_arrivals (h.returned p i v hp hv).2
  counted := by
    have hmod : s.hist.length % s.b.need < s.b.need := Nat.mod_lt _ h.need_pos
    have hdiv := Nat.div_add_mod' s.hist.length s.b.need
    rw [h.seen, State.arrivals, State.rounds, List.length_take, List.length_drop]
    omega
  indices r hr := h.indices hr

theorem unblocked (h : Inv s) (hr : r < s.rounds) (hw : s.rounds < r + 2 ^ 64) : Unblocked s r := by
  rintro i hi rd k hc ⟨hb, -⟩
  obtain ⟨p, hp, rfl⟩ := h.mem_arrivals.mp hi
  rw [(h.waiting p i rd k hp hc).1, h.round] at hb
  unfold State.rounds at hr hw
  omega

end Inv

/-- **Barriers across reuse.** -/
theorem barrier_safe {s : State} (hs : sys.Reach s) :
    BarrierSafe s ∧ ∀ r < s.rounds, s.rounds < r + 2 ^ 64 → Unblocked s r :=
  ⟨(Inv.reach hs).safe, fun _ hr hw => (Inv.reach hs).unblocked hr hw⟩

/-- a barrier for two, its first call arrived and its second call arrived -/
theorem barrier_safe_two :
    BarrierSafe (hpbiBarrierWait (hpbiBarrierWait (start (.int 2)) 0) 1) ∧
      Unblocked (hpbiBarrierWait (hpbiBarrierWait (start (.int 2)) 0) 1) 0 := by
  have h := barrier_safe (((Sys.Reach.init ⟨.int 2, rfl⟩ : sys.Reach (start (.int 2))).step
    (l := .arrive 0) rfl).step (l := .arrive 1) rfl)
  exact ⟨h.1, h.2 0 (by decide) (by decide)⟩

/-! ## `round` comes round -/

/-- calls `0, 1, .., m` arrive at a barrier for two while call `0` sleeps -/
theorem sleeper (m : Nat) : ∃ s, sys.Reach s ∧ s.b.need = 2 ∧ s.hist = List.range (m + 1) ∧
    s.call 0 = .waiting 0 0 := by
  induction m with
  | zero =>
    exact ⟨hpbiBarrierWait (start (.int 2)) 0,
      (Sys.Reach.init ⟨.int 2, rfl⟩ : sys.Reach (start (.int 2))).step (l := .arrive 0) rfl,
      rfl, rfl, rfl⟩
  | succ m ih =>
    obtain ⟨s, hs, hn, hh, hc⟩ := ih
    have hi : s.call (m + 1) = .idle := ((Inv.reach hs).idle _).mpr (by rw [hh]; simp)
    have hnext : sys.next s (.arrive (m + 1)) = some (hpbiBarrierWait s (m + 1)) := by
      simp only [sys, next, hi]
    obtain ⟨hneed, hhist, hcall⟩ := wait_frame s (m + 1)
    refine ⟨hpbiBarrierWait s (m + 1), hs.step hnext, hneed.trans hn, ?_, ?_⟩
    · rw [hhist, hh, ← List.range_succ]
    · rw [hcall 0 (Nat.succ_ne_zero m).symm, hc]

/-- after `2 ^ 64` rounds the loop of a sleeper of the first round goes on -/
theorem unblocked_fails :
    ¬ ∀ s, sys.Reach s → BarrierSafe s ∧ ∀ r < s.rounds, Unblocked s r := by
  intro h
  obtain ⟨s, hs, hn, hh, hc⟩ := sleeper (2 ^ 65)
  have hI := Inv.reach hs
  have hlen : s.hist.length = 2 ^ 65 + 1 := by rw [hh, List.length_range]
  have hrounds : s.rounds = 2 ^ 64 := by
    rw [State.rounds, hlen, hn]
    decide
  have h0 : s.hist[0]? = some 0 := by
    rw [hh, List.getElem?_range (by omega)]
  refine (h s hs).2 0 (by rw [hrounds]; omega) 0 ?_ 0 0 hc ⟨?_, ?_⟩
  · exact hI.mem_arrivals.mpr ⟨0, h0, Nat.zero_div _⟩
  · rw [hI.round, hlen, hn]
    decide
  · rw [hI.seen, hlen, hn]
    omega

end Barrier
end HolyPhp
