import HolyPhp.Async.Timers

/-!
# Runs of the timers

* `Placed a`       the element at each place of `$timers` is the timer of that number;
* `Logs`, `InTick` what the array, the trace and the loop over `$due` say about each other;
* `Inv.step`       a step that fits keeps them;
* `Inv.fits`       after one that does not, an id or an event is wrong;
* `timers_iff`     **the ids of a run stand for their timers, and the timers are invoked when they
                   should be, if and only if every step fits.**
-/

set_option autoImplicit false

namespace HolyPhp
namespace Timers
open Arr Function
open Cmp (Calls hpLe hpGt)
open Traces (Along)

/-! ## the array -/

section
variable {a : Harr} {p n : Nat} {id : Int64}

/-- the key of the place `p` -/
def idVal (p : Nat) : Val := .int (Int64.ofNat p)

structure Placed (a : Harr) : Prop where
  list : a.isMap = false
  room : a.len < 2 ^ 63
  place : ∀ i < a.len, a.vals i = .arr (some i)

theorem Placed.get (h : Placed a) (id : Int64) : hpArrGet a (.int id) =
    some (if id.toInt < 0 ∨ (a.len : Int) ≤ id.toInt then .null
      else .arr (some id.toInt.toNat)) := by
  rw [get_list h.list]
  by_cases hout : id.toInt < 0 ∨ (a.len : Int) ≤ id.toInt
  · rw [if_pos hout, if_pos hout]
  · rw [if_neg hout, if_neg hout, h.place _ (by omega)]

theorem Placed.get_lt (h : Placed a) (hp : p < a.len) :
    hpArrGet a (idVal p) = some (.arr (some p)) := by
  have hroom := h.room
  have hi := toInt_ofNat (n := p) (by omega)
  rw [idVal, h.get, hi, if_neg (by omega), Int.toNat_natCast]

theorem Placed.get_ge (h : Placed a) (hp : a.len ≤ p) (hlt : p < 2 ^ 63) :
    hpArrGet a (idVal p) = some .null := by
  rw [idVal, h.get, toInt_ofNat hlt, if_pos (by omega)]

theorem Placed.has_lt (h : Placed a) (hp : p < a.len) : hpArrHas a (idVal p) = some true := by
  have hroom := h.room
  have hi := toInt_ofNat (n := p) (by omega)
  rw [idVal, hpArrHas, keyIndex_list h.list, hi, if_neg (by omega)]
  rfl

/-- `hp_arr_unset` moves the last element -/
theorem unset_list (hm : a.isMap = false) (hp : p < a.len) (hlt : p < 2 ^ 63) :
    hpArrUnset a (idVal p) = some
      { (if p ≠ a.len - 1 then a.moveVal p (a.len - 1) else a) with len := a.len - 1 } := by
  have hk : hpKeyIndex a (idVal p) = some (some p) := by
    rw [idVal, keyIndex_list hm, toInt_ofNat hlt, if_neg (by omega), Int.toNat_natCast]
  have h0 : a.len ≠ 0 := by omega
  rw [hpArrUnset, hk]
  simp only [Option.bind_some, if_neg h0]
  by_cases hl : p ≠ a.len - 1
  · have hfill : a.fillHole p (a.len - 1) = some (a.moveVal p (a.len - 1)) := by
      simp [Harr.fillHole, Harr.takeKey, Harr.moveVal, hm]
    rw [if_pos hl, if_pos hl, hfill]
    rfl
  · have hno : ¬ a.isMap = true := by simp [hm]
    rw [if_neg hl, if_neg hl, if_neg hno]
    rfl

end

/-! ## comparisons -/

section
variable (c : Calls) {a b : Int64}

/-- the `double`s of two times are in the order of the times -/
theorem hpLe_of_le (h : a ≤ b) : hpLe c (.int a) (.int b) = true := by
  have hr := Double.rank_mono h
  have hc := (Cmp.sign_iff (Double.ofInt64 a).rank (Double.ofInt64 b).rank).2.2.1
  rw [hpLe, Cmp.valCmp_rank]
  exact decide_eq_true (hc.mpr hr)

theorem hpGt_zero (i : Int64) : hpGt c (.int i) (.int 0) = true ↔ 0 < i := by
  have hc := (Cmp.sign_iff (Double.ofInt64 i).rank (Double.ofInt64 0).rank).2.1
  rw [hpGt, Cmp.valCmp_rank, decide_eq_true_iff, hc]
  constructor
  · intro h
    by_contra hn
    have hle : i ≤ 0 := by
      rw [Int64.lt_iff_toInt_lt] at hn
      rw [Int64.le_iff_toInt_le]
      omega
    have := Double.rank_mono hle
    omega
  · intro h
    have h1 : (1 : Int64) ≤ i := by
      rw [Int64.lt_iff_toInt_lt] at h
      rw [Int64.le_iff_toInt_le]
      exact h
    have hone : (Double.ofInt64 0).rank < (Double.ofInt64 1).rank := by decide
    have := Double.rank_mono h1
    omega

end

/-! ## traces -/

section
variable {tr before mid before' mid' : List Event} {e : Event} {id t t' : Int64} {p : Addr}

theorem cancelledIn_concat : CancelledIn (tr ++ [e]) id p ↔
    CancelledIn tr id p ∨ e = .cancelled id ∧ ∃ w i, .created id p w i ∈ tr := by
  constructor
  · rintro ⟨a, b, w, i, hx, ha⟩
    rcases List.eq_nil_or_concat b with rfl | ⟨b, y, rfl⟩
    · obtain ⟨rfl, he⟩ := List.append_inj' hx rfl
      exact .inr ⟨(List.cons.inj he).1, w, i, ha⟩
    · rw [List.concat_eq_append, ← List.cons_append, ← List.append_assoc] at hx
      exact .inl ⟨a, b, w, i, (List.append_inj' hx rfl).1, ha⟩
  · rintro (⟨a, b, w, i, rfl, ha⟩ | ⟨rfl, w, i, ha⟩)
    · exact ⟨a, b ++ [e], w, i, by simp, ha⟩
    · exact ⟨tr, [], w, i, rfl, ha⟩

theorem CancelledIn.concat (h : CancelledIn tr id p) : CancelledIn (tr ++ [e]) id p :=
  cancelledIn_concat.mpr (.inl h)

theorem mem_concat_of_mem {x : Event} (h : x ∈ tr) : x ∈ tr ++ [e] := List.mem_append_left _ h

theorem mem_concat_ne {x : Event} (hne : e ≠ x) : x ∈ tr ++ [e] ↔ x ∈ tr := by
  rw [List.mem_append, List.mem_singleton]
  exact or_iff_left fun h => hne h.symm

theorem Tick.concat (h : Tick tr t before mid) (hb : ∀ u, e ≠ .began u) :
    Tick (tr ++ [e]) t before (mid ++ [e]) := by
  refine ⟨by rw [h.eq]; simp, fun u hu => ?_⟩
  rw [mem_concat_ne (hb u)] at hu
  exact h.last u hu

theorem Tick.unique (h : Tick tr t before mid) (h' : Tick tr t' before' mid') :
    t = t' ∧ before = before' ∧ mid = mid' := by
  have heq := h.eq.symm.trans h'.eq
  rcases List.append_eq_append_iff.mp heq with ⟨s, hs, hm⟩ | ⟨s, hs, hm⟩
  · cases s with
    | nil =>
      obtain ⟨he, rfl⟩ := List.cons.inj hm
      rw [List.append_nil] at hs
      exact ⟨Event.began.inj he, hs.symm, rfl⟩
    | cons x s =>
      obtain ⟨-, rfl⟩ := List.cons.inj hm
      exact absurd (List.mem_append_right s List.mem_cons_self) (h.last t')
  · cases s with
    | nil =>
      obtain ⟨he, rfl⟩ := List.cons.inj hm
      rw [List.append_nil] at hs
      exact ⟨(Event.began.inj he).symm, hs, rfl⟩
    | cons x s =>
      obtain ⟨-, rfl⟩ := List.cons.inj hm
      exact absurd (List.mem_append_right s List.mem_cons_self) (h'.last t)

end

/-! ## invariants -/

/-- the array of a loop whose timers all have their own places -/
structure Base (l : Loop) : Prop where
  list : l.timers.isMap = false
  nextIndex : l.timers.nextIndex = l.timerSeq
  seq : l.timerSeq = Int64.ofNat l.heap.length
  room : l.heap.length < 2 ^ 63
  len : l.timers.len ≤ l.heap.length
  place : ∀ i < l.timers.len, l.timers.vals i = .arr (some i)

/-- the first `n` timers are in the array, the others are one-shot timers that were invoked; `cur`
is the one whose callback is running -/
structure Logs (n : Nat) (heap : List Timer) (tr : List Event) (cur : Option Addr) : Prop where
  made : ∀ id p w i, .created id p w i ∈ tr → id = Int64.ofNat p ∧
    ∃ x, heap[p]? = some x ∧ x.intervalMs = i ∧ (i ≤ 0 → x.whenMs = w)
  all : ∀ p < heap.length, ∃ w i, .created (Int64.ofNat p) p w i ∈ tr
  gone : ∀ p x, n ≤ p → heap[p]? = some x → x.intervalMs ≤ 0 ∧ .fired p ∈ tr
  fresh : ∀ p x, p < n → heap[p]? = some x → x.intervalMs ≤ 0 → cur ≠ some p → .fired p ∉ tr
  known : ∀ p, .fired p ∈ tr → p < heap.length

/-- `cancelTimer` has set the flags -/
def Flags (n : Nat) (heap : List Timer) (tr : List Event) : Prop :=
  ∀ p x, p < n → heap[p]? = some x → (x.cancelled = true ↔ CancelledIn tr (Int64.ofNat p) p)

/-- the timers `ps` are left in the tick at `t` -/
structure InTick (n : Nat) (tr : List Event) (t : Int64) (before mid : List Event)
    (ps : List Nat) : Prop where
  tick : Tick tr t before mid
  sorted : ps.Pairwise (· < ·)
  there : ∀ p ∈ ps, p < n ∧ .fired p ∉ mid
  served : ∀ id p w i, .created id p w i ∈ before → i ≤ 0 → w ≤ t →
    .fired p ∈ tr ∨ CancelledIn tr id p ∨ p ∈ ps

def Phase.current : Phase → Option Addr
  | .call _ _ p _ => some p
  | _ => none

def PhaseOk (n : Nat) (tr : List Event) : Phase → Prop
  | .idle => True
  | .due t ids => ∃ before mid ps, ids = ps.map idVal ∧ InTick n tr t before mid ps
  | .call t id p ids => ∃ before mid ps, ids = ps.map idVal ∧ id = idVal p ∧ p < n ∧
      .fired p ∈ tr ∧ (∀ q ∈ ps, p < q) ∧ InTick n tr t before mid ps

structure Inv (l : Loop) : Prop where
  base : Base l
  logs : Logs l.timers.len l.heap l.trace l.phase.current
  flags : Flags l.timers.len l.heap l.trace
  phase : PhaseOk l.timers.len l.trace l.phase
  trace : Along Allowed l.trace

section
variable {l : Loop} {n : Nat} {heap : List Timer} {tr before mid : List Event} {e : Event}
  {cur cur' : Option Addr} {t : Int64} {p : Nat} {ps : List Nat}

theorem Base.placed (h : Base l) : Placed l.timers :=
  ⟨h.list, Nat.lt_of_le_of_lt h.len h.room, h.place⟩

theorem Logs.concat (h : Logs n heap tr cur) (hc : ∀ id p w i, e ≠ .created id p w i)
    (hf : ∀ p, e = .fired p → p < n ∧ cur' = some p)
    (hn : n ≤ heap.length) (hcur : ∀ p, cur = some p → cur' = some p) :
    Logs n heap (tr ++ [e]) cur' where
  made id p w i hm := h.made id p w i ((mem_concat_ne (hc id p w i)).mp hm)
  all p hp := by
    obtain ⟨w, i, hm⟩ := h.all p hp
    exact ⟨w, i, mem_concat_of_mem hm⟩
  gone p x hp hx := ⟨(h.gone p x hp hx).1, mem_concat_of_mem (h.gone p x hp hx).2⟩
  fresh p x hp hx hi hne hm := by
    by_cases he : e = .fired p
    · exact hne (hf p he).2
    · exact h.fresh p x hp hx hi (fun hh => hne (hcur p hh)) ((mem_concat_ne he).mp hm)
  known p hm := by
    by_cases he : e = .fired p
    · exact Nat.lt_of_lt_of_le (hf p he).1 hn
    · exact h.known p ((mem_concat_ne he).mp hm)

theorem getElem?_grow {x y : Timer} (hp : p < heap.length + 1) (hx : (heap ++ [y])[p]? = some x) :
    (p < heap.length ∧ heap[p]? = some x) ∨ p = heap.length ∧ x = y := by
  rcases Nat.lt_or_eq_of_le (Nat.le_of_lt_succ hp) with hlt | rfl
  · exact .inl ⟨hlt, (List.getElem?_append_left hlt).symm.trans hx⟩
  · rw [List.getElem?_concat_length] at hx
    exact .inr ⟨rfl, (Option.some.inj hx).symm⟩

theorem Logs.not_made (h : Logs n heap tr cur) (id w i : Int64) :
    Event.created id heap.length w i ∉ tr := by
  intro hcr
  obtain ⟨-, x, hx, -⟩ := h.made _ _ _ _ hcr
  exact absurd (List.getElem?_eq_some_iff.mp hx).1 (Nat.lt_irrefl _)

/-- one more timer -/
theorem Logs.grow {w iv : Int64} (h : Logs heap.length heap tr cur) :
    Logs (heap.length + 1) (heap ++ [⟨w, iv, false⟩])
      (tr ++ [.created (Int64.ofNat heap.length) heap.length w iv]) cur := by
  refine ⟨fun id p w' i hcr => ?_, fun p hp => ?_, fun p x hp hx => ?_,
    fun p x hp hx hi hne hf => ?_, fun p hf => ?_⟩
  · rcases List.mem_append.mp hcr with hcr | hcr
    · obtain ⟨hid, x, hx, hxi⟩ := h.made id p w' i hcr
      have hlt := (List.getElem?_eq_some_iff.mp hx).1
      exact ⟨hid, x, (List.getElem?_append_left hlt).trans hx, hxi⟩
    · cases List.mem_singleton.mp hcr
      exact ⟨rfl, _, List.getElem?_concat_length, rfl, fun _ => rfl⟩
  · rw [List.length_append] at hp
    rcases Nat.lt_or_eq_of_le (Nat.le_of_lt_succ hp) with hlt | rfl
    · obtain ⟨w', i, hcr⟩ := h.all p hlt
      exact ⟨w', i, mem_concat_of_mem hcr⟩
    · exact ⟨w, iv, List.mem_append_right _ List.mem_cons_self⟩
  · have hlt := (List.getElem?_eq_some_iff.mp hx).1
    rw [List.length_append] at hlt
    exact absurd hlt (Nat.not_lt.mpr hp)
  · rw [mem_concat_ne (fun hh => by cases hh)] at hf
    rcases getElem?_grow hp hx with ⟨hlt, hx⟩ | ⟨rfl, rfl⟩
    · exact h.fresh p x hlt hx hi hne hf
    · exact absurd (h.known _ hf) (Nat.lt_irrefl _)
  · rw [mem_concat_ne (fun hh => by cases hh)] at hf
    rw [List.length_append]
    exact Nat.lt_succ_of_lt (h.known p hf)

theorem Flags.grow {w iv : Int64} (h : Flags heap.length heap tr)
    (hl : Logs heap.length heap tr cur) : Flags (heap.length + 1) (heap ++ [⟨w, iv, false⟩])
      (tr ++ [.created (Int64.ofNat heap.length) heap.length w iv]) := by
  intro p x hp hx
  rw [cancelledIn_concat, or_iff_left fun hh => by cases hh.1]
  rcases getElem?_grow hp hx with ⟨hlt, hx⟩ | ⟨rfl, rfl⟩
  · exact h p x hlt hx
  · refine ⟨fun hh => (nomatch hh), ?_⟩
    rintro ⟨b, d, w', i, hb, hcr⟩
    exact absurd (hb ▸ List.mem_append_left _ hcr) (hl.not_made _ w' i)

theorem Flags.concat (h : Flags n heap tr) (hk : ∀ id, e ≠ .cancelled id) :
    Flags n heap (tr ++ [e]) := by
  intro p x hp hx
  rw [h p x hp hx, cancelledIn_concat]
  exact (or_iff_left fun hh => hk _ hh.1).symm

/-! ## writes to the inner arrays -/

theorem getElem?_modify_cases {f : Timer → Timer} {q : Nat} {y : Timer}
    (hy : (heap.modify p f)[q]? = some y) :
    p ≠ q ∧ heap[q]? = some y ∨ p = q ∧ ∃ x, heap[q]? = some x ∧ y = f x := by
  by_cases hpq : p = q
  · rw [hpq, List.getElem?_modify_eq] at hy
    obtain ⟨x, hx, rfl⟩ := Option.map_eq_some_iff.mp hy
    exact .inr ⟨hpq, x, hx, rfl⟩
  · rw [List.getElem?_modify_ne _ _ hpq] at hy
    exact .inl ⟨hpq, hy⟩

/-- neither the interval changes, nor the time of a one-shot timer -/
theorem Logs.modify {f : Timer → Timer} (h : Logs n heap tr cur)
    (hf : ∀ x, heap[p]? = some x → (f x).intervalMs = x.intervalMs ∧
      (x.intervalMs ≤ 0 → (f x).whenMs = x.whenMs)) : Logs n (heap.modify p f) tr cur where
  made id q w i hcr := by
    obtain ⟨hid, x, hx, hxi, hxw⟩ := h.made id q w i hcr
    refine ⟨hid, ?_⟩
    by_cases hpq : p = q
    · obtain ⟨hi, hw⟩ := hf x (hpq ▸ hx)
      refine ⟨f x, ?_, hi.trans hxi, fun h0 => (hw (hxi ▸ h0)).trans (hxw h0)⟩
      rw [hpq, List.getElem?_modify_eq, hx]
      rfl
    · exact ⟨x, (List.getElem?_modify_ne _ _ hpq).trans hx, hxi, hxw⟩
  all q hq := h.all q (List.length_modify f heap p ▸ hq)
  gone q y hq hy := by
    rcases getElem?_modify_cases hy with ⟨-, hy⟩ | ⟨hpq, x, hx, rfl⟩
    · exact h.gone q y hq hy
    · rw [(hf x (hpq ▸ hx)).1]
      exact h.gone q x hq hx
  fresh q y hq hy hi := by
    rcases getElem?_modify_cases hy with ⟨-, hy⟩ | ⟨hpq, x, hx, rfl⟩
    · exact h.fresh q y hq hy hi
    · rw [(hf x (hpq ▸ hx)).1] at hi
      exact h.fresh q x hq hx hi
  known q hq := (h.known q hq).trans_eq (List.length_modify f heap p).symm

theorem Flags.modify {f : Timer → Timer} (h : Flags n heap tr)
    (hf : ∀ x, (f x).cancelled = x.cancelled) : Flags n (heap.modify p f) tr := by
  intro q y hq hy
  rcases getElem?_modify_cases hy with ⟨-, hy⟩ | ⟨-, x, hx, rfl⟩
  · exact h q y hq hy
  · rw [hf]
    exact h q x hq hx

/-- `cancelTimer` of the timer at `p` -/
theorem Flags.cancel (h : Flags n heap tr) (hl : Logs n heap tr cur) (hroom : n < 2 ^ 63)
    (hp : p < n) : Flags n (heap.modify p ({ · with cancelled := true }))
      (tr ++ [.cancelled (Int64.ofNat p)]) := by
  intro q y hq hy
  rw [cancelledIn_concat]
  rcases getElem?_modify_cases hy with ⟨hpq, hy⟩ | ⟨rfl, x, hx, rfl⟩
  · rw [h q y hq hy]
    refine (or_iff_left fun hh => hpq ?_).symm
    have hint := congrArg Int64.toInt (Event.cancelled.inj hh.1)
    rw [toInt_ofNat (by omega), toInt_ofNat (by omega)] at hint
    exact Int.ofNat_inj.mp hint
  · have hmade := hl.all p (List.getElem?_eq_some_iff.mp hx).1
    exact iff_of_true rfl (.inr ⟨rfl, hmade⟩)

/-- `cancelTimer` of nothing -/
theorem Flags.cancel_none {id : Int64} (h : Flags n heap tr)
    (hid : ∀ p < n, id ≠ Int64.ofNat p) : Flags n heap (tr ++ [.cancelled id]) := by
  intro q y hq hy
  rw [cancelledIn_concat, h q y hq hy]
  exact (or_iff_left fun hh => hid q hq (Event.cancelled.inj hh.1)).symm

/-! ## the rest of a tick -/

theorem InTick.concat (h : InTick n tr t before mid ps) (hb : ∀ u, e ≠ .began u)
    (hf : ∀ p ∈ ps, e ≠ .fired p) : InTick n (tr ++ [e]) t before (mid ++ [e]) ps where
  tick := h.tick.concat hb
  sorted := h.sorted
  there p hp := by
    refine ⟨(h.there p hp).1, ?_⟩
    rw [mem_concat_ne (hf p hp)]
    exact (h.there p hp).2
  served id p w i hm hi hw := by
    rcases h.served id p w i hm hi hw with h1 | h1 | h1
    · exact .inl (mem_concat_of_mem h1)
    · exact .inr (.inl h1.concat)
    · exact .inr (.inr h1)

/-- the first of the timers is done -/
theorem InTick.tail (h : InTick n tr t before mid (p :: ps))
    (hd : ∀ id w i, .created id p w i ∈ before → .fired p ∈ tr ∨ CancelledIn tr id p) :
    InTick n tr t before mid ps where
  tick := h.tick
  sorted := (List.pairwise_cons.mp h.sorted).2
  there q hq := h.there q (List.mem_cons_of_mem _ hq)
  served id q w i hm hi hw := by
    rcases h.served id q w i hm hi hw with h1 | h1 | h1
    · exact .inl h1
    · exact .inr (.inl h1)
    · rcases List.mem_cons.mp h1 with rfl | h1
      · rcases hd id w i hm with h2 | h2
        · exact .inl h2
        · exact .inr (.inl h2)
      · exact .inr (.inr h1)

/-- the callback of the first of the timers -/
theorem InTick.fire (h : InTick n tr t before mid (p :: ps)) :
    InTick n (tr ++ [.fired p]) t before (mid ++ [.fired p]) ps := by
  obtain ⟨hlt, hsorted⟩ := List.pairwise_cons.mp h.sorted
  refine ⟨h.tick.concat fun u hh => (nomatch hh), hsorted, fun q hq => ?_,
    fun id q w i hm hi hw => ?_⟩
  · obtain ⟨hn, hmid⟩ := h.there q (List.mem_cons_of_mem _ hq)
    refine ⟨hn, ?_⟩
    rw [mem_concat_ne fun hh => Nat.ne_of_lt (hlt q hq) (Event.fired.inj hh)]
    exact hmid
  · rcases h.served id q w i hm hi hw with h1 | h1 | h1
    · exact .inl (mem_concat_of_mem h1)
    · exact .inr (.inl h1.concat)
    · rcases List.mem_cons.mp h1 with rfl | h1
      · exact .inl (List.mem_append_right _ List.mem_cons_self)
      · exact .inr (.inr h1)

theorem InTick.mono {m : Nat} (h : InTick n tr t before mid ps) (hn : n ≤ m) :
    InTick m tr t before mid ps :=
  ⟨h.tick, h.sorted, fun p hp => ⟨Nat.lt_of_lt_of_le (h.there p hp).1 hn, (h.there p hp).2⟩,
    h.served⟩

/-- a step of the functions that are called from a callback, too -/
theorem PhaseOk.concat {m : Nat} {f : Phase} (h : PhaseOk n tr f) (hn : n ≤ m)
    (hb : ∀ u, e ≠ .began u) (hf : ∀ p, e ≠ .fired p) : PhaseOk m (tr ++ [e]) f := by
  cases f with
  | idle => trivial
  | due t ids =>
    obtain ⟨before, mid, ps, hids, ht⟩ := h
    exact ⟨before, _, ps, hids, (ht.concat hb fun p _ => hf p).mono hn⟩
  | call t id p ids =>
    obtain ⟨before, mid, ps, hids, hid, hp, hfired, hlt, ht⟩ := h
    exact ⟨before, _, ps, hids, hid, Nat.lt_of_lt_of_le hp hn, mem_concat_of_mem hfired, hlt,
      (ht.concat hb fun p _ => hf p).mono hn⟩

/-! ## the properties -/

theorem Inv.denotes (h : Inv l) : Denotes l := by
  intro id p w i hm
  obtain ⟨rfl, x, hx, rfl, -⟩ := h.logs.made id p w i hm
  have hp := (List.getElem?_eq_some_iff.mp hx).1
  have hroom := h.base.room
  by_cases hlt : p < l.timers.len
  · exact .inl (h.base.placed.get_lt hlt)
  · obtain ⟨hi, hf⟩ := h.logs.gone p x (Nat.le_of_not_lt hlt) hx
    exact .inr ⟨hi, hf, h.base.placed.get_ge (Nat.le_of_not_lt hlt) (by omega)⟩

theorem Inv.good (h : Inv l) : Good l := ⟨h.denotes, h.trace⟩

theorem Inv.new (junk : Nat → Val) : Inv (new junk) where
  base := ⟨rfl, rfl, rfl, Nat.two_pow_pos 63, Nat.le_refl 0, fun i hi => absurd hi (Nat.not_lt_zero i)⟩
  logs := ⟨fun _ _ _ _ h => (nomatch h), fun _ h => absurd h (Nat.not_lt_zero _),
    fun _ _ _ h => (nomatch h), fun _ _ h => absurd h (Nat.not_lt_zero _), fun _ h => (nomatch h)⟩
  flags := fun _ _ h => absurd h (Nat.not_lt_zero _)
  phase := trivial
  trace := Traces.along_nil

end

/-! ## `after`, `every` and `cancelTimer` -/

section
variable {l l' : Loop} {now ms iv : Int64} {id : Int64}

/-- the new timer stands behind the others, whatever its id is -/
theorem create_cases (h : Base l) (hs : create l now ms iv = some l') :
    ∃ a : Harr, a.isMap = false ∧ a.len = l.timers.len + 1 ∧
      a.vals = update l.timers.vals l.timers.len (.arr (some l.heap.length)) ∧
      a.nextIndex = l.timerSeq + 1 ∧ l.heap.length + 1 < 2 ^ 63 ∧
      l' = { l with
        timers := a
        timerSeq := l.timerSeq + 1
        heap := l.heap ++ [⟨now + ms, iv, false⟩]
        trace := l.trace ++ [.created l.timerSeq l.heap.length (now + ms) iv] } := by
  unfold create at hs
  dsimp only at hs
  split at hs
  · rename_i hroom
    obtain ⟨a, ha, rfl⟩ := Option.map_eq_some_iff.mp hs
    have hseq : l.timerSeq.toInt = l.heap.length := by rw [h.seq, toInt_ofNat h.room]
    have hlen := h.len
    have hno : hpArrHas l.timers (.int l.timerSeq) = some false :=
      (has_list h.list _).mpr (.inr (by omega))
    obtain ⟨b, hb, hm⟩ := set_next h.list (by rw [h.nextIndex]; exact hno)
      (.arr (some l.heap.length))
    rw [h.nextIndex, ha] at hb
    obtain rfl := Option.some.inj hb
    obtain ⟨-, hl, hv, hn⟩ := set_list h.list hno ha hm
    rw [h.nextIndex] at hn
    exact ⟨a, hm, hl, hv, hn, hroom, rfl⟩
  · cases hs

theorem Base.create (h : Base l) (hs : Timers.create l now ms iv = some l')
    (hn : l.timers.len = l.heap.length) : Base l' := by
  obtain ⟨a, hm, hlen, hvals, hnext, hroom, rfl⟩ := create_cases h hs
  refine ⟨hm, hnext, ?_, ?_, ?_, ?_⟩
  · rw [List.length_append, h.seq]
    exact ofNat_succ _
  · rw [List.length_append]
    exact hroom
  · rw [hlen, List.length_append, hn]
    exact Nat.le_refl _
  · intro i hi
    rw [hlen] at hi
    show a.vals i = _
    rw [hvals]
    rcases Nat.lt_or_eq_of_le (Nat.le_of_lt_succ hi) with hlt | rfl
    · rw [update_of_ne (Nat.ne_of_lt hlt), h.place i hlt]
    · rw [update_self, hn]

theorem Inv.create (h : Inv l) (hs : Timers.create l now ms iv = some l')
    (hfit : l.timerSeq.toInt = l.timers.len) : Inv l' := by
  have hseq : l.timerSeq.toInt = l.heap.length := by rw [h.base.seq, toInt_ofNat h.base.room]
  have hn : l.timers.len = l.heap.length := by omega
  have hbase := h.base.create hs hn
  have hlogs := h.logs
  have hflags := h.flags
  rw [hn] at hlogs hflags
  obtain ⟨a, -, hlen, -, -, -, rfl⟩ := create_cases h.base hs
  refine ⟨hbase, ?_, ?_, ?_, h.trace.concat trivial⟩
  · show Logs a.len _ _ l.phase.current
    rw [hlen, hn, h.base.seq]
    exact hlogs.grow
  · show Flags a.len _ _
    rw [hlen, hn, h.base.seq]
    exact hflags.grow hlogs
  · show PhaseOk a.len _ l.phase
    rw [hlen]
    exact h.phase.concat (Nat.le_succ _) (fun u hh => by cases hh) fun q hh => by cases hh

/-- an id that does not fit stands for nothing -/
theorem Inv.create_fits (h : Inv l) (hs : Timers.create l now ms iv = some l') (hd : Denotes l') :
    l.timerSeq.toInt = l.timers.len := by
  obtain ⟨a, hm, hlen, hvals, hnext, hroom, rfl⟩ := create_cases h.base hs
  have hseq : l.timerSeq.toInt = l.heap.length := by rw [h.base.seq, toInt_ofNat h.base.room]
  have hle := h.base.len
  by_contra hne
  have hget : hpArrGet a (.int l.timerSeq) = some .null := by
    rw [get_list hm, if_pos (.inr (by omega))]
  rcases hd _ _ _ _ (List.mem_append_right _ (List.mem_singleton.mpr rfl)) with h1 | ⟨-, hf, -⟩
  · exact absurd (hget.symm.trans h1) (by simp)
  · rw [mem_concat_ne (fun hh => by cases hh)] at hf
    exact absurd (h.logs.known _ hf) (Nat.lt_irrefl _)

/-- the timer of the id is cancelled, if there is one -/
theorem cancel_cases (h : Base l) (hs : cancelTimer l id = some l') : ∃ heap : List Timer,
    l' = { l with heap := heap, trace := l.trace ++ [.cancelled id] } ∧
      ((∃ p < l.timers.len, id = Int64.ofNat p ∧
          heap = l.heap.modify p ({ · with cancelled := true })) ∨
        (∀ p < l.timers.len, id ≠ Int64.ofNat p) ∧ heap = l.heap) := by
  have hroom := h.placed.room
  unfold cancelTimer at hs
  rw [hpArrHas, keyIndex_list h.list, h.placed.get] at hs
  obtain rfl := Option.some.inj hs
  refine ⟨_, rfl, ?_⟩
  by_cases hout : id.toInt < 0 ∨ (l.timers.len : Int) ≤ id.toInt
  · refine .inr ⟨fun p hp hid => ?_, ?_⟩
    · rw [hid, toInt_ofNat (by omega)] at hout
      omega
    · rw [if_pos hout]
      rfl
  · have hid : id = Int64.ofNat id.toInt.toNat := by
      rw [← Int64.toInt_inj, toInt_ofNat (by omega)]
      omega
    refine .inl ⟨id.toInt.toNat, by omega, hid, ?_⟩
    rw [if_neg hout, if_neg hout]
    rfl

theorem Inv.cancel (h : Inv l) (hs : cancelTimer l id = some l') : Inv l' := by
  have hroom := h.base.placed.room
  obtain ⟨heap, rfl, hcase⟩ := cancel_cases h.base hs
  have hphase : PhaseOk l.timers.len (l.trace ++ [.cancelled id]) l.phase :=
    h.phase.concat (Nat.le_refl _) (fun u hh => by cases hh) fun q hh => by cases hh
  have hlogs : Logs l.timers.len l.heap (l.trace ++ [.cancelled id]) l.phase.current :=
    h.logs.concat (fun _ _ _ _ hh => by cases hh) (fun _ hh => by cases hh) h.base.len fun _ hh => hh
  rcases hcase with ⟨p, hp, rfl, rfl⟩ | ⟨hid, rfl⟩
  · have hlen := List.length_modify ({ · with cancelled := true } : Timer → Timer) l.heap p
    refine ⟨⟨h.base.list, h.base.nextIndex, ?_, ?_, ?_, h.base.place⟩, ?_, ?_, hphase,
      h.trace.concat trivial⟩
    · exact h.base.seq.trans (congrArg Int64.ofNat hlen.symm)
    · exact hlen.trans_lt h.base.room
    · exact h.base.len.trans_eq hlen.symm
    · exact hlogs.modify fun _ _ => ⟨rfl, fun _ => rfl⟩
    · exact h.flags.cancel h.logs hroom hp
  · exact ⟨⟨h.base.list, h.base.nextIndex, h.base.seq, h.base.room, h.base.len, h.base.place⟩,
      hlogs, h.flags.cancel_none hid, hphase, h.trace.concat trivial⟩

/-! ## `tick` -/

section
variable {c : Calls} {t : Int64} {ids : List Val} {v : Val} {p : Nat} {x : Timer}

/-- `$due` is made of places -/
theorem Base.dueIds (h : Base l) : dueIds c l t =
    ((List.range l.timers.len).filter fun i => isDue c l.heap t (l.timers.vals i)).map idVal := by
  rw [Timers.dueIds]
  refine congrFun (congrArg List.map ?_) _
  funext i
  rw [iterKey, h.list]
  rfl

theorem Inv.tick (h : Inv l) (hidle : l.phase = .idle) :
    Inv { l with phase := .due t (Timers.dueIds c l t), trace := l.trace ++ [.began t] } := by
  have hlogs : Logs l.timers.len l.heap (l.trace ++ [.began t]) none := by
    have hl := h.logs
    rw [hidle] at hl
    exact hl.concat (fun _ _ _ _ hh => by cases hh) (fun _ hh => by cases hh) h.base.len fun _ hh => hh
  refine ⟨⟨h.base.list, h.base.nextIndex, h.base.seq, h.base.room, h.base.len, h.base.place⟩,
    hlogs, h.flags.concat fun _ hh => (nomatch hh), ?_, h.trace.concat trivial⟩
  refine ⟨l.trace, [], _, h.base.dueIds, ⟨rfl, fun u hu => (nomatch hu)⟩, ?_, ?_, ?_⟩
  · exact List.pairwise_lt_range.filter _
  · intro p hp
    exact ⟨List.mem_range.mp (List.mem_filter.mp hp).1, fun hm => (nomatch hm)⟩
  · intro id p w i hm hi hw
    obtain ⟨rfl, x, hx, rfl, hxw⟩ := h.logs.made id p w i hm
    by_cases hp : p < l.timers.len
    · cases hc : x.cancelled with
      | true => exact .inr (.inl ((h.flags p x hp hx).mp hc).concat)
      | false =>
        refine .inr (.inr (List.mem_filter.mpr ⟨List.mem_range.mpr hp, ?_⟩))
        have hle := hpLe_of_le c ((hxw hi).symm ▸ hw)
        simp only [isDue, h.base.place p hp, timerAt, hx, Option.map_some, hc, hle]
        rfl
    · exact .inl (mem_concat_of_mem (h.logs.gone p x (Nat.le_of_not_lt hp) hx).2)

/-- the timer of the next place -/
theorem Base.timerAt (h : Base l) (hp : p < l.timers.len) :
    ∃ x, l.heap[p]? = some x ∧ hpArrGet l.timers (idVal p) = some (.arr (some p)) ∧
      Timers.timerAt l.heap (.arr (some p)) = some (p, x) := by
  have hlt := Nat.lt_of_lt_of_le hp h.len
  have hx : l.heap[p]? = some l.heap[p] := List.getElem?_eq_getElem hlt
  exact ⟨_, hx, h.placed.get_lt hp, by rw [Timers.timerAt, hx]; rfl⟩

/-- what the loop over `$due` does with its first element -/
theorem next_cons (h : Base l) (hp : p < l.timers.len) (hx : l.heap[p]? = some x) :
    next l t (idVal p :: ids) = some
      (if x.cancelled then { l with phase := .due t ids }
      else { l with phase := .call t (idVal p) p ids, trace := l.trace ++ [.fired p] }) := by
  obtain ⟨y, hy, hget, hat⟩ := h.timerAt hp
  obtain rfl := Option.some.inj (hx.symm.trans hy)
  rw [next, hget, Option.map_some]
  simp only [hat]

theorem Inv.next (h : Inv l) (hphase : l.phase = .due t ids) (hs : Timers.next l t ids = some l')
    (hfit : Fits l .next) : Inv l' := by
  have hok := h.phase
  have hlogs := h.logs
  rw [hphase] at hok hlogs
  obtain ⟨before, mid, ps, rfl, ht⟩ := hok
  have hbase : ∀ (f : Phase) (tr : List Event), Base { l with phase := f, trace := tr } :=
    fun _ _ => ⟨h.base.list, h.base.nextIndex, h.base.seq, h.base.room, h.base.len, h.base.place⟩
  cases ps with
  | nil =>
    obtain rfl := Option.some.inj hs
    refine ⟨hbase _ _, ?_, h.flags.concat fun _ hh => (nomatch hh), trivial, h.trace.concat ?_⟩
    · exact hlogs.concat (fun _ _ _ _ hh => by cases hh) (fun _ hh => by cases hh) h.base.len
        fun _ hh => (nomatch hh)
    · refine ⟨t, before, mid, ht.tick, fun id p w i hm hi hw => ?_⟩
      rcases ht.served id p w i hm hi hw with h1 | h1 | h1
      · exact .inl h1
      · exact .inr h1
      · cases h1
  | cons p ps =>
    obtain ⟨hp, hmid⟩ := ht.there p List.mem_cons_self
    obtain ⟨x, hx, hget, hat⟩ := h.base.timerAt hp
    rw [List.map_cons, next_cons h.base hp hx] at hs
    obtain rfl := Option.some.inj hs
    cases hc : x.cancelled with
    | true =>
      have hcan := (h.flags p x hp hx).mp hc
      have hmade : ∀ id w i, .created id p w i ∈ before →
          .fired p ∈ l.trace ∨ CancelledIn l.trace id p := by
        intro id w i hm
        obtain ⟨rfl, -⟩ := h.logs.made id p w i (ht.tick.eq ▸ List.mem_append_left _ hm)
        exact .inr hcan
      exact ⟨hbase _ _, hlogs, h.flags, ⟨before, mid, ps, rfl, ht.tail hmade⟩, h.trace⟩
    | false =>
      refine ⟨hbase _ _, ?_, h.flags.concat fun _ hh => (nomatch hh), ?_, h.trace.concat ?_⟩
      · exact hlogs.concat (fun _ _ _ _ hh => by cases hh)
          (fun q hq => by cases hq; exact ⟨hp, rfl⟩) h.base.len fun _ hh => (nomatch hh)
      · exact ⟨before, _, ps, rfl, rfl, hp, List.mem_append_right _ List.mem_cons_self,
          (List.pairwise_cons.mp ht.sorted).1, ht.fire⟩
      · refine ⟨t, before, mid, ht.tick, hmid, fun id w i hm => ?_⟩
        obtain ⟨rfl, y, hy, rfl, hyw⟩ := h.logs.made id p w i hm
        obtain rfl := Option.some.inj (hx.symm.trans hy)
        refine ⟨fun hcan => ?_, fun hi => ⟨?_, ?_⟩⟩
        · rw [(h.flags p x hp hx).mpr hcan] at hc
          cases hc
        · exact hlogs.fresh p x hp hx hi fun hh => (nomatch hh)
        · rw [← hyw hi]
          exact hfit t _ _ _ p x hphase hget hat hc hi

/-- a timer that is not due is not allowed to be invoked -/
theorem Inv.next_fits (h : Inv l) (hphase : l.phase = .due t ids)
    (hs : Timers.next l t ids = some l') (hgood : Along Allowed l'.trace) : Fits l .next := by
  intro t' id ids' v q y hph hget hat hc hi
  have hok := h.phase
  rw [hphase] at hok hph
  obtain ⟨rfl, rfl⟩ := Phase.due.inj hph
  obtain ⟨before, mid, ps, hids, ht⟩ := hok
  cases ps with
  | nil => cases hids
  | cons p ps =>
    obtain ⟨rfl, rfl⟩ := List.cons.inj hids
    obtain ⟨hp, -⟩ := ht.there p List.mem_cons_self
    obtain ⟨x, hx, hget', hat'⟩ := h.base.timerAt hp
    obtain rfl := Option.some.inj (hget'.symm.trans hget)
    obtain ⟨rfl, rfl⟩ := Prod.mk.inj (Option.some.inj (hat'.symm.trans hat))
    rw [next_cons h.base hp hx, hc] at hs
    obtain rfl := Option.some.inj hs
    obtain ⟨t2, before2, mid2, ht2, -, hall⟩ := hgood l.trace _ [] rfl
    obtain ⟨rfl, -, -⟩ := ht.tick.unique ht2
    obtain ⟨w, i, hm⟩ := h.logs.all p (Nat.lt_of_lt_of_le hp h.base.len)
    obtain ⟨-, z, hz, rfl, hzw⟩ := h.logs.made _ p w i hm
    obtain rfl := Option.some.inj (hx.symm.trans hz)
    rw [hzw hi]
    exact ((hall _ w _ hm).2 hi).2

/-! ## behind a callback -/

/-- what `ret` does with the timer at `p` -/
theorem ret_cases {now : Int64} (h : Base l) (hp : p < l.timers.len) (hx : l.heap[p]? = some x) :
    ret c l now (idVal p) p = some
      (if 0 < x.intervalMs then
        { l with heap := l.heap.modify p ({ · with whenMs := now + x.intervalMs }) }
      else { l with timers :=
        { (if p ≠ l.timers.len - 1 then l.timers.moveVal p (l.timers.len - 1) else l.timers) with
          len := l.timers.len - 1 } }) := by
  have hroom := h.placed.room
  rw [ret, hx, Option.bind_eq_bind, Option.bind_some]
  by_cases hi : 0 < x.intervalMs
  · rw [if_pos ((hpGt_zero c _).mpr hi), if_pos hi, h.placed.has_lt hp, h.placed.get_lt hp]
    rfl
  · rw [if_neg (mt (hpGt_zero c _).mp hi), if_neg hi, unset_list h.list hp (by omega)]
    rfl

theorem not_pos {i : Int64} : ¬ 0 < i ↔ i ≤ 0 := by
  rw [Int64.lt_iff_toInt_lt, Int64.le_iff_toInt_le]
  exact Int.not_lt

/-- the last timer goes -/
theorem Base.pop (h : Base l) :
    Base { l with timers := { l.timers with len := l.timers.len - 1 } } :=
  ⟨h.list, h.nextIndex, h.seq, h.room, (Nat.sub_le _ _).trans h.len,
    fun i hi => h.place i (Nat.lt_of_lt_of_le hi (Nat.sub_le _ _))⟩

theorem Logs.pop {n : Nat} {heap : List Timer} {tr : List Event} (h : Logs n heap tr (some p))
    (hn : p = n - 1) (hx : heap[p]? = some x) (hi : x.intervalMs ≤ 0) (hf : .fired p ∈ tr) :
    Logs (n - 1) heap tr none where
  made := h.made
  all := h.all
  gone q y hq hy := by
    by_cases hpq : q = p
    · rw [hpq, hx] at hy
      obtain rfl := Option.some.inj hy
      exact ⟨hi, hpq ▸ hf⟩
    · exact h.gone q y (by omega) hy
  fresh q y hq hy hi' _ :=
    h.fresh q y (by omega) hy hi' fun hh => by rw [Option.some.inj hh] at hn; omega
  known := h.known

/-- a repeating timer is like the others again -/
theorem Logs.back {n : Nat} {heap : List Timer} {tr : List Event} (h : Logs n heap tr (some p))
    (hx : heap[p]? = some x) (hi : 0 < x.intervalMs) : Logs n heap tr none where
  made := h.made
  all := h.all
  gone := h.gone
  fresh q y hq hy hi' _ := by
    refine h.fresh q y hq hy hi' fun hh => ?_
    rw [← Option.some.inj hh, hx] at hy
    obtain rfl := Option.some.inj hy
    exact not_pos.mpr hi' hi
  known := h.known

theorem Inv.ret {now : Int64} {id : Val} (h : Inv l) (hphase : l.phase = .call t id p ids)
    (hs : Timers.ret c l now id p = some l') (hfit : Fits l (.ret now)) :
    Inv { l' with phase := .due t ids } := by
  have hok := h.phase
  have hlogs := h.logs
  rw [hphase] at hok hlogs
  obtain ⟨before, mid, ps, rfl, rfl, hp, hf, hlt, ht⟩ := hok
  have hp : p < l.timers.len := hp
  obtain ⟨x, hx, -, -⟩ := h.base.timerAt hp
  have hroom := h.base.placed.room
  rw [ret_cases h.base hp hx] at hs
  obtain rfl := Option.some.inj hs
  by_cases hi : 0 < x.intervalMs
  · rw [if_pos hi]
    have hlen := List.length_modify ({ · with whenMs := now + x.intervalMs } : Timer → Timer)
      l.heap p
    refine ⟨⟨h.base.list, h.base.nextIndex, ?_, ?_, ?_, h.base.place⟩, ?_, ?_,
      ⟨before, mid, ps, rfl, ht⟩, h.trace⟩
    · exact h.base.seq.trans (congrArg Int64.ofNat hlen.symm)
    · exact hlen.trans_lt h.base.room
    · exact h.base.len.trans_eq hlen.symm
    · refine (hlogs.back hx hi).modify fun y hy => ⟨rfl, fun h0 => ?_⟩
      obtain rfl := Option.some.inj (hx.symm.trans hy)
      exact absurd hi (not_pos.mpr h0)
    · exact h.flags.modify fun _ => rfl
  · have hi0 := not_pos.mp hi
    have hlast := hfit t _ p _ x hphase hx hi0
    have hpl : p = l.timers.len - 1 := by
      have hint := congrArg Int64.toInt (HVal.int.inj hlast)
      rw [toInt_ofNat (by omega), toInt_ofNat (by omega)] at hint
      omega
    have hbase := h.base.pop
    rw [if_neg hi, if_neg (not_not.mpr hpl)]
    refine ⟨⟨hbase.list, hbase.nextIndex, hbase.seq, hbase.room, hbase.len, hbase.place⟩,
      hlogs.pop hpl hx hi0 hf, fun q y hq => h.flags q y (Nat.lt_of_lt_of_le hq (Nat.sub_le _ _)),
      ?_, h.trace⟩
    refine ⟨before, mid, ps, rfl, ht.tick, ht.sorted, fun q hq => ?_, ht.served⟩
    have hq1 : p < q := hlt q hq
    have hq2 := (ht.there q hq).1
    omega

/-- the last timer is lost if another one goes -/
theorem Inv.ret_fits {now : Int64} {id : Val} (h : Inv l) (hphase : l.phase = .call t id p ids)
    (hs : Timers.ret c l now id p = some l') (hd : Denotes l') : Fits l (.ret now) := by
  intro t' id' q ids' x hph hx hi
  have hok := h.phase
  have hlogs := h.logs
  rw [hphase] at hok hph hlogs
  obtain ⟨rfl, rfl, rfl, rfl⟩ := Phase.call.inj hph
  obtain ⟨before, mid, ps, rfl, rfl, hp, -, -, -⟩ := hok
  have hp : p < l.timers.len := hp
  have hlen := h.base.len
  have hroom := h.base.room
  by_contra hne
  have hpl : p ≠ l.timers.len - 1 := fun hh => hne (by rw [← hh]; rfl)
  rw [ret_cases h.base hp hx, if_neg (not_pos.mpr hi), if_pos hpl] at hs
  obtain rfl := Option.some.inj hs
  obtain ⟨w, i, hm⟩ := h.logs.all (l.timers.len - 1) (by omega)
  obtain ⟨-, y, hy, rfl, -⟩ := h.logs.made _ _ _ _ hm
  have hint := toInt_ofNat (n := l.timers.len - 1) (by omega)
  have hget : hpArrGet { l.timers.moveVal p (l.timers.len - 1) with len := l.timers.len - 1 }
      (.int (Int64.ofNat (l.timers.len - 1))) = some .null := by
    rw [get_list (by exact h.base.list), hint, if_pos (.inr (Int.le_refl _))]
  rcases hd _ _ _ _ hm with h1 | ⟨hi', hf, -⟩
  · exact absurd (hget.symm.trans h1) (by simp)
  · exact hlogs.fresh _ y (by omega) hy hi' (fun hh => hpl (Option.some.inj hh)) hf

end

/-! ## runs -/

variable {c : Calls} {act : Act}

/-- **a step that fits keeps the invariant** -/
theorem Inv.step (h : Inv l) (hs : step c l act = some l') (hfit : Fits l act) : Inv l' := by
  cases act with
  | after now ms =>
    rw [Timers.step] at hs
    split at hs
    · exact h.create hs hfit
    · cases hs
  | every now ms =>
    rw [Timers.step] at hs
    split at hs
    · exact h.create hs hfit
    · cases hs
  | cancelTimer id =>
    rw [Timers.step] at hs
    split at hs
    · exact h.cancel hs
    · cases hs
  | tick t =>
    rw [Timers.step] at hs
    split at hs
    · next hidle =>
      obtain rfl := Option.some.inj hs
      exact h.tick hidle
    · cases hs
  | next =>
    rw [Timers.step] at hs
    split at hs
    · next t ids hphase => exact h.next hphase hs hfit
    · cases hs
  | ret now =>
    rw [Timers.step] at hs
    split at hs
    · next t id p ids hphase =>
      obtain ⟨l1, h1, rfl⟩ := Option.map_eq_some_iff.mp hs
      exact h.ret hphase h1 hfit
    · cases hs

/-- **behind a step that does not fit something is wrong** -/
theorem Inv.fits (h : Inv l) (hs : Timers.step c l act = some l') (hgood : Good l') :
    Fits l act := by
  cases act with
  | after now ms =>
    rw [Timers.step] at hs
    split at hs
    · exact h.create_fits hs hgood.denotes
    · cases hs
  | every now ms =>
    rw [Timers.step] at hs
    split at hs
    · exact h.create_fits hs hgood.denotes
    · cases hs
  | cancelTimer id => trivial
  | tick t => trivial
  | next =>
    rw [Timers.step] at hs
    split at hs
    · next t ids hphase => exact h.next_fits hphase hs hgood.trace
    · cases hs
  | ret now =>
    rw [Timers.step] at hs
    split at hs
    · next t id p ids hphase =>
      obtain ⟨l1, h1, rfl⟩ := Option.map_eq_some_iff.mp hs
      exact h.ret_fits hphase h1 hgood.denotes
    · cases hs

end

/-- **The timers of a loop**: in every run, whatever the callbacks call and the clock shows, the ids
stand for their timers and the timers are invoked as they should be, in every state, if and only if
every step fits. -/
theorem timers_iff (c : Calls) (junk : Nat → Val) (acts : List Act) :
    (∀ p l, p <+: acts → (loops c).run (new junk) p = some l → Good l) ↔
      ∀ p act l l', p ++ [act] <+: acts → (loops c).run (new junk) p = some l →
        (loops c).next l act = some l' → Fits l act :=
  Runs.Sys.run_iff (Inv.new junk) (fun _ h => h.good) (fun _ _ _ h hs hf => h.step hs hf)
    fun _ _ _ h hs hg => h.fits hs hg

def noCalls : Calls where
  strtod := fun _ => ⟨0⟩
  add := fun a _ => a
  sub := fun a _ => a
  mul := fun a _ => a
  hpArrMerge := fun p _ => .arr p
  hpStrConcat2 := fun a _ => a
  hpStrIsNumeric := fun _ => false

/-- two one-shot timers that are due in one tick: the first one goes, the second one is at its place
then, and `null` is called for it -/
theorem timers_two : ¬ ∀ (c : Calls) (junk : Nat → Val) (acts p : List Act) (l : Loop),
    p <+: acts → (loops c).run (new junk) p = some l → Good l := by
  intro hall
  have hrun : ∃ l, (loops noCalls).run (new blank)
      [.after 0 0, .after 0 0, .tick 0, .next, .ret 0, .next] = some l ∧
      l.trace = [.created 0 0 0 0, .created 1 1 0 0, .began 0, .fired 0, .thrown] :=
    ⟨_, rfl, rfl⟩
  obtain ⟨l, hl, htr⟩ := hrun
  have hgood := hall noCalls blank _ _ l (List.prefix_refl _) hl
  exact hgood.trace [.created 0 0 0 0, .created 1 1 0 0, .began 0, .fired 0] .thrown [] htr

end Timers
end HolyPhp
