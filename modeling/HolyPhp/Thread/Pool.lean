import Mathlib.Algebra.Order.BigOperators.Group.Finset
import HolyPhp.Runtime.ArrList
import HolyPhp.Runtime.Sort
import HolyPhp.Thread.ChanDelivery

/-!
# `Pool::map`

One call of `Pool::map` on a list, with its threads; the callable is a function of the item and
the index.  A worker has the jobs `w, w + nw, ..`; job `i` sends under the number `i`, and receive
`k` of the collector has the number `n + k`.

* `mainStep c s`, `workerStep c s w`  the next step of the calling thread and of worker `w`;
* `arrivals s`     the jobs whose results the collector has got, in the order they came in;
* `Good c σ`       the first result is not that of job 0, and the map does not get full; or the
                   results come in order, and they ascend as values;
* `pool_returns`   **on every run the results come in another way, or the call returns the list**.

The results go into an array under their indices.  When the first one is not that of job 0 the
array becomes a map, and `ksort` sorts it by the keys.  When all come in order it is a list, and
`ksort` sorts that by its values.
-/

set_option linter.unusedVariables false
set_option autoImplicit false

namespace HolyPhp
namespace Pool
open Function Runs Arr Graph HolyPhp.Std Sorting

/-- a call of `map`, and what it is given by the system -/
structure Input where
  fn : Val → Val → Val
  items : Harr
  /-- the argument of the constructor -/
  workersArg : Int64
  strtod : Bytes → Double
  qsort : (α : Type) → (α → α → Int) → List α → List α
  /-- new memory holds this -/
  junk : Nat → Val
  list : items.isMap = false
  /-- a position and a stride after it fit into an `int64_t` -/
  fits : items.len + workersArg.toInt.toNat < 2 ^ 63

inductive Worker where
  /-- not spawned -/
  | off
  /-- at the head of its loop -/
  | ready (i : Nat)
  /-- in `chan_send` of job `i` -/
  | sending (i : Nat)

/-- where the calling thread stands -/
inductive Main where
  /-- at the head of the first loop -/
  | spawn (w : Nat)
  /-- at the head of the second one, with `$out` -/
  | collect (k : Nat) (out : Harr)
  /-- in `chan_recv` -/
  | recv (k : Nat) (out : Harr)
  | done (vals : Harr)

structure State where
  ch : Chan.State Bytes
  /-- the array behind the message of the job -/
  msg : Nat → Harr
  worker : Nat → Worker
  main : Main

namespace Input
variable (c : Input)

def n : Nat := c.items.len

/-- `$this->workers` -/
def nw : Nat := if c.workersArg < 1 then 1 else c.workersArg.toInt.toNat

/-- `[$i, $r]` -/
def message (i : Nat) (r : Val) : Harr :=
  hpArrPush (hpArrPush (hpArrNew c.junk) (.int (Int64.ofNat i))) r

/-- `ksort($out); foreach ($out as $v) { $vals[] = $v; }` -/
def finish (out : Harr) : Harr :=
  let out := hpbiKsort c.strtod c.qsort out
  (List.range out.len).foldl (fun vals i => hpArrPush vals (out.vals i)) (hpArrNew c.junk)

/-- the result of job `i` in a sequential map -/
def result (i : Nat) : Val := c.fn (c.items.vals i) (.int (Int64.ofNat i))

end Input

/-- `hp_arr_get_v` -/
def hpArrGetV (mem : Nat → Harr) : Val → Val → Option Val
  | .arr (some p), idx => hpArrGet (mem p) idx
  | .str s, idx =>
    let i := (hpValToInt idx).toInt
    some (.str (some (if i < 0 then [] else (((s.getD [])[i.toNat]?).toList))))
  | _, _ => some .null

/-- `$out[$msg[0]] = $msg[1]` -/
def store (s : State) (out : Harr) (msg : Val) : Option Harr :=
  (hpArrGetV s.msg msg (.int 0)).bind fun k => (hpArrGetV s.msg msg (.int 1)).bind fun v =>
    hpArrSet out k v

def workerStep (c : Input) (s : State) (w : Nat) : Option State :=
  match s.worker w with
  | .off => none
  | .ready i =>
    if i < c.n then
      (hpArrGet c.items (.int (Int64.ofNat i))).map fun x =>
        { s with
          msg := update s.msg i (c.message i (c.fn x (.int (Int64.ofNat i))))
          ch := Chan.chanSendImpl s.ch i (.arr (some i)) true
          worker := update s.worker w (.sending i) }
    else none
  | .sending i =>
    match s.ch.call i with
    | .sent _ true => some { s with worker := update s.worker w (.ready (i + c.nw)) }
    | .sendWait => if (s.ch.wtr i).done then some { s with ch := Chan.chanSendWake s.ch i } else none
    | _ => none

def mainStep (c : Input) (s : State) : Option State :=
  match s.main with
  | .spawn w =>
    if w < c.nw then some { s with worker := update s.worker w (.ready w), main := .spawn (w + 1) }
    else some { s with main := .collect 0 (hpArrNew c.junk) }
  | .collect k out =>
    if k < c.n then some { s with ch := Chan.chanRecvBody s.ch (c.n + k) true, main := .recv k out }
    else some { s with ch := Chan.hpbiChanClose s.ch, main := .done (c.finish out) }
  | .recv k out =>
    match s.ch.call (c.n + k) with
    | .got m => (store s out (m.getD (.bool false))).map fun out =>
        { s with main := .collect (k + 1) out }
    | .recvWait =>
      if (s.ch.wtr (c.n + k)).done then some { s with ch := Chan.chanRecvWake s.ch (c.n + k) }
      else none
    | _ => none
  | .done _ => none

inductive Act where
  | main
  | worker (w : Nat)

def next (c : Input) (s : State) : Act → Option State
  | .main => mainStep c s
  | .worker w => workerStep c s w

/-- behind `chan_new($n)`; without items the call returns at once -/
def start (c : Input) : State where
  ch := Chan.start (Int64.ofNat c.n)
  msg := fun _ => hpArrNew c.junk
  worker := fun _ => .off
  main := if c.n = 0 then .done (hpArrNew c.junk) else .spawn 0

def sys (c : Input) : Sys State Act := ⟨fun s => s = start c, next c⟩

/-- the call has returned the list of the results -/
def Returned (c : Input) (s : State) : Prop :=
  ∃ vals, s.main = .done vals ∧ vals.isMap = false ∧ values vals = (List.range c.n).map c.result

/-- the job that a message is of -/
def jobOf : Val → Nat
  | .arr (some i) => i
  | _ => 0

/-- the jobs in the order in which their results came to the collector -/
def arrivals (s : State) : List Nat := s.ch.left.map fun p => jobOf p.2

/-- the ways of the results to come in that the collector can take -/
def Good (c : Input) (σ : List Nat) : Prop :=
  σ = [] ∨ (σ.head? ≠ some 0 ∧ c.n < full) ∨
    (σ = List.range σ.length ∧
      Ascending (Cmp.hpValCmp c.strtod) ((List.range c.n).map c.result))

/-! ## the array of the collector -/

/-- `$out` when the results of the jobs of `σ` are in it -/
inductive Gathered (c : Input) : List Nat → Harr → Prop
  | empty : Gathered c [] (hpArrNew c.junk)
  | list {k : Nat} {out : Harr} : 0 < k → out.isMap = false →
      out.nextIndex = Int64.ofNat out.len → values out = (List.range k).map c.result →
      Gathered c (List.range k) out
  | map {σ : List Nat} {out : Harr} : c.n < full → Filled out →
      out.entries = σ.map (fun j => (.int (Int64.ofNat j), c.result j)) → Gathered c σ out

section
variable {c : Input} {σ : List Nat} {out : Harr} {j : Nat}

theorem head_range {k : Nat} (hk : 0 < k) : (List.range k).head? = some 0 := by
  rw [List.head?_range, if_neg (Nat.ne_of_gt hk)]

/-- behind the result of job 0 all others come in order -/
theorem Good.in_order (h : Good c σ) (hhead : σ.head? = some 0) :
    σ = List.range σ.length ∧
      Ascending (Cmp.hpValCmp c.strtod) ((List.range c.n).map c.result) := by
  rcases h with rfl | ⟨hne, -⟩ | h
  · cases hhead
  · exact absurd hhead hne
  · exact h

theorem n_lt (c : Input) : c.n < 2 ^ 63 := Nat.lt_of_le_of_lt (Nat.le_add_right ..) c.fits

/-- the array of a map takes one more result -/
theorem set_filled (h : Filled out) (hlt : σ.length < c.n) (hn : c.n < full) (hj : j < c.n)
    (hnew : j ∉ σ) (hσ : ∀ i ∈ σ, i < c.n)
    (he : out.entries = σ.map fun j => (.int (Int64.ofNat j), c.result j)) :
    ∃ b, hpArrSet out (.int (Int64.ofNat j)) (c.result j) = some b ∧ Gathered c (σ ++ [j]) b := by
  have hint : ∀ i, i < c.n → (Int64.ofNat i).toInt = i :=
    fun i hi => toInt_ofNat (hi.trans (n_lt c))
  have hmax : (.int (Int64.ofNat j) : Val) ≠ .int Int64.maxValue := by
    intro h
    have heq := congrArg Int64.toInt (HVal.int.inj h)
    rw [hint j hj] at heq
    have : (j : Int) = 2 ^ 63 - 1 := heq
    unfold full at hn
    omega
  have hlen : out.len = σ.length := by rw [← length_entries, he, List.length_map]
  obtain ⟨b, hb, hf, hent⟩ := h.set (v := c.result j) rfl hmax fun _ => by omega
  refine ⟨b, hb, .map hn hf ?_⟩
  rw [hent, he, List.map_append, List.map_singleton]
  apply Assoc.assign_new
  intro p hp heq
  obtain ⟨i, hi, rfl⟩ := List.mem_map.mp hp
  have hij := congrArg Int64.toInt (HVal.int.inj heq)
  rw [hint i (hσ i hi), hint j hj] at hij
  exact hnew (Int.ofNat.inj hij ▸ hi)

/-- a first key that is not 0 makes the new array a map -/
theorem set_first (junk : Nat → Val) {i : Int64} (hi : i ≠ 0) (v : Val) :
    hpArrSet (hpArrNew junk) (.int i) v = hpArrSet (emptyMap junk) (.int i) v := by
  have hne : (i != 0) = true := bne_iff_ne.mpr hi
  have hkey : hpKeyIndex (hpArrNew junk) (.int i) = some none := by
    rw [keyIndex_list rfl, if_pos]
    by_cases h : i.toInt < 0
    · exact .inl h
    · exact .inr (Int.not_lt.mp h)
  have happ : (hpArrNew junk).append (.int i) v = (emptyMap junk).append (.int i) v := by
    have : (hpArrNew junk).converts (.int i) = true := hne
    rw [Harr.append, Harr.append, this]
    rfl
  rw [hpArrSet, hpArrSet, hkey, happ]
  rfl

/-- a list takes the result that comes next -/
theorem set_list_next {k : Nat} (hm : out.isMap = false) (hn : out.nextIndex = Int64.ofNat out.len)
    (hv : values out = (List.range k).map c.result) (hk : k < c.n) :
    ∃ b, hpArrSet out (.int (Int64.ofNat k)) (c.result k) = some b ∧
      Gathered c (List.range (k + 1)) b := by
  have hlt := n_lt c
  obtain ⟨hlen, hvals⟩ := values_eq.mp hv
  rw [← hlen, ← hn]
  have hno : hpArrHas out (.int out.nextIndex) = some false := by
    rw [has_list hm, hn, toInt_ofNat (by omega)]
    exact .inr (Int.le_refl _)
  obtain ⟨b, hb, hmap⟩ := set_next hm hno (c.result k)
  obtain ⟨-, hblen, hbvals, hbnext⟩ := set_list hm hno hb hmap
  rw [hlen]
  refine ⟨b, hb, .list (Nat.succ_pos k) hmap ?_ (values_eq.mpr ⟨by omega, fun i hi => ?_⟩)⟩
  · rw [hbnext, hn, hblen, ofNat_succ]
  · rw [hbvals, hlen]
    by_cases e : i = k
    · rw [e, update_self]
    · rw [update_of_ne e]
      exact hvals i (by omega)

/-- **One result more.** -/
theorem Gathered.step (h : Gathered c σ out) (hg : Good c (σ ++ [j])) (hj : j < c.n)
    (hnew : j ∉ σ) (hσ : ∀ i ∈ σ, i < c.n) (hlt : σ.length < c.n) :
    ∃ b, hpArrSet out (.int (Int64.ofNat j)) (c.result j) = some b ∧ Gathered c (σ ++ [j]) b := by
  cases h with
  | empty =>
    by_cases h0 : j = 0
    · rw [h0]
      exact set_list_next (k := 0) rfl rfl rfl hlt
    · have hn : c.n < full := by
        rcases hg with hnil | ⟨-, hn⟩ | ⟨hr, -⟩
        · cases hnil
        · exact hn
        · exact absurd (List.cons.inj hr).1 h0
      have hi : Int64.ofNat j ≠ 0 := by
        intro h
        have := congrArg Int64.toInt h
        rw [toInt_ofNat (hj.trans (n_lt c))] at this
        exact h0 (Int.ofNat.inj this)
      rw [set_first c.junk hi]
      exact set_filled (σ := []) (emptyMap_filled c.junk) hlt hn hj hnew hσ rfl
  | @list k out hk hm hn hv =>
    obtain ⟨hr, -⟩ := hg.in_order (by rw [List.head?_append, head_range hk]; rfl)
    rw [List.length_append, List.length_range, List.length_singleton, List.range_succ] at hr
    have hjk : j = k := List.singleton_inj.mp (List.append_cancel_left hr)
    rw [List.length_range] at hlt
    obtain ⟨b, hb, hgb⟩ := set_list_next hm hn hv hlt
    rw [hjk]
    refine ⟨b, hb, ?_⟩
    rwa [List.range_succ] at hgb
  | map hn hf he => exact set_filled hf hlt hn hj hnew hσ he

theorem pushes_values (junk f : Nat → Val) (n : Nat) :
    let a := (List.range n).foldl (fun a i => hpArrPush a (f i)) (hpArrNew junk)
    a.isMap = false ∧ values a = (List.range n).map f := by
  obtain ⟨hm, hlen, hvals⟩ := pushes_spec junk f n
  exact ⟨hm, values_eq.mpr ⟨hlen, hvals⟩⟩

/-- the second list has the values of the sorted array -/
theorem finish_values (c : Input) (out : Harr) : (c.finish out).isMap = false ∧
    values (c.finish out) = values (hpbiKsort c.strtod c.qsort out) :=
  pushes_values c.junk (hpbiKsort c.strtod c.qsort out).vals _

/-- **What the call makes of all results.** -/
theorem Gathered.finish (h : Gathered c σ out) (hs : Sorts c.qsort) (hg : Good c σ)
    (hp : σ.Perm (List.range c.n)) :
    (c.finish out).isMap = false ∧ values (c.finish out) = (List.range c.n).map c.result := by
  obtain ⟨hlist, hfin⟩ := finish_values c out
  refine ⟨hlist, hfin.trans ?_⟩
  have hlen := hp.length_eq
  rw [List.length_range] at hlen
  cases h with
  | empty =>
    rw [← hlen]
    rfl
  | @list k out hk hm hn hv =>
    obtain ⟨-, hasc⟩ := hg.in_order (head_range hk)
    rw [List.length_range] at hlen
    rw [← hlen, ← hv] at hasc ⊢
    exact ksort_list hs hm hasc (List.Perm.refl _)
  | map hn hf he =>
    apply ksort_map hs hf.map
    · exact fun hpos => hf.sound.keyed hf.map (hpos.trans_le hf.sound.steady.len_le)
    · unfold full at hn
      omega
    · rw [he]
      exact hp.map _

end

/-! ## the invariant -/

/-- the send of job `i` lies behind the worker -/
def Worker.Past (i : Nat) : Worker → Prop
  | .off => False
  | .ready j => i < j
  | .sending j => i ≤ j

def Sent (c : Input) (s : State) (i : Nat) : Prop := (s.worker (i % c.nw)).Past i

/-- a worker stands at a job of its own -/
def Stands (c : Input) (w : Nat) : Worker → Prop
  | .off => True
  | .ready i => w < c.nw ∧ i % c.nw = w
  | .sending i => w < c.nw ∧ i % c.nw = w ∧ i < c.n

/-- the channel and the workers -/
structure Core (c : Input) (s : State) : Prop where
  chan : (Chan.sys Bytes).ReachIf Chan.NoNullHandoff s.ch
  cap : s.ch.ch.cap = c.n
  stands : ∀ w, Stands c w (s.worker w)
  calls : ∀ i, i < c.n → (s.ch.call i = .idle ∧ ¬ Sent c s i) ∨
    (s.ch.call i = .sent (.arr (some i)) true ∧ Sent c s i)
  msgs : ∀ i, i < c.n → Sent c s i → s.msg i = c.message i (c.result i)
  entered : ∀ p ∈ s.ch.entered, p.1 < c.n ∧ p.2 = .arr (some p.1)

/-- the calls of receives apart from number `k`: the ones before it have returned -/
def Quiet (c : Input) (s : State) (k : Nat) : Prop :=
  ∀ j, c.n ≤ j → j ≠ c.n + k →
    (c.n + k ≤ j → s.ch.call j = .idle) ∧ (j < c.n + k → ∃ o, s.ch.call j = .got o)

/-- receive `k`, when the results of `σ` are in the array -/
inductive Receiving (c : Input) (s : State) (k : Nat) (σ : List Nat) : Prop
  | asleep : s.ch.call (c.n + k) = .recvWait → (s.ch.wtr (c.n + k)).done = false →
      s.ch.ch.recvq = [c.n + k] → arrivals s = σ → Receiving c s k σ
  | handed (j : Nat) : s.ch.call (c.n + k) = .recvWait →
      s.ch.wtr (c.n + k) = ⟨.arr (some j), true⟩ → arrivals s = σ ++ [j] → Receiving c s k σ
  | got (j : Nat) : s.ch.call (c.n + k) = .got (some (.arr (some j))) →
      arrivals s = σ ++ [j] → Receiving c s k σ

/-- all workers were spawned -/
def Spawned (c : Input) (s : State) : Prop := ∀ w, w < c.nw → s.worker w ≠ .off

def Place (c : Input) (s : State) : Main → Prop
  | .spawn w => s.ch.ch.closed = false ∧ Quiet c s 0 ∧ s.ch.call c.n = .idle ∧ arrivals s = [] ∧
      w ≤ c.nw ∧ ∀ v, v < c.nw → (s.worker v ≠ .off ↔ v < w)
  | .collect k out => s.ch.ch.closed = false ∧ Quiet c s k ∧ s.ch.call (c.n + k) = .idle ∧
      Spawned c s ∧ k ≤ c.n ∧ (arrivals s).length = k ∧ Gathered c (arrivals s) out
  | .recv k out => s.ch.ch.closed = false ∧ Quiet c s k ∧ Spawned c s ∧ k < c.n ∧
      ∃ σ, σ.length = k ∧ Gathered c σ out ∧ Receiving c s k σ
  | .done vals => (arrivals s).length = c.n ∧ (vals = hpArrNew c.junk ∧ c.n = 0 ∨
      ∃ out, vals = c.finish out ∧ Gathered c (arrivals s) out)

structure Inv (c : Input) (s : State) : Prop where
  core : Core c s
  place : Place c s s.main

section
variable {c : Input} {s t : State} {i j k w : Nat} {out : Harr} {σ : List Nat}

/-! ### what has arrived -/

namespace Core

theorem inv (h : Core c s) : Chan.Inv s.ch := Chan.Inv.reach h.chan.reach

theorem delivered (h : Core c s) : Chan.Delivered s.ch := Chan.delivered_of_noNull h.chan

theorem entered_vals (h : Core c s) : s.ch.entered.map Prod.snd =
    (s.ch.entered.map Prod.fst).map fun i => (.arr (some i) : Val) := by
  rw [List.map_map]
  apply List.map_congr_left
  exact fun p hp => (h.entered p hp).2

/-- the jobs that have arrived are the first ones that were sent -/
theorem arrivals_eq (h : Core c s) :
    arrivals s = (s.ch.entered.map Prod.fst).take s.ch.left.length := by
  have hfifo := congrArg (List.take s.ch.left.length) h.inv.fifo
  rw [List.take_left' (by rw [List.length_map]), h.entered_vals, ← List.map_take] at hfifo
  have harr : arrivals s = (s.ch.left.map Prod.snd).map jobOf := by
    rw [List.map_map]
    rfl
  rw [harr, ← hfifo, List.map_map]
  exact List.map_id _

theorem length_arrivals : (arrivals s).length = s.ch.left.length := List.length_map _

/-- the jobs of the channel have been sent -/
theorem sent_of_entered (h : Core c s) (hi : i ∈ s.ch.entered.map Prod.fst) :
    i < c.n ∧ Sent c s i := by
  obtain ⟨p, hp, rfl⟩ := List.mem_map.mp hi
  have hlt := (h.entered p hp).1
  refine ⟨hlt, ?_⟩
  rcases h.calls p.1 hlt with ⟨hidle, -⟩ | ⟨-, hs⟩
  · rcases h.delivered.entered_call p.1 p.2 hp with hc | hc
    · rw [hidle] at hc; cases hc
    · rw [hidle] at hc; cases hc
  · exact hs

theorem entered_of_sent (h : Core c s) (hi : i < c.n) (hs : Sent c s i) :
    i ∈ s.ch.entered.map Prod.fst := by
  rcases h.calls i hi with ⟨-, hns⟩ | ⟨hc, -⟩
  · exact absurd hs hns
  · obtain ⟨k, hk, -⟩ := h.delivered.once i _ hc
    exact List.mem_map.mpr ⟨_, List.mem_of_getElem? hk, rfl⟩

theorem nodup (h : Core c s) : (arrivals s).Nodup := by
  rw [h.arrivals_eq]
  exact h.delivered.sends_nodup.sublist (List.take_sublist _ _)

theorem arrived (h : Core c s) (hj : j ∈ arrivals s) : j < c.n ∧ Sent c s j := by
  rw [h.arrivals_eq] at hj
  exact h.sent_of_entered (List.mem_of_mem_take hj)

/-- no send sleeps -/
theorem sendq_nil (h : Core c s) (hr : ∀ j, c.n ≤ j → s.ch.call j ≠ .sendWait) :
    s.ch.ch.sendq = [] := by
  apply List.eq_nil_iff_forall_not_mem.mpr
  intro j hj
  have hw := (h.inv.sendq_wait j hj).1
  by_cases hlt : j < c.n
  · rcases h.calls j hlt with ⟨hc, -⟩ | ⟨hc, -⟩
    · rw [hc] at hw; cases hw
    · rw [hc] at hw; cases hw
  · exact hr j (by omega) hw

/-- only receives wait in the queue, and those that are not done -/
theorem of_recvq (h : Core c s) (hj : j ∈ s.ch.ch.recvq) :
    c.n ≤ j ∧ s.ch.call j = .recvWait ∧ (s.ch.wtr j).done = false := by
  obtain ⟨hw, hd⟩ := h.inv.recvq_wait j hj
  refine ⟨?_, hw, hd⟩
  by_contra hlt
  rcases h.calls j (by omega) with ⟨hc, -⟩ | ⟨hc, -⟩
  · rw [hc] at hw; cases hw
  · rw [hc] at hw; cases hw

/-- another state with the same workers and sends -/
theorem of_chan (h : Core c s) {l : Chan.Act Bytes} (hl : Chan.next s.ch l = some t.ch)
    (hnn : Chan.NoNullHandoff s.ch l) (hcap : t.ch.ch.cap = s.ch.ch.cap)
    (hent : t.ch.entered = s.ch.entered) (hcall : ∀ j, j < c.n → t.ch.call j = s.ch.call j)
    (hmsg : t.msg = s.msg) (hw : t.worker = s.worker) : Core c t := by
  have hsent : ∀ i, Sent c t i ↔ Sent c s i := fun i => by rw [Sent, Sent, hw]
  refine ⟨h.chan.step hnn hl, hcap.trans h.cap, fun w => hw ▸ h.stands w, fun i hi => ?_,
    fun i hi hs => ?_, fun p hp => h.entered p (hent ▸ hp)⟩
  · rw [hcall i hi, hsent]
    exact h.calls i hi
  · rw [hmsg]
    exact h.msgs i hi ((hsent i).mp hs)

/-- what left is the messages of the jobs that have arrived -/
theorem left_vals (h : Core c s) :
    s.ch.left.map Prod.snd = (arrivals s).map fun i => (.arr (some i) : Val) := by
  have hfifo := congrArg (List.take s.ch.left.length) h.inv.fifo
  rw [List.take_left' (by rw [List.length_map]), h.entered_vals, ← List.map_take] at hfifo
  rw [h.arrivals_eq, hfifo]

/-- until all jobs are sent a send finds room -/
theorem room (h : Core c s) (hsq : s.ch.ch.sendq = []) (hi : i < c.n) (hns : ¬ Sent c s i) :
    0 < s.ch.ch.cap ∧ s.ch.ch.len < s.ch.ch.cap := by
  have hlt : (s.ch.entered.map Prod.fst).length < c.n :=
    length_lt_of_nodup h.delivered.sends_nodup (fun j hj => (h.sent_of_entered hj).1) hi
      fun hin => hns (h.sent_of_entered hin).2
  have hlen := congrArg List.length h.inv.fifo
  rw [Chan.State.held, Chan.State.queued, hsq, List.map_nil, List.append_nil, List.length_append,
    List.length_map, List.length_map, Chan.ChanRec.live, Ring.length_contents] at hlen
  rw [List.length_map] at hlt
  rw [h.cap]
  omega

/-- when the last job is sent and the channel is empty, all have arrived -/
theorem all_arrived (h : Core c s) (hsq : s.ch.ch.sendq = []) (hlen : s.ch.ch.len = 0)
    (hall : ∀ i, i < c.n → Sent c s i) : c.n ≤ (arrivals s).length := by
  have hheld : s.ch.held = [] := by
    rw [Chan.State.held, Chan.State.queued, hsq, Chan.live_of_len_zero hlen]
    rfl
  have hfifo := congrArg List.length h.inv.fifo
  rw [hheld, List.append_nil, List.length_map, List.length_map] at hfifo
  have hsub : List.range c.n ⊆ s.ch.entered.map Prod.fst := fun i hi =>
    h.entered_of_sent (List.mem_range.mp hi) (hall i (List.mem_range.mp hi))
  have hle := (List.nodup_range.subperm hsub).length_le
  rw [List.length_range, List.length_map] at hle
  rw [length_arrivals]
  omega

end Core

/-! ### workers -/

/-- behind the send of job `i` by worker `w`, with the channel `u` -/
def State.posted (s : State) (c : Input) (w i : Nat) (u : Chan.State Bytes) : State :=
  { s with
    msg := update s.msg i (c.message i (c.result i))
    ch := u
    worker := update s.worker w (.sending i) }

theorem not_sent (h : Core c s) (hw : s.worker w = .ready i) : ¬ Sent c s i := by
  have hst := h.stands w
  rw [hw] at hst
  rw [Sent, hst.2, hw]
  exact Nat.lt_irrefl i

theorem sent_posted (h : Core c s) (hw : s.worker w = .ready i) (u : Chan.State Bytes) :
    Sent c (s.posted c w i u) j ↔ j = i ∨ Sent c s j := by
  have hst := h.stands w
  rw [hw] at hst
  rw [Sent, Sent]
  show (update s.worker w (.sending i) (j % c.nw)).Past j ↔ _
  by_cases hj : j % c.nw = w
  · rw [hj, update_self, hw]
    show j ≤ i ↔ j = i ∨ j < i
    omega
  · rw [update_of_ne hj]
    refine ⟨.inr, fun h => h.resolve_left ?_⟩
    rintro rfl
    exact hj hst.2

theorem Core.posted (h : Core c s) (hw : s.worker w = .ready i) (hi : i < c.n)
    {u : Chan.State Bytes} (hu : Chan.chanSendImpl s.ch i (.arr (some i)) true = u)
    (hcap : u.ch.cap = s.ch.ch.cap) (hent : u.entered = s.ch.entered ++ [(i, .arr (some i))])
    (hcall : u.call = update s.ch.call i (.sent (.arr (some i)) true)) :
    Core c (s.posted c w i u) := by
  have hns := not_sent h hw
  have hidle : s.ch.call i = .idle := by
    rcases h.calls i hi with ⟨hc, -⟩ | ⟨-, hs⟩
    · exact hc
    · exact absurd hs hns
  refine ⟨?_, hcap.trans h.cap, fun v => ?_, fun j hj => ?_, fun j hj hs => ?_, fun p hp => ?_⟩
  · refine h.chan.step (l := .send i (.arr (some i)) true) (.inl nofun) ?_
    show Chan.next s.ch (.send i (.arr (some i)) true) = some u
    rw [Chan.next, hidle, hu]
  · show Stands c v (update s.worker w (.sending i) v)
    by_cases e : v = w
    · have hst := h.stands w
      rw [hw] at hst
      rw [e, update_self]
      exact ⟨hst.1, hst.2, hi⟩
    · rw [update_of_ne e]
      exact h.stands v
  · rw [sent_posted h hw]
    show (u.call j = _ ∧ _) ∨ (u.call j = _ ∧ _)
    rw [hcall]
    by_cases e : j = i
    · rw [e, update_self]
      exact .inr ⟨rfl, .inl rfl⟩
    · rw [update_of_ne e]
      rcases h.calls j hj with ⟨hc, hs⟩ | ⟨hc, hs⟩
      · exact .inl ⟨hc, fun h => hs (h.resolve_left e)⟩
      · exact .inr ⟨hc, .inr hs⟩
  · show update s.msg i _ j = _
    by_cases e : j = i
    · rw [e, update_self]
    · rw [update_of_ne e]
      exact h.msgs j hj (((sent_posted h hw u).mp hs).resolve_left e)
  · rcases List.mem_append.mp (hent ▸ hp : p ∈ s.ch.entered ++ _) with hp | hp
    · exact h.entered p hp
    · rw [List.mem_singleton.mp hp]
      exact ⟨hi, rfl⟩

/-- no receive sleeps -/
theorem Core.recvq_nil (h : Core c s)
    (hr : ∀ j, c.n ≤ j → s.ch.call j = .recvWait → (s.ch.wtr j).done = true) :
    s.ch.ch.recvq = [] := by
  apply List.eq_nil_iff_forall_not_mem.mpr
  intro j hj
  obtain ⟨hle, hw, hd⟩ := h.of_recvq hj
  rw [hr j hle hw] at hd
  cases hd

theorem Quiet.cases (h : Quiet c s k) (hj : c.n ≤ j) (hne : j ≠ c.n + k) :
    s.ch.call j = .idle ∨ ∃ o, s.ch.call j = .got o := by
  by_cases hlt : j < c.n + k
  · exact .inr ((h j hj hne).2 hlt)
  · exact .inl ((h j hj hne).1 (Nat.le_of_not_lt hlt))

/-- where the calling thread has not finished, sends do not sleep -/
theorem Inv.sendq_nil (h : Inv c s) (hd : ∀ vals, s.main ≠ .done vals) : s.ch.ch.sendq = [] := by
  apply h.core.sendq_nil
  have hquiet : ∀ k x, Quiet c s k → s.ch.call (c.n + k) = x → x ≠ .sendWait →
      ∀ j, c.n ≤ j → s.ch.call j ≠ .sendWait := by
    intro k x hq hx hne j hj
    by_cases e : j = c.n + k
    · rw [e, hx]
      exact hne
    · rcases hq.cases hj e with hc | ⟨o, hc⟩ <;> rw [hc] <;> exact nofun
  have hp := h.place
  cases hm : s.main with
  | spawn w =>
    rw [hm] at hp
    exact hquiet 0 _ hp.2.1 hp.2.2.1 nofun
  | collect k out =>
    rw [hm] at hp
    exact hquiet k _ hp.2.1 hp.2.2.1 nofun
  | recv k out =>
    rw [hm] at hp
    obtain ⟨-, hq, -, -, σ, -, -, hr⟩ := hp
    cases hr with
    | asleep hc _ _ _ => exact hquiet k _ hq hc nofun
    | handed j hc _ _ => exact hquiet k _ hq hc nofun
    | got j hc _ => exact hquiet k _ hq hc nofun
  | done vals => exact absurd hm (hd vals)

/-- what a step of a worker leaves as it is -/
structure Aside (c : Input) (s t : State) : Prop where
  main : t.main = s.main
  closed : t.ch.ch.closed = s.ch.ch.closed
  calls : ∀ j, c.n ≤ j → t.ch.call j = s.ch.call j
  off : ∀ v, t.worker v = .off ↔ s.worker v = .off

theorem Aside.quiet (h : Aside c s t) (hq : Quiet c s k) : Quiet c t k := by
  intro j hj hne
  rw [h.calls j hj]
  exact hq j hj hne

/-- beside the channel's histories and waiters -/
theorem Aside.place (h : Aside c s t) (harr : arrivals t = arrivals s)
    (hwtr : ∀ j, c.n ≤ j → t.ch.wtr j = s.ch.wtr j) (hrq : t.ch.ch.recvq = s.ch.ch.recvq)
    {m : Main} (hp : Place c s m) : Place c t m := by
  have hspawned : Spawned c s → Spawned c t := fun hs v hv hoff => hs v hv ((h.off v).mp hoff)
  cases m with
  | spawn w =>
    obtain ⟨hcl, hq, hc, ha, hw, hall⟩ := hp
    refine ⟨h.closed.trans hcl, h.quiet hq, (h.calls _ (Nat.le_refl _)).trans hc, harr.trans ha,
      hw, fun v hv => ?_⟩
    rw [Ne, h.off v]
    exact hall v hv
  | collect k out =>
    obtain ⟨hcl, hq, hc, hsp, hk, hlen, hg⟩ := hp
    refine ⟨h.closed.trans hcl, h.quiet hq, (h.calls _ (Nat.le_add_right ..)).trans hc,
      hspawned hsp, hk, ?_, ?_⟩
    · rw [harr]
      exact hlen
    · rw [harr]
      exact hg
  | recv k out =>
    obtain ⟨hcl, hq, hsp, hk, σ, hlen, hg, hr⟩ := hp
    refine ⟨h.closed.trans hcl, h.quiet hq, hspawned hsp, hk, σ, hlen, hg, ?_⟩
    have hcall := h.calls (c.n + k) (Nat.le_add_right ..)
    have hw := hwtr (c.n + k) (Nat.le_add_right ..)
    cases hr with
    | asleep hc hd hrecvq ha =>
      exact .asleep (hcall.trans hc) (by rw [hw, hd]) (hrq.trans hrecvq) (harr.trans ha)
    | handed j hc hv ha => exact .handed j (hcall.trans hc) (hw.trans hv) (harr.trans ha)
    | got j hc ha => exact .got j (hcall.trans hc) (harr.trans ha)
  | done vals =>
    show (arrivals t).length = c.n ∧ _
    rw [harr]
    exact hp

theorem aside_posted (hw : s.worker w = .ready i) (hi : i < c.n) {u : Chan.State Bytes}
    (hcl : u.ch.closed = s.ch.ch.closed)
    (hcall : u.call = update s.ch.call i (.sent (.arr (some i)) true)) :
    Aside c s (s.posted c w i u) := by
  refine ⟨rfl, hcl, fun j hj => ?_, fun v => ?_⟩
  · show u.call j = _
    rw [hcall, update_of_ne (by omega)]
  · show update s.worker w (.sending i) v = _ ↔ _
    by_cases e : v = w
    · rw [e, update_self, hw]
      exact ⟨nofun, nofun⟩
    · rw [update_of_ne e]

/-- a send goes into the buffer, or to the receive that waits -/
theorem Inv.post (h : Inv c s) (hd : ∀ vals, s.main ≠ .done vals) (hw : s.worker w = .ready i)
    (hi : i < c.n) :
    let t := s.posted c w i (Chan.chanSendImpl s.ch i (.arr (some i)) true)
    Inv c t ∧ Aside c s t := by
  have hsq := h.sendq_nil hd
  have hroom := h.core.room hsq hi (not_sent h.core hw)
  -- nobody waits
  have hfill : s.ch.ch.closed = false → s.ch.ch.recvq = [] →
      let t := s.posted c w i (Chan.chanSendImpl s.ch i (.arr (some i)) true)
      Inv c t ∧ Aside c s t := by
    intro hcl hrq
    have hu : Chan.chanSendImpl s.ch i (.arr (some i)) true = s.ch.fill i (.arr (some i)) := by
      rw [Chan.chanSendImpl, hcl, hrq, if_neg Bool.false_ne_true]
      exact if_pos hroom
    have ha : Aside c s (s.posted c w i (s.ch.fill i (.arr (some i)))) :=
      aside_posted hw hi rfl rfl
    rw [hu]
    exact ⟨⟨h.core.posted hw hi hu rfl rfl rfl, ha.place rfl (fun _ _ => rfl) rfl h.place⟩, ha⟩
  have hnone : ∀ k, Quiet c s k → (s.ch.call (c.n + k) = .recvWait →
      (s.ch.wtr (c.n + k)).done = true) → s.ch.ch.recvq = [] := by
    intro k hq hk
    apply h.core.recvq_nil
    intro j hj hc
    by_cases e : j = c.n + k
    · exact e ▸ hk (e ▸ hc)
    · rcases hq.cases hj e with hc' | ⟨o, hc'⟩ <;> rw [hc'] at hc <;> cases hc
  have hp := h.place
  cases hm : s.main with
  | spawn v =>
    rw [hm] at hp
    exact hfill hp.1 (hnone 0 hp.2.1 fun hc => absurd (hp.2.2.1.symm.trans hc) nofun)
  | collect k out =>
    rw [hm] at hp
    exact hfill hp.1 (hnone k hp.2.1 fun hc => absurd (hp.2.2.1.symm.trans hc) nofun)
  | recv k out =>
    rw [hm] at hp
    obtain ⟨hcl, hq, hsp, hk, σ, hlen, hg, hr⟩ := hp
    cases hr with
    | handed j hc hv ha => exact hfill hcl (hnone k hq fun _ => by rw [hv])
    | got j hc ha => exact hfill hcl (hnone k hq fun hc' => absurd (hc.symm.trans hc') nofun)
    | asleep hc hdone hrq ha =>
      have hu : Chan.chanSendImpl s.ch i (.arr (some i)) true =
          s.ch.handoff i (.arr (some i)) (c.n + k) [] := by
        rw [Chan.chanSendImpl, hcl, hrq]
        rfl
      have hside : Aside c s (s.posted c w i (s.ch.handoff i (.arr (some i)) (c.n + k) [])) :=
        aside_posted hw hi rfl rfl
      rw [hu]
      refine ⟨⟨h.core.posted hw hi hu rfl rfl rfl, ?_⟩, hside⟩
      show Place c _ s.main
      rw [hm]
      refine ⟨hcl, hside.quiet hq, fun v hv hoff => hsp v hv ((hside.off v).mp hoff), hk, σ, hlen,
        hg, .handed i ((hside.calls _ (Nat.le_add_right ..)).trans hc) (update_self ..) ?_⟩
      show (s.ch.left ++ [(c.n + k, (.arr (some i) : Val))]).map (fun p => jobOf p.2) = _
      rw [List.map_append, ← ha]
      rfl
  | done vals => exact absurd hm (hd vals)

/-- a worker goes on, past no other job -/
theorem Core.move (h : Core c s) {x : Worker} (hx : Stands c w x)
    (hch : t.ch = s.ch) (hmsg : t.msg = s.msg) (hw : t.worker = update s.worker w x)
    (hsent : ∀ j, j < c.n → (Sent c t j ↔ Sent c s j)) : Core c t := by
  refine ⟨hch ▸ h.chan, hch ▸ h.cap, fun v => ?_, fun j hj => ?_, fun j hj hs => ?_,
    hch ▸ h.entered⟩
  · rw [hw]
    by_cases e : v = w
    · rw [e, update_self]
      exact hx
    · rw [update_of_ne e]
      exact h.stands v
  · rw [hch, hsent j hj]
    exact h.calls j hj
  · rw [hmsg]
    exact h.msgs j hj ((hsent j hj).mp hs)

/-- the job after `i` of a worker is `i + nw` -/
theorem lt_add_stride {m : Nat} (hm : 0 < m) (hj : j % m = i % m) : j < i + m ↔ j ≤ i := by
  constructor
  · intro hlt
    by_contra hgt
    have h1 := Nat.div_add_mod j m
    have h2 := Nat.div_add_mod i m
    have hdiv : i / m + 1 ≤ j / m := by
      by_contra hle
      have hmul : m * (j / m) ≤ m * (i / m) := Nat.mul_le_mul_left m (by omega)
      omega
    have hmul : m * (i / m + 1) ≤ m * (j / m) := Nat.mul_le_mul_left m hdiv
    rw [Nat.mul_add, Nat.mul_one] at hmul
    omega
  · intro hle
    omega

theorem nw_pos (c : Input) : 0 < c.nw := by
  unfold Input.nw
  split
  · exact Nat.one_pos
  · rename_i hlt
    have h1 : ¬ c.workersArg.toInt < 1 := fun h => hlt (Int64.lt_iff_toInt_lt.mpr h)
    omega

/-- the two steps of a worker -/
theorem Inv.worker_cases (h : Inv c s) (hd : ∀ vals, s.main ≠ .done vals) (w : Nat) :
    (workerStep c s w = none ∧ (s.worker w = .off ∨ ∃ i, s.worker w = .ready i ∧ c.n ≤ i)) ∨
    (∃ i, s.worker w = .ready i ∧ i < c.n ∧ ∃ u, workerStep c s w = some (s.posted c w i u) ∧
      Inv c (s.posted c w i u) ∧ Aside c s (s.posted c w i u)) ∨
    (∃ i, s.worker w = .sending i ∧ i < c.n ∧
      workerStep c s w = some { s with worker := update s.worker w (.ready (i + c.nw)) } ∧
      Inv c { s with worker := update s.worker w (.ready (i + c.nw)) }) := by
  have hst := h.core.stands w
  cases hw : s.worker w with
  | off =>
    refine .inl ⟨?_, .inl rfl⟩
    rw [workerStep, hw]
  | ready i =>
    by_cases hi : i < c.n
    · refine .inr (.inl ⟨i, rfl, hi, _, ?_, h.post hd hw hi⟩)
      have hint : (Int64.ofNat i).toInt = i := toInt_ofNat (hi.trans (n_lt c))
      have hget : hpArrGet c.items (.int (Int64.ofNat i)) = some (c.items.vals i) := by
        rw [get_list c.list, hint, if_neg, Int.toNat_natCast]
        have : i < c.items.len := hi
        omega
      rw [workerStep, hw]
      dsimp only
      rw [if_pos hi, hget]
      rfl
    · refine .inl ⟨?_, .inr ⟨i, rfl, Nat.le_of_not_lt hi⟩⟩
      rw [workerStep, hw]
      exact if_neg hi
  | sending i =>
    rw [hw] at hst
    obtain ⟨hwn, hmod, hi⟩ := hst
    refine .inr (.inr ⟨i, rfl, hi, ?_, ?_⟩)
    · have hsent : Sent c s i := by
        rw [Sent, hmod, hw]
        exact Nat.le_refl i
      rcases h.core.calls i hi with ⟨-, hns⟩ | ⟨hc, -⟩
      · exact absurd hsent hns
      · rw [workerStep, hw]
        dsimp only
        rw [hc]
    · have hside : Aside c s { s with worker := update s.worker w (.ready (i + c.nw)) } := by
        refine ⟨rfl, rfl, fun _ _ => rfl, fun v => ?_⟩
        show update s.worker w _ v = _ ↔ _
        by_cases e : v = w
        · rw [e, update_self, hw]
          exact ⟨nofun, nofun⟩
        · rw [update_of_ne e]
      refine ⟨h.core.move (x := .ready (i + c.nw)) ⟨hwn, ?_⟩ rfl rfl rfl fun j hj => ?_,
        hside.place rfl (fun _ _ => rfl) rfl h.place⟩
      · rw [Nat.add_mod_right, hmod]
      · rw [Sent, Sent]
        by_cases e : j % c.nw = w
        · rw [e, hw]
          show (update s.worker w (.ready (i + c.nw)) w).Past j ↔ j ≤ i
          rw [update_self]
          exact lt_add_stride (nw_pos c) (e.trans hmod.symm)
        · show (update s.worker w (.ready (i + c.nw)) (j % c.nw)).Past j ↔ _
          rw [update_of_ne e]

/-! ### the calling thread -/

/-- goes down in every step of the calling thread -/
def mainRank (c : Input) (s : State) : Nat :=
  match s.main with
  | .spawn w => 3 * c.n + 3 + (c.nw - w)
  | .collect k _ => 3 * (c.n - k) + 2
  | .recv k _ =>
    match s.ch.call (c.n + k) with
    | .got _ => 3 * (c.n - k)
    | _ => 3 * (c.n - k) + 1
  | .done _ => 0

variable (k out) in
theorem mainRank_recv (hm : s.main = .recv k out) : mainRank c s ≤ 3 * (c.n - k) + 1 := by
  rw [mainRank, hm]
  dsimp only
  split <;> omega

theorem Aside.mainRank (h : Aside c s t) : mainRank c t = mainRank c s := by
  rw [Pool.mainRank, Pool.mainRank, h.main]
  cases s.main with
  | recv k out =>
    dsimp only
    rw [h.calls _ (Nat.le_add_right ..)]
  | _ => rfl

/-- the calling thread takes a step, which keeps the invariant -/
def Goes (c : Input) (s : State) : Prop :=
  ∃ t, mainStep c s = some t ∧ Inv c t ∧ mainRank c t < mainRank c s ∧
    ∀ w, s.worker w ≠ .off → t.worker w = s.worker w

namespace Inv

theorem spawn (h : Inv c s) (hm : s.main = .spawn w) : Goes c s := by
  have hp := h.place
  rw [hm] at hp
  obtain ⟨hcl, hq, hc, ha, hw, hall⟩ := hp
  by_cases hlt : w < c.nw
  · have hoff : s.worker w = .off := by
      by_contra hne
      exact Nat.lt_irrefl w ((hall w hlt).mp hne)
    refine ⟨{ s with worker := update s.worker w (.ready w), main := .spawn (w + 1) }, ?_,
      ⟨h.core.move (x := .ready w) ⟨hlt, Nat.mod_eq_of_lt hlt⟩ rfl rfl rfl fun j hj => ?_,
        hcl, hq, hc, ha, hlt, fun v hv => ?_⟩, ?_, fun v hv => ?_⟩
    · rw [mainStep, hm]
      exact if_pos hlt
    · rw [Sent, Sent]
      show (update s.worker w (.ready w) (j % c.nw)).Past j ↔ _
      by_cases e : j % c.nw = w
      · rw [e, update_self, hoff]
        refine ⟨fun hjw => ?_, False.elim⟩
        have hle := Nat.mod_le j c.nw
        have : j < w := hjw
        omega
      · rw [update_of_ne e]
    · show update s.worker w (.ready w) v ≠ .off ↔ v < w + 1
      by_cases e : v = w
      · rw [e, update_self]
        exact ⟨fun _ => Nat.lt_succ_self w, fun _ => nofun⟩
      · rw [update_of_ne e, hall v hv]
        omega
    · rw [mainRank, mainRank, hm]
      dsimp only
      omega
    · apply update_of_ne
      rintro rfl
      exact hv hoff
  · refine ⟨{ s with main := .collect 0 (hpArrNew c.junk) }, ?_,
      ⟨⟨h.core.chan, h.core.cap, h.core.stands, h.core.calls, h.core.msgs, h.core.entered⟩,
        hcl, hq, hc, fun v hv => (hall v hv).mpr (by omega), Nat.zero_le _, ?_, ?_⟩, ?_,
      fun _ _ => rfl⟩
    · rw [mainStep, hm]
      exact if_neg hlt
    · show (arrivals s).length = 0
      rw [ha]
      rfl
    · show Gathered c (arrivals s) _
      rw [ha]
      exact .empty
    · rw [mainRank, mainRank, hm]
      dsimp only
      omega

/-- a receive takes the oldest message, or sleeps at an empty channel -/
theorem receive (h : Inv c s) (hm : s.main = .collect k out) (hk : k < c.n) : Goes c s := by
  have hsq := h.sendq_nil fun vals => by rw [hm]; exact nofun
  have hp := h.place
  rw [hm] at hp
  obtain ⟨hcl, hq, hc, hsp, -, hlen, hg⟩ := hp
  have hlt : ∀ j, j < c.n → j ≠ c.n + k := fun j hj => by omega
  have hnext : ∀ u, Chan.chanRecvBody s.ch (c.n + k) true = u →
      Chan.next s.ch (.recv (c.n + k) true) = some u := by
    intro u hu
    rw [Chan.next, hc, hu]
  have hquiet : ∀ x, (∀ j, j ≠ c.n + k → x.ch.call j = s.ch.call j) → Quiet c x k := by
    intro x hx j hj hne
    rw [hx j hne]
    exact hq j hj hne
  refine ⟨{ s with ch := Chan.chanRecvBody s.ch (c.n + k) true, main := .recv k out }, ?_, ?_,
    ?_, fun _ _ => rfl⟩
  · rw [mainStep, hm]
    exact if_pos hk
  · by_cases hl : 0 < s.ch.ch.len
    · have hu : Chan.chanRecvBody s.ch (c.n + k) true = s.ch.takeBuf (c.n + k) := by
        rw [Chan.chanRecvBody, if_pos hl, hsq]
      rw [hu]
      have hcore : Core c { s with ch := s.ch.takeBuf (c.n + k), main := .recv k out } :=
        h.core.of_chan (hnext _ hu) trivial rfl rfl (fun j hj => update_of_ne (hlt j hj) _ _)
          rfl rfl
      have hleft := hcore.left_vals
      have harr : arrivals { s with ch := s.ch.takeBuf (c.n + k), main := .recv k out } =
          arrivals s ++ [jobOf (s.ch.ch.buf s.ch.ch.head)] := List.map_append
      rw [harr, List.map_append, ← h.core.left_vals] at hleft
      have hval : s.ch.ch.buf s.ch.ch.head = .arr (some (jobOf (s.ch.ch.buf s.ch.ch.head))) := by
        have happ : s.ch.left.map Prod.snd ++ [s.ch.ch.buf s.ch.ch.head] =
            s.ch.left.map Prod.snd ++ [.arr (some (jobOf (s.ch.ch.buf s.ch.ch.head)))] :=
          List.map_append.symm.trans hleft
        exact List.singleton_inj.mp (List.append_cancel_left happ)
      refine ⟨hcore, hcl, hquiet _ fun j hj => update_of_ne hj _ _, hsp, hk, _, hlen, hg,
        .got _ ?_ harr⟩
      show update s.ch.call (c.n + k) _ (c.n + k) = _
      rw [update_self, ← hval]
    · have hrq : s.ch.ch.recvq = [] := by
        apply h.core.recvq_nil
        intro j hj hw
        by_cases e : j = c.n + k
        · rw [e, hc] at hw; cases hw
        · rcases hq.cases hj e with hc' | ⟨o, hc'⟩ <;> rw [hc'] at hw <;> cases hw
      have hu : Chan.chanRecvBody s.ch (c.n + k) true = s.ch.queueRecv (c.n + k) := by
        rw [Chan.chanRecvBody, if_neg hl, hsq, hcl]
        rfl
      rw [hu]
      refine ⟨h.core.of_chan (hnext _ hu) trivial rfl rfl (fun j hj => update_of_ne (hlt j hj) _ _)
        rfl rfl, hcl, hquiet _ fun j hj => update_of_ne hj _ _, hsp, hk, _, hlen, hg,
        .asleep (update_self ..) ?_ ?_ rfl⟩
      · show (update s.ch.wtr (c.n + k) ⟨.null, false⟩ (c.n + k)).done = false
        rw [update_self]
      · show s.ch.ch.recvq ++ [c.n + k] = _
        rw [hrq]
        rfl
  · refine Nat.lt_of_le_of_lt (mainRank_recv k out rfl) ?_
    rw [mainRank, hm]
    exact Nat.lt_succ_self _

/-- `$out` gets the result of the job that has arrived -/
theorem store_spec (h : Core c s) (hj : j ∈ arrivals s) (out : Harr) :
    store s out (.arr (some j)) = hpArrSet out (.int (Int64.ofNat j)) (c.result j) := by
  obtain ⟨hlt, hs⟩ := h.arrived hj
  rw [store, hpArrGetV, hpArrGetV, h.msgs j hlt hs]
  rfl

/-- the receive that has been handed its message, and the one that has returned -/
theorem received (h : Inv c s) (hm : s.main = .recv k out) (hgood : Good c (arrivals s)) :
    Goes c s ∨ (s.ch.ch.len = 0 ∧ s.ch.ch.sendq = [] ∧ (arrivals s).length < c.n ∧
      Spawned c s ∧ mainStep c s = none) := by
  have hp := h.place
  rw [hm] at hp
  obtain ⟨hcl, hq, hsp, hk, σ, hlen, hg, hr⟩ := hp
  cases hr with
  | asleep hc hd hrq ha =>
    obtain ⟨hl, hsq⟩ := h.core.inv.ch.recvq_empty (by rw [hrq]; exact List.cons_ne_nil _ _)
    refine .inr ⟨hl, hsq, by rw [ha, hlen]; exact hk, hsp, ?_⟩
    rw [mainStep, hm]
    dsimp only
    rw [hc]
    dsimp only
    rw [hd]
    rfl
  | handed j hc hv ha =>
    refine .inl ⟨{ s with ch := Chan.chanRecvWake s.ch (c.n + k) }, ?_, ⟨?_, ?_⟩, ?_, fun _ _ => rfl⟩
    · rw [mainStep, hm]
      dsimp only
      rw [hc]
      dsimp only
      rw [hv]
      rfl
    all_goals
      have hu : Chan.chanRecvWake s.ch (c.n + k) =
          (s.ch.unlink (c.n + k)).ret (c.n + k) (.got (some (.arr (some j)))) := by
        rw [Chan.chanRecvWake, hv]
        rfl
      have hlt : ∀ j, j < c.n → j ≠ c.n + k := fun j hj => by omega
    · refine h.core.of_chan (l := .recvWake (c.n + k)) ?_ trivial ?_ ?_ ?_ rfl rfl
      · rw [Chan.next, hc, hv]
      · rw [hu]; rfl
      · rw [hu]; rfl
      · rw [hu]
        exact fun j hj => update_of_ne (hlt j hj) _ _
    · show Place c _ s.main
      rw [hm, hu]
      exact ⟨hcl, fun j hj hne => by
          show (_ → update s.ch.call (c.n + k) _ j = _) ∧ (_ → ∃ o, update s.ch.call (c.n + k) _ j = _)
          rw [update_of_ne hne]
          exact hq j hj hne,
        hsp, hk, σ, hlen, hg, .got j (update_self ..) ha⟩
    · have hgot : (Chan.chanRecvWake s.ch (c.n + k)).call (c.n + k) =
          .got (some (.arr (some j))) := by
        rw [hu]
        exact update_self ..
      rw [mainRank, mainRank, hm]
      dsimp only
      rw [hgot, hc]
      exact Nat.lt_succ_self _
  | got j hc ha =>
    rw [ha] at hgood
    have hj : j ∈ arrivals s := by
      rw [ha]
      exact List.mem_append_right _ (List.mem_singleton.mpr rfl)
    have hnd := h.core.nodup
    rw [ha, List.nodup_append] at hnd
    obtain ⟨b, hb, hgb⟩ := hg.step hgood (h.core.arrived hj).1
      (fun hin => hnd.2.2 j hin j (List.mem_singleton.mpr rfl) rfl)
      (fun i hi => (h.core.arrived (by rw [ha]; exact List.mem_append_left _ hi)).1)
      (by rw [hlen]; exact hk)
    refine .inl ⟨{ s with main := .collect (k + 1) b }, ?_,
      ⟨⟨h.core.chan, h.core.cap, h.core.stands, h.core.calls, h.core.msgs, h.core.entered⟩,
        hcl, fun i hi hne => ?_, ?_, hsp, hk, ?_, ?_⟩, ?_, fun _ _ => rfl⟩
    · rw [mainStep, hm]
      dsimp only
      rw [hc]
      show (store s out (.arr (some j))).map _ = _
      rw [store_spec h.core hj, hb]
      rfl
    · by_cases e : i = c.n + k
      · rw [e]
        exact ⟨fun hle => by omega, fun _ => ⟨_, hc⟩⟩
      · obtain ⟨h1, h2⟩ := hq i hi e
        exact ⟨fun hle => h1 (by omega), fun hlt => h2 (by omega)⟩
    · exact (hq (c.n + (k + 1)) (by omega) (by omega)).1 (by omega)
    · show (arrivals s).length = k + 1
      rw [ha, List.length_append, hlen]
      rfl
    · show Gathered c (arrivals s) b
      rwa [ha]
    · rw [mainRank, mainRank, hm]
      dsimp only
      rw [hc]
      dsimp only
      omega

/-- behind the last result -/
theorem finish (h : Inv c s) (hm : s.main = .collect k out) (hk : ¬ k < c.n) : Goes c s := by
  have hp := h.place
  rw [hm] at hp
  obtain ⟨hcl, hq, hc, hsp, hle, hlen, hg⟩ := hp
  refine ⟨{ s with ch := Chan.hpbiChanClose s.ch, main := .done (c.finish out) }, ?_,
    ⟨h.core.of_chan (l := .close) rfl trivial rfl rfl (fun _ _ => rfl) rfl rfl, ?_,
      .inr ⟨out, rfl, hg⟩⟩, ?_, fun _ _ => rfl⟩
  · rw [mainStep, hm]
    exact if_neg hk
  · show (arrivals s).length = c.n
    omega
  · rw [mainRank, mainRank, hm]
    dsimp only
    omega

/-- the calling thread that has ended returns the list -/
theorem returned (h : Inv c s) (hs : Sorts c.qsort) (hgood : Good c (arrivals s)) {vals : Harr}
    (hm : s.main = .done vals) : Returned c s := by
  have hp := h.place
  rw [hm] at hp
  obtain ⟨hlen, ⟨rfl, hn⟩ | ⟨out, rfl, hg⟩⟩ := hp
  · refine ⟨_, hm, rfl, ?_⟩
    rw [hn]
    rfl
  · have hperm := perm_range_of_full h.core.nodup (fun j hj => (h.core.arrived hj).1) hlen.ge
    obtain ⟨hmap, hv⟩ := hg.finish hs hgood hperm
    exact ⟨_, hm, hmap, hv⟩

end Inv

/-! ### runs -/

def workerRank (c : Input) : Worker → Nat
  | .off => 2 * c.n
  | .ready i => 2 * (c.n - i)
  | .sending i => 2 * (c.n - i) - 1

/-- goes down in every step -/
def rank (c : Input) (s : State) : Nat :=
  mainRank c s + (Finset.range c.nw).sum fun w => workerRank c (s.worker w)

theorem workerRank_le (x : Worker) : workerRank c x ≤ 2 * c.n := by
  cases x <;> simp only [workerRank] <;> omega

/-- one worker has gone on -/
theorem rank_worker (hw : w < c.nw) {x : Worker} (hx : workerRank c x < workerRank c (s.worker w))
    (hm : mainRank c t = mainRank c s) (ht : t.worker = update s.worker w x) :
    rank c t < rank c s := by
  rw [rank, rank, hm, ht]
  apply Nat.add_lt_add_left
  apply Finset.sum_lt_sum
  · intro v _
    by_cases e : v = w
    · rw [e, update_self]
      exact hx.le
    · rw [update_of_ne e]
  · refine ⟨w, Finset.mem_range.mpr hw, ?_⟩
    rwa [update_self]

theorem Goes.step (h : Goes c s) (hs : mainStep c s = some t) : Inv c t ∧ rank c t < rank c s := by
  obtain ⟨u, hu, hinv, hlt, hsame⟩ := h
  obtain rfl := Option.some.inj (hu.symm.trans hs)
  refine ⟨hinv, Nat.add_lt_add_of_lt_of_le hlt (Finset.sum_le_sum fun w _ => ?_)⟩
  by_cases hoff : s.worker w = .off
  · rw [hoff]
    exact workerRank_le _
  · rw [hsame w hoff]

namespace Inv

theorem start (c : Input) : Inv c (start c) := by
  have hcap : (Int64.ofNat c.n).toInt.toNat = c.n := by
    rw [toInt_ofNat (n_lt c), Int.toNat_natCast]
  refine ⟨⟨.init ⟨_, rfl⟩, hcap, fun _ => trivial, fun i hi => .inl ⟨rfl, id⟩,
    fun i hi hs => hs.elim, fun p hp => by cases hp⟩, ?_⟩
  by_cases h0 : c.n = 0
  · have hm : (Pool.start c).main = .done (hpArrNew c.junk) := if_pos h0
    rw [hm]
    exact ⟨h0.symm, .inl ⟨rfl, h0⟩⟩
  · have hm : (Pool.start c).main = .spawn 0 := if_neg h0
    rw [hm]
    refine ⟨rfl, fun j hj hne => ⟨fun _ => rfl, fun hlt => by omega⟩, rfl, rfl, Nat.zero_le _,
      fun v hv => ⟨fun h => absurd rfl h, fun h => absurd h (Nat.not_lt_zero v)⟩⟩

/-- every step keeps the invariant, and goes down -/
theorem step (h : Inv c s) (hd : ∀ vals, s.main ≠ .done vals) (hgood : Good c (arrivals s))
    {a : Act} (hs : next c s a = some t) : Inv c t ∧ rank c t < rank c s := by
  cases a with
  | main =>
    cases hm : s.main with
    | spawn w => exact (h.spawn hm).step hs
    | collect k out =>
      by_cases hk : k < c.n
      · exact (h.receive hm hk).step hs
      · exact (h.finish hm hk).step hs
    | recv k out =>
      rcases h.received hm hgood with hgo | ⟨-, -, -, -, hnone⟩
      · exact hgo.step hs
      · rw [show next c s .main = mainStep c s from rfl, hnone] at hs
        cases hs
    | done vals => exact absurd hm (hd vals)
  | worker w =>
    have hst := h.core.stands w
    rcases h.worker_cases hd w with ⟨hnone, -⟩ | ⟨i, hw, hi, u, hu, hinv, hside⟩ |
      ⟨i, hw, hi, hu, hinv⟩
    · rw [show next c s (.worker w) = workerStep c s w from rfl, hnone] at hs
      cases hs
    · obtain rfl := Option.some.inj (hu.symm.trans hs)
      rw [hw] at hst
      refine ⟨hinv, rank_worker (x := .sending i) hst.1 ?_ hside.mainRank rfl⟩
      rw [hw]
      simp only [workerRank]
      omega
    · obtain rfl := Option.some.inj (hu.symm.trans hs)
      rw [hw] at hst
      refine ⟨hinv, rank_worker (x := .ready (i + c.nw)) hst.1 ?_ rfl rfl⟩
      have hpos := nw_pos c
      rw [hw]
      simp only [workerRank]
      omega

/-- until the call returns one of the threads can run -/
theorem progress (h : Inv c s) (hd : ∀ vals, s.main ≠ .done vals) (hgood : Good c (arrivals s)) :
    ∃ a t, next c s a = some t := by
  have hgo : Goes c s → ∃ a t, next c s a = some t := by
    rintro ⟨t, ht, -⟩
    exact ⟨.main, t, ht⟩
  cases hm : s.main with
  | spawn w => exact hgo (h.spawn hm)
  | collect k out =>
    by_cases hk : k < c.n
    · exact hgo (h.receive hm hk)
    · exact hgo (h.finish hm hk)
  | done vals => exact absurd hm (hd vals)
  | recv k out =>
    rcases h.received hm hgood with hg | ⟨hlen, hsq, hlt, hsp, -⟩
    · exact hgo hg
    · by_contra hno
      -- no worker has a job left, so all results have arrived
      have hall : ∀ i, i < c.n → Sent c s i := by
        intro i hi
        rcases h.worker_cases hd (i % c.nw) with ⟨-, hoff | ⟨m, hw, hm⟩⟩ | ⟨m, -, -, u, hu, -⟩ |
          ⟨m, -, -, hu, -⟩
        · exact absurd hoff (hsp _ (Nat.mod_lt i (nw_pos c)))
        · rw [Sent, hw]
          exact Nat.lt_of_lt_of_le hi hm
        · exact absurd ⟨.worker (i % c.nw), _, hu⟩ hno
        · exact absurd ⟨.worker (i % c.nw), _, hu⟩ hno
      have := h.core.all_arrived hsq hlen hall
      omega

end Inv

end

/-- **`Pool::map` returns the list of the results** on every run on which they come in a good way. -/
theorem pool_returns {c : Input} (hs : Sorts c.qsort) :
    (sys c).Inevitable (fun s => ¬ Good c (arrivals s) ∨ Returned c s) (start c) := by
  refine Sys.Inevitable.of_measure (I := Inv c) (rank c) ?_ (Inv.start c)
  intro s h
  by_cases hgood : Good c (arrivals s)
  · by_cases hd : ∃ vals, s.main = .done vals
    · obtain ⟨vals, hm⟩ := hd
      exact .inl (.inr (h.returned hs hgood hm))
    · have hd := not_exists.mp hd
      exact .inr ⟨h.progress hd hgood, fun a t ht => h.step hd hgood ht⟩
  · exact .inl (.inl hgood)

/-- `$fn($item, $i) = $item` on `[x, y]` with one worker -/
def pair (x y : Int64) : Input where
  fn := fun x _ => x
  items := hpArrPush (hpArrPush (hpArrNew blank) (.int x)) (.int y)
  workersArg := 1
  strtod := fun _ => Double.ofInt64 0
  qsort := mergeSort
  junk := blank
  list := rfl
  fits := by
    show 2 + (1 : Int64).toInt.toNat < 2 ^ 63
    decide

theorem pool_returns_pair : (sys (pair 1 2)).Inevitable
    (fun s => ¬ Good (pair 1 2) (arrivals s) ∨ Returned (pair 1 2) s) (start (pair 1 2)) :=
  pool_returns mergeSort_sorts

abbrev descending : Input := pair 2 1

/-- a call that has returned stays as it is -/
theorem returned_stays {c : Input} (s : State) (a : Act) (t : State) (h : Returned c s)
    (hs : (sys c).next s a = some t) : Returned c t := by
  obtain ⟨vals, hm, hv⟩ := h
  refine ⟨vals, ?_, hv⟩
  cases a with
  | main =>
    have hs : mainStep c s = some t := hs
    rw [mainStep, hm] at hs
    cases hs
  | worker w =>
    have hs : workerStep c s w = some t := hs
    unfold workerStep at hs
    split at hs
    · cases hs
    · split at hs
      · obtain ⟨x, -, rfl⟩ := Option.map_eq_some_iff.mp hs
        exact hm
      · cases hs
    · split at hs
      · exact Option.some.inj hs ▸ hm
      · split at hs
        · exact Option.some.inj hs ▸ hm
        · cases hs
      · cases hs

/-- the worker sends both results, and then the calling thread receives them -/
def inOrder : List Act :=
  [.main, .main, .worker 0, .worker 0, .worker 0, .worker 0, .main, .main, .main, .main, .main]

theorem inOrder_ends : ∃ t out, (sys descending).run (start descending) inOrder = some t ∧
    t.main = .done (descending.finish out) ∧ out.isMap = false ∧
    values out = [.int 2, .int 1] ∧ ∀ a, (sys descending).next t a = none := by
  refine ⟨_, _, rfl, rfl, rfl, rfl, fun a => ?_⟩
  cases a with
  | main => rfl
  | worker w => cases w <;> rfl

/-- the list comes out as `[1, 2]` -/
theorem pool_descending :
    ¬ (sys descending).Inevitable (Returned descending) (start descending) := by
  intro h
  obtain ⟨t, out, hrun, hm, hmap, hv, hend⟩ := inOrder_ends
  obtain ⟨vals, hm', -, hvals⟩ := h.ends returned_stays hrun hend
  obtain rfl := Main.done.inj (hm.symm.trans hm')
  have hasc : Ascending (Cmp.hpValCmp descending.strtod) [.int 1, .int 2] := by
    apply List.pairwise_pair.mpr
    exact .inr (by decide)
  have hsort : values (hpbiKsort descending.strtod descending.qsort out) = [.int 1, .int 2] := by
    apply ksort_list mergeSort_sorts hmap hasc
    rw [hv]
    exact List.Perm.swap _ _ _
  have hcontra := hvals.symm.trans ((finish_values descending out).2.trans hsort)
  cases hcontra

end Pool
end HolyPhp
