import HolyPhp.Lib.Runs
import HolyPhp.Runtime.Value

/-!
# The mutex registry: `hpbi_mutex_new`, `_lock`, `_trylock`, `_unlock`, `_free`

`g_mu` is an array that `realloc` moves, so its storage has a number, `gen`, and a
`pthread_mutex_t *` is a pair of a storage and an index in it: `cell g k` is record `k` of storage
`g`, also after `g` is no longer current.

* `muRec s i`      the index of the record with the id `i`;
* `hpbiMutexNew`   doubles a full array (`realloc`) and appends a record;
* `hpbiMutexFree`  moves the last record into the hole;
* `resolve`        the section of a lock or an unlock under `g_mu_reg`: it ends with a pointer in
                   the hands of the thread;
* `acquire`, `release`  the use of that pointer, later.

`holds t i` is a history: thread `t` is between a successful lock of `i` and its unlock.
-/

set_option linter.unusedVariables false

namespace HolyPhp
namespace Mutex
open Function Runs

/-- the storage and the index -/
abbrev Ptr := Nat × Nat

structure MuRec where
  id : Int64
  locked : Bool
  deriving DecidableEq

/-- where a thread stands -/
inductive Pc where
  | idle
  /-- at `pthread_mutex_lock(mu)`, or `pthread_mutex_trylock(mu)` (not `block`) -/
  | locking (i : Int64) (p : Ptr) (block : Bool)
  /-- at `pthread_mutex_unlock(mu)` -/
  | unlocking (i : Int64) (p : Ptr)
  deriving DecidableEq

/-- the id that the thread asked for and the pointer it got -/
def Pc.ref : Pc → Option (Int64 × Ptr)
  | .idle => none
  | .locking i p _ => some (i, p)
  | .unlocking i p => some (i, p)

structure State where
  gen : Nat
  cell : Nat → Nat → MuRec
  len : Nat
  cap : Nat
  next : Int64
  pc : Nat → Pc
  holds : Nat → Int64 → Bool

namespace State

/-- `g_mu[k]` -/
def mu (s : State) (k : Nat) : MuRec := s.cell s.gen k

def setCell (s : State) (p : Ptr) (m : MuRec) : Nat → Nat → MuRec :=
  update s.cell p.1 (update (s.cell p.1) p.2 m)

def setPc (s : State) (t : Nat) (c : Pc) : State := { s with pc := update s.pc t c }

/-- `g_mu_cap = g_mu_cap ? g_mu_cap * 2 : 8; g_mu = realloc(..)` -/
def grow (s : State) : State :=
  if s.len = s.cap then
    { s with
      gen := s.gen + 1
      cell := update s.cell (s.gen + 1) (s.cell s.gen)
      cap := if s.cap = 0 then 8 else s.cap * 2 }
  else s

end State

open State

def muRec (s : State) (i : Int64) : Option Nat :=
  (List.range s.len).find? fun k => (s.mu k).id == i

def hpbiMutexNew (s : State) : State :=
  let g := s.grow
  { g with
    cell := g.setCell (g.gen, g.len) ⟨g.next, false⟩
    len := g.len + 1
    next := g.next + 1 }

/-- without a record the call returns false at once -/
def resolve (s : State) (t : Nat) (i : Int64) (c : Ptr → Pc) : State :=
  match muRec s i with
  | some k => s.setPc t (c (s.gen, k))
  | none => s

def hpbiMutexFree (s : State) (i : Int64) : State :=
  match muRec s i with
  | some k => { s with cell := s.setCell (s.gen, k) (s.mu (s.len - 1)), len := s.len - 1 }
  | none => s

/-- the lock at `p` is free and thread `t` takes it -/
def acquire (s : State) (t : Nat) (i : Int64) (p : Ptr) : State :=
  { s with
    cell := s.setCell p { s.cell p.1 p.2 with locked := true }
    pc := update s.pc t .idle
    holds := update s.holds t (update (s.holds t) i true) }

def release (s : State) (t : Nat) (i : Int64) (p : Ptr) : State :=
  { s with
    cell := s.setCell p { s.cell p.1 p.2 with locked := false }
    pc := update s.pc t .idle
    holds := update s.holds t (update (s.holds t) i false) }

inductive Act where
  | new (t : Nat)
  | lock (t : Nat) (i : Int64) (block : Bool)
  | acquire (t : Nat)
  /-- a `trylock` at a lock that is taken returns false -/
  | fail (t : Nat)
  | unlock (t : Nat) (i : Int64)
  | release (t : Nat)
  | free (t : Nat) (i : Int64)

def next (s : State) : Act → Option State
  | .new t => if s.pc t = .idle then some (hpbiMutexNew s) else none
  | .lock t i block => if s.pc t = .idle then some (resolve s t i (.locking i · block)) else none
  | .acquire t =>
    match s.pc t with
    | .locking i p _ => if (s.cell p.1 p.2).locked then none else some (acquire s t i p)
    | _ => none
  | .fail t =>
    match s.pc t with
    | .locking _ p false => if (s.cell p.1 p.2).locked then some (s.setPc t .idle) else none
    | _ => none
  | .unlock t i => if s.pc t = .idle then some (resolve s t i (.unlocking i)) else none
  | .release t =>
    match s.pc t with
    | .unlocking i p => some (release s t i p)
    | _ => none
  | .free t i => if s.pc t = .idle then some (hpbiMutexFree s i) else none

/-- the registry before the first call; what its storage holds is not known -/
def start (junk : Nat → Nat → MuRec) : State where
  gen := 0
  cell := junk
  len := 0
  cap := 0
  next := 1
  pc := fun _ => .idle
  holds := fun _ _ => false

def sys : Sys State Act := ⟨fun s => ∃ junk, s = start junk, next⟩

structure MutexOk (s : State) : Prop where
  exclusive : ∀ t t' i, s.holds t i = true → s.holds t' i = true → t = t'
  /-- who waits for `i` waits at the record registered under `i` -/
  own : ∀ t i p b, s.pc t = .locking i p b → p.1 = s.gen ∧ muRec s i = some p.2

/-- what callers promise: nobody frees an id that another thread holds or waits for, and who
unlocks holds -/
def Guard (s : State) : Act → Prop
  | .free t i => ∀ t', t' ≠ t → s.holds t' i = false ∧ ∀ p b, s.pc t' ≠ .locking i p b
  | .unlock t i => s.holds t i = true
  | _ => True

/-- no record moves while a thread has a pointer to it: the array is not reallocated while a
pointer is out, and a free moves no record that a pointer is out to; and the ids do not
run over -/
def Stable (s : State) : Act → Prop
  | .new _ => s.next ≠ Int64.maxValue ∧ (s.len = s.cap → ∀ t, (s.pc t).ref = none)
  | .free _ i => ∀ k, muRec s i = some k → k + 1 ≠ s.len →
      ∀ t j, (s.pc t).ref ≠ some (j, (s.gen, s.len - 1))
  | _ => True

/-! ## lemmas on the registry -/

theorem muRec_some {s : State} {i : Int64} {k : Nat} (h : muRec s i = some k) :
    k < s.len ∧ (s.mu k).id = i := by
  have hm := List.mem_of_find?_eq_some h
  exact ⟨List.mem_range.mp hm, by simpa using List.find?_some h⟩

theorem muRec_isSome {s : State} {k : Nat} (hk : k < s.len) :
    ∃ k', muRec s (s.mu k).id = some k' := by
  have : (muRec s (s.mu k).id).isSome := by
    rw [muRec, List.find?_isSome]
    exact ⟨k, List.mem_range.mpr hk, by simp⟩
  exact Option.isSome_iff_exists.mp this

theorem setCell_self (s : State) (p : Ptr) (m : MuRec) : s.setCell p m p.1 p.2 = m := by
  rw [setCell, update_self, update_self]

theorem setCell_ne (s : State) {p : Ptr} {k : Nat} (m : MuRec) (h : k ≠ p.2) (g : Nat) :
    s.setCell p m g k = s.cell g k := by
  unfold setCell
  by_cases e : g = p.1
  · rw [e, update_self, update_of_ne h]
  · rw [update_of_ne e]

/-- another storage, the same records -/
theorem grow_spec (s : State) : (∀ k, s.grow.mu k = s.mu k) ∧ s.grow.len = s.len ∧
    s.grow.next = s.next ∧ s.grow.pc = s.pc ∧ s.grow.holds = s.holds ∧
    (s.len ≠ s.cap → s.grow.gen = s.gen) := by
  unfold grow
  by_cases h : s.len = s.cap
  · rw [if_pos h]
    refine ⟨fun k => ?_, rfl, rfl, rfl, rfl, fun hne => absurd h hne⟩
    show update s.cell (s.gen + 1) (s.cell s.gen) (s.gen + 1) k = _
    rw [update_self]
    rfl
  · rw [if_neg h]
    exact ⟨fun _ => rfl, rfl, rfl, rfl, rfl, fun _ => rfl⟩

/-! ## the invariant -/

structure Inv (s : State) : Prop where
  /-- a pointer in the hands of a thread is to the record that the thread asked for -/
  ref : ∀ t i p, (s.pc t).ref = some (i, p) → p.1 = s.gen ∧ p.2 < s.len ∧ (s.mu p.2).id = i
  distinct : ∀ j k, j < s.len → k < s.len → (s.mu j).id = (s.mu k).id → j = k
  id_lt : ∀ k < s.len, (s.mu k).id < s.next
  held_lt : ∀ t i, s.holds t i = true → i < s.next
  locked : ∀ k < s.len, (s.mu k).locked = true ↔ ∃ t, s.holds t (s.mu k).id = true
  exclusive : ∀ t t' i, s.holds t i = true → s.holds t' i = true → t = t'
  unlocking : ∀ t i p, s.pc t = .unlocking i p → s.holds t i = true

namespace Inv
variable {s : State} {t : Nat} {i : Int64} {p : Ptr}

theorem muRec_eq (h : Inv s) {k : Nat} (hk : k < s.len) : muRec s (s.mu k).id = some k := by
  obtain ⟨k', hk'⟩ := muRec_isSome hk
  obtain ⟨hlt, hid⟩ := muRec_some hk'
  rw [hk', h.distinct k' k hlt hk hid]

theorem ok (h : Inv s) : MutexOk s where
  exclusive := h.exclusive
  own t i p b hp := by
    obtain ⟨hg, hk, hi⟩ := h.ref t i p (by rw [hp]; rfl)
    exact ⟨hg, hi ▸ h.muRec_eq hk⟩

theorem ref_update {c : Pc} {j : Nat} {r : Int64 × Ptr} (hr : (update s.pc t c j).ref = some r) :
    (j = t ∧ c.ref = some r) ∨ (s.pc j).ref = some r := by
  by_cases e : j = t
  · rw [e, update_self] at hr
    exact .inl ⟨e, hr⟩
  · rw [update_of_ne e] at hr
    exact .inr hr

theorem pc_update {c d : Pc} {j : Nat} (hj : update s.pc t c j = d) :
    (j = t ∧ c = d) ∨ s.pc j = d := by
  by_cases e : j = t
  · rw [e, update_self] at hj
    exact .inl ⟨e, hj⟩
  · rw [update_of_ne e] at hj
    exact .inr hj

/-- a thread returns without an effect on the registry -/
theorem idle (h : Inv s) (t : Nat) : Inv (s.setPc t .idle) where
  __ := h
  ref j i p hp := by
    rcases ref_update hp with ⟨-, hc⟩ | hp
    · cases hc
    · exact h.ref j i p hp
  unlocking j i p hp := by
    rcases pc_update hp with ⟨-, hc⟩ | hp
    · cases hc
    · exact h.unlocking j i p hp

theorem resolve (h : Inv s) {c : Ptr → Pc} (hc : ∀ p, (c p).ref = some (i, p))
    (hu : ∀ p j q, c p = .unlocking j q → s.holds t j = true) : Inv (resolve s t i c) := by
  unfold Mutex.resolve
  cases hk : muRec s i with
  | none => exact h
  | some k =>
    obtain ⟨hlt, hid⟩ := muRec_some hk
    refine { h with ref := fun j i' p hp => ?_, unlocking := fun j i' p hp => ?_ }
    · rcases ref_update hp with ⟨-, hp⟩ | hp
      · rw [hc] at hp
        obtain ⟨rfl, rfl⟩ := Prod.mk.inj (Option.some.inj hp)
        exact ⟨rfl, hlt, hid⟩
      · exact h.ref j i' p hp
    · rcases pc_update hp with ⟨e, hc⟩ | hp
      · rw [e]
        exact hu _ i' p hc
      · exact h.unlocking j i' p hp

/-! the histories after `t` marked that it holds `i`, or not any more -/

section
variable {f : Nat → Int64 → Bool} {b : Bool} {t' : Nat} {j : Int64}

theorem mark_self : update f t (update (f t) i b) t i = b := by
  rw [update_self, update_self]

theorem mark_ne (h : t' ≠ t ∨ j ≠ i) : update f t (update (f t) i b) t' j = f t' j := by
  by_cases e : t' = t
  · rw [e, update_self, update_of_ne (h.resolve_left fun hn => hn e)]
  · rw [update_of_ne e]

theorem mark_other (hother : ∀ t', t' ≠ t → f t' i = false)
    (h : update f t (update (f t) i b) t' i = true) : t' = t := by
  by_contra hn
  rw [mark_ne (.inl hn), hother t' hn] at h
  cases h

theorem mark_iff (hother : ∀ t', t' ≠ t → f t' i = false) :
    b = true ↔ ∃ t', update f t (update (f t) i b) t' i = true := by
  constructor
  · intro h
    exact ⟨t, mark_self.trans h⟩
  · intro h
    obtain ⟨t', ht'⟩ := h
    rw [mark_other hother ht', mark_self] at ht'
    exact ht'

end

/-- the word of one registered lock changes, with the histories of its holders -/
theorem setLocked (h : Inv s) (hg : p.1 = s.gen) (hk : p.2 < s.len) (hid : (s.mu p.2).id = i)
    (b : Bool) (hother : ∀ t', t' ≠ t → s.holds t' i = false) {u : State}
    (hcell : u.cell = s.setCell p { s.cell p.1 p.2 with locked := b }) (hgen : u.gen = s.gen)
    (hlen : u.len = s.len) (hnext : u.next = s.next) (hpc : u.pc = update s.pc t .idle)
    (hholds : u.holds = update s.holds t (update (s.holds t) i b)) : Inv u := by
  have hmu : ∀ k, u.mu k = if k = p.2 then ⟨i, b⟩ else s.mu k := by
    intro k
    unfold State.mu
    rw [hcell, hgen]
    by_cases e : k = p.2
    · rw [if_pos e, e, ← hg, setCell_self, ← hid, State.mu, hg]
    · rw [if_neg e, setCell_ne _ _ e]
  have hids : ∀ k, (u.mu k).id = (s.mu k).id := by
    intro k
    rw [hmu]
    by_cases e : k = p.2
    · rw [if_pos e, e, hid]
    · rw [if_neg e]
  refine ⟨fun j i' q hq => ?_, fun j k hj hk' he => ?_, fun k hk' => ?_, fun t' j hj => ?_,
    fun k hk' => ?_, fun t₁ t₂ j h₁ h₂ => ?_, fun j i' q hq => ?_⟩
  · rw [hpc] at hq
    rcases ref_update hq with ⟨-, hq⟩ | hq
    · cases hq
    · rw [hgen, hlen, hids]
      exact h.ref j i' q hq
  · rw [hlen] at hj hk'
    rw [hids, hids] at he
    exact h.distinct j k hj hk' he
  · rw [hlen] at hk'
    rw [hids, hnext]
    exact h.id_lt k hk'
  · rw [hnext]
    by_cases e : j = i
    · rw [e, ← hid]
      exact h.id_lt _ hk
    · rw [hholds, mark_ne (.inr e)] at hj
      exact h.held_lt t' j hj
  · rw [hlen] at hk'
    rw [hids, hholds]
    by_cases e : k = p.2
    · rw [hmu, if_pos e, e, hid]
      exact mark_iff hother
    · have hidk : (s.mu k).id ≠ i := fun e' => e (h.distinct k p.2 hk' hk (e'.trans hid.symm))
      rw [hmu, if_neg e, h.locked k hk']
      exact exists_congr fun t' => by rw [mark_ne (.inr hidk)]
  · rw [hholds] at h₁ h₂
    by_cases e : j = i
    · subst e
      rw [mark_other hother h₁, mark_other hother h₂]
    · rw [mark_ne (.inr e)] at h₁ h₂
      exact h.exclusive t₁ t₂ j h₁ h₂
  · have hq' := hq
    rw [hpc] at hq
    rcases pc_update hq with ⟨-, hc⟩ | hq
    · cases hc
    · have e : j ≠ t := fun e => by rw [hpc, e, update_self] at hq'; cases hq'
      rw [hholds, mark_ne (.inl e)]
      exact h.unlocking j i' q hq

theorem acquire (h : Inv s) {b : Bool} (hp : s.pc t = .locking i p b)
    (hfree : (s.cell p.1 p.2).locked = false) : Inv (acquire s t i p) := by
  obtain ⟨hg, hk, hid⟩ := h.ref t i p (by rw [hp]; rfl)
  refine h.setLocked hg hk hid true (fun t' _ => ?_) rfl rfl rfl rfl rfl rfl
  by_contra hn
  have hl := (h.locked p.2 hk).mpr ⟨t', by rw [hid]; simpa using hn⟩
  rw [State.mu, ← hg, hfree] at hl
  cases hl

theorem release (h : Inv s) (hp : s.pc t = .unlocking i p) : Inv (release s t i p) := by
  obtain ⟨hg, hk, hid⟩ := h.ref t i p (by rw [hp]; rfl)
  refine h.setLocked hg hk hid false (fun t' ht => ?_) rfl rfl rfl rfl rfl rfl
  by_contra hn
  exact ht (h.exclusive t' t i (by simpa using hn) (h.unlocking t i p hp))

/-- a registry with the record `next` at its end -/
theorem new (h : Inv s) (hs : Stable s (.new t)) : Inv (hpbiMutexNew s) := by
  obtain ⟨hmax, hfull⟩ := hs
  obtain ⟨hmu, hlen, hnext, hpc, hholds, hgen⟩ := grow_spec s
  have hulen : (hpbiMutexNew s).len = s.len + 1 := congrArg (· + 1) hlen
  have hunext : (hpbiMutexNew s).next = s.next + 1 := congrArg (· + 1) hnext
  have huholds : (hpbiMutexNew s).holds = s.holds := hholds
  have hupc : (hpbiMutexNew s).pc = s.pc := hpc
  have hlast : (hpbiMutexNew s).mu s.len = ⟨s.next, false⟩ := by
    show s.grow.setCell (s.grow.gen, s.grow.len) ⟨s.grow.next, false⟩ s.grow.gen s.len = _
    rw [hnext, hlen]
    exact setCell_self s.grow (s.grow.gen, s.len) _
  have hold : ∀ k < s.len, (hpbiMutexNew s).mu k = s.mu k := by
    intro k hk
    show s.grow.setCell (s.grow.gen, s.grow.len) ⟨s.grow.next, false⟩ s.grow.gen k = _
    rw [setCell_ne _ _ (show k ≠ s.grow.len by omega)]
    exact hmu k
  have hcases : ∀ k < s.len + 1, k < s.len ∨ k = s.len := fun k hk => by omega
  refine ⟨fun j i p hp => ?_, fun j k hj hk he => ?_, fun k hk => ?_, fun j i hj => ?_,
    fun k hk => ?_, ?_, ?_⟩
  · rw [hupc] at hp
    obtain ⟨hg, hk, hid⟩ := h.ref j i p hp
    have hne : s.len ≠ s.cap := fun e => by
      rw [hfull e j] at hp
      cases hp
    exact ⟨hg.trans (hgen hne).symm, by omega, by rw [hold _ hk]; exact hid⟩
  · rw [hulen] at hj hk
    rcases hcases j hj with hj | rfl <;> rcases hcases k hk with hk | rfl
    · rw [hold j hj, hold k hk] at he
      exact h.distinct j k hj hk he
    · rw [hold j hj, hlast] at he
      exact absurd (he ▸ h.id_lt j hj) (Int64.lt_irrefl)
    · rw [hold k hk, hlast] at he
      exact absurd (he ▸ h.id_lt k hk) (Int64.lt_irrefl)
    · rfl
  · rw [hulen] at hk
    rw [hunext]
    rcases hcases k hk with hk | rfl
    · rw [hold k hk]
      exact lt_succ_of_ne_max hmax (Int64.le_of_lt (h.id_lt k hk))
    · rw [hlast]
      exact lt_succ_of_ne_max hmax Int64.le_rfl
  · rw [huholds] at hj
    rw [hunext]
    exact lt_succ_of_ne_max hmax (Int64.le_of_lt (h.held_lt j i hj))
  · rw [hulen] at hk
    rw [huholds]
    rcases hcases k hk with hk | rfl
    · rw [hold k hk]
      exact h.locked k hk
    · rw [hlast]
      apply iff_of_false Bool.false_ne_true
      intro h0
      obtain ⟨j, hj⟩ := h0
      exact Int64.lt_irrefl (h.held_lt j _ hj)
  · rw [huholds]
    exact h.exclusive
  · rw [hupc, huholds]
    exact h.unlocking

/-- who has a pointer to a lock holds it or waits for it -/
theorem ref_cases (h : Inv s) (hp : (s.pc t).ref = some (i, p)) :
    s.holds t i = true ∨ ∃ b, s.pc t = .locking i p b := by
  cases hc : s.pc t with
  | idle => rw [hc] at hp; cases hp
  | locking j q b =>
    rw [hc] at hp
    obtain ⟨rfl, rfl⟩ := Prod.mk.inj (Option.some.inj hp)
    exact .inr ⟨b, rfl⟩
  | unlocking j q =>
    rw [hc] at hp
    obtain ⟨rfl, rfl⟩ := Prod.mk.inj (Option.some.inj hp)
    exact .inl (h.unlocking t j q hc)

/-- nobody has a pointer to a record that is freed -/
theorem ref_freed (h : Inv s) (ht : s.pc t = .idle) (hg : Guard s (.free t i)) (j : Nat) (q : Ptr) :
    (s.pc j).ref ≠ some (i, q) := by
  intro hq
  by_cases e : j = t
  · rw [e, ht] at hq
    cases hq
  · rcases h.ref_cases hq with hh | ⟨b, hb⟩
    · rw [(hg j e).1] at hh
      cases hh
    · exact (hg j e).2 q b hb

/-- where record `m` of the array after a free at `k` was before -/
def source (s : State) (k m : Nat) : Nat := if m = k then s.len - 1 else m

theorem source_lt {k m : Nat} (hm : m < s.len - 1) : source s k m < s.len := by
  unfold source
  split <;> omega

theorem source_inj {k j m : Nat} (hj : j < s.len - 1) (hm : m < s.len - 1)
    (he : source s k j = source s k m) : j = m := by
  unfold source at he
  split at he <;> split at he <;> omega

theorem cell_freed (s : State) (k m : Nat) :
    s.setCell (s.gen, k) (s.mu (s.len - 1)) s.gen m = s.mu (source s k m) := by
  unfold source
  by_cases e : m = k
  · rw [if_pos e, e]
    exact setCell_self s (s.gen, k) _
  · rw [if_neg e, setCell_ne _ _ e]
    rfl

theorem free (h : Inv s) (ht : s.pc t = .idle) (hg : Guard s (.free t i))
    (hs : Stable s (.free t i)) : Inv (hpbiMutexFree s i) := by
  unfold hpbiMutexFree
  cases hr : muRec s i with
  | none => exact h
  | some k =>
    obtain ⟨hk, hid⟩ := muRec_some hr
    have hmu : ∀ m, State.mu { s with
        cell := s.setCell (s.gen, k) (s.mu (s.len - 1)), len := s.len - 1 } m =
        s.mu (source s k m) := cell_freed s k
    refine ⟨fun j i' q hq => ?_, fun j m hj hm he => ?_, fun m hm => ?_, h.held_lt,
      fun m hm => ?_, h.exclusive, h.unlocking⟩
    · obtain ⟨hg', hlen, hid'⟩ := h.ref j i' q hq
      have hqk : q.2 ≠ k := by
        intro e
        rw [e, hid] at hid'
        rw [← hid'] at hq
        exact h.ref_freed ht hg j q hq
      have hql : q.2 ≠ s.len - 1 := by
        intro e
        by_cases hkl : k + 1 = s.len
        · omega
        · exact hs k hr hkl j i' (by rw [hq, ← e, ← hg'])
      refine ⟨hg', by show q.2 < s.len - 1; omega, ?_⟩
      rw [hmu, source, if_neg hqk]
      exact hid'
    · rw [hmu, hmu] at he
      exact source_inj hj hm (h.distinct _ _ (source_lt hj) (source_lt hm) he)
    · rw [hmu]
      exact h.id_lt _ (source_lt hm)
    · rw [hmu]
      exact h.locked _ (source_lt hm)

theorem step {u : State} {a : Act} (h : Inv s) (hg : Guard s a) (hs : Stable s a)
    (hn : next s a = some u) : Inv u := by
  cases a with
  | new t =>
    simp only [Mutex.next] at hn
    split at hn
    · rw [← Option.some.inj hn]
      exact h.new (t := t) hs
    · cases hn
  | lock t i block =>
    simp only [Mutex.next] at hn
    split at hn
    · rw [← Option.some.inj hn]
      exact h.resolve (fun _ => rfl) (by simp)
    · cases hn
  | acquire t =>
    simp only [Mutex.next] at hn
    split at hn
    · rename_i hp
      split at hn
      · cases hn
      · rename_i hfree
        rw [← Option.some.inj hn]
        exact h.acquire hp (by simpa using hfree)
    · cases hn
  | fail t =>
    simp only [Mutex.next] at hn
    split at hn
    · split at hn
      · rw [← Option.some.inj hn]
        exact h.idle t
      · cases hn
    · cases hn
  | unlock t i =>
    simp only [Mutex.next] at hn
    split at hn
    · rw [← Option.some.inj hn]
      apply h.resolve (fun _ => rfl)
      intro p j q he
      rw [← (Pc.unlocking.inj he).1]
      exact hg
    · cases hn
  | release t =>
    simp only [Mutex.next] at hn
    split at hn
    · rename_i hp
      rw [← Option.some.inj hn]
      exact h.release hp
    · cases hn
  | free t i =>
    simp only [Mutex.next] at hn
    split at hn
    · rename_i hp
      rw [← Option.some.inj hn]
      exact h.free hp hg hs
    · cases hn

theorem reach (hs : sys.ReachIf (fun s a => Guard s a ∧ Stable s a) s) : Inv s := by
  refine Sys.ReachIf.inv ?_ (fun s a u h hc hn => h.step hc.1 hc.2 hn) hs
  intro s h0
  obtain ⟨junk, rfl⟩ := h0
  refine ⟨fun t i p hp => ?_, fun j k hj => ?_, fun k hk => ?_, fun t i ht => ?_, fun k hk => ?_,
    fun t t' i ht => ?_, fun t i p hp => ?_⟩
  · cases hp
  · cases hj
  · cases hk
  · cases ht
  · cases hk
  · cases ht
  · cases hp

end Inv

/-- the storage of a registry that holds nothing yet -/
def blank : Nat → Nat → MuRec := fun _ _ => ⟨0, false⟩

end Mutex
end HolyPhp
