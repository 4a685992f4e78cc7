import Mathlib.Data.Finset.Card
import Mathlib.Data.Finset.Range
import Mathlib.Logic.Function.Basic
import Mathlib.Tactic.Common

/-!
# Open addressing with linear probing

A table of `W` slots is a function `T`; the entry 0 means an empty slot.  A search goes from slot
to slot, `W` slots around, until it may stop.

* `search next stop n s`  the first slot from `s` on where `stop` holds, after less than `n` steps;
* `slot W h m`            the slot `m` steps after `h`;
* `Path T W h s`          slot `s` is met from `h` before any empty slot;
* `used T W`              the number of slots that are not empty.

`search_isSome`: with a place to stop in the table a search ends; `search_none`: else it would go
on for ever.  `Path.update`: whatever is stored, slots stay on their paths.
-/

namespace Probe
open Function

/-- the first slot from `s` on where `stop` holds -/
def search (next : Nat → Nat) (stop : Nat → Bool) : Nat → Nat → Option Nat
  | 0, _ => none
  | n + 1, s => if stop s then some s else search next stop n (next s)

/-- the next slot of `W`, in a ring -/
def cyc (W s : Nat) : Nat := (s + 1) % W

def slot (W h m : Nat) : Nat := (h + m) % W

variable {W h s n : Nat} {stop : Nat → Bool}

theorem cyc_lt (hs : s < W) : cyc W s < W := Nat.mod_lt _ (by omega)

theorem slot_zero (hh : h < W) : slot W h 0 = h := Nat.mod_eq_of_lt hh

theorem slot_cyc (W h m : Nat) : slot W (cyc W h) m = slot W h (m + 1) := by
  unfold slot cyc
  rw [Nat.mod_add_mod]
  congr 1
  omega

theorem slot_lt (hW : 0 < W) (h m : Nat) : slot W h m < W := Nat.mod_lt _ hW

/-- every slot is met in one lap -/
theorem exists_slot (hh : h < W) (hs : s < W) : ∃ m < W, slot W h m = s := by
  by_cases hle : h ≤ s
  · refine ⟨s - h, by omega, ?_⟩
    rw [slot, Nat.add_sub_cancel' hle, Nat.mod_eq_of_lt hs]
  · refine ⟨s + W - h, by omega, ?_⟩
    rw [slot, show h + (s + W - h) = s + W by omega, Nat.add_mod_right, Nat.mod_eq_of_lt hs]

theorem search_stop {next : Nat → Nat} {r : Nat} (h : search next stop n s = some r) :
    stop r = true := by
  induction n generalizing s with
  | zero => cases h
  | succ n ih =>
    rw [search] at h
    split at h
    · next hstop => exact Option.some.inj h ▸ hstop
    · exact ih h

theorem search_some (hs : s < W) {r : Nat} (h : search (cyc W) stop n s = some r) :
    stop r = true ∧ ∃ m < n, slot W s m = r ∧ ∀ j < m, stop (slot W s j) = false := by
  induction n generalizing s with
  | zero => cases h
  | succ n ih =>
    rw [search] at h
    split at h
    · rename_i hstop
      obtain rfl := Option.some.inj h
      exact ⟨hstop, 0, Nat.succ_pos n, slot_zero hs, fun j hj => absurd hj (Nat.not_lt_zero j)⟩
    · rename_i hstop
      obtain ⟨hr, m, hm, hslot, hbefore⟩ := ih (cyc_lt hs) h
      refine ⟨hr, m + 1, by omega, by rw [← slot_cyc, hslot], fun j hj => ?_⟩
      cases j with
      | zero => rw [slot_zero hs]; simpa using hstop
      | succ j => rw [← slot_cyc]; exact hbefore j (by omega)

theorem search_none_of_lt (hs : s < W) (h : search (cyc W) stop n s = none) :
    ∀ m < n, stop (slot W s m) = false := by
  induction n generalizing s with
  | zero => exact fun m hm => absurd hm (Nat.not_lt_zero m)
  | succ n ih =>
    rw [search] at h
    split at h
    · cases h
    · rename_i hstop
      intro m hm
      cases m with
      | zero => rw [slot_zero hs]; simpa using hstop
      | succ m =>
        rw [← slot_cyc]
        exact ih (cyc_lt hs) h m (by omega)

/-- **A lap without a place to stop**: no step of the loop ends it. -/
theorem search_none (hh : h < W) (hs : search (cyc W) stop W h = none) (m : Nat) :
    stop (slot W h m) = false := by
  have hW : 0 < W := by omega
  have hmod : slot W h m = slot W h (m % W) := by
    unfold slot
    rw [Nat.add_mod_mod]
  rw [hmod]
  exact search_none_of_lt hh hs _ (Nat.mod_lt _ hW)

/-- **A place to stop ends the search.** -/
theorem search_isSome (hh : h < W) (hs : s < W) (hstop : stop s = true) :
    ∃ r, search (cyc W) stop W h = some r := by
  cases hr : search (cyc W) stop W h with
  | some r => exact ⟨r, rfl⟩
  | none =>
    obtain ⟨m, -, hm⟩ := exists_slot hh hs
    have := search_none hh hr m
    rw [hm, hstop] at this
    cases this

/-! ## paths -/

/-- slot `s` is met from `h` before any empty slot -/
def Path (T : Nat → Nat) (W h s : Nat) : Prop :=
  ∃ m < W, slot W h m = s ∧ ∀ j < m, T (slot W h j) ≠ 0

variable {T : Nat → Nat} {r e : Nat}

theorem Path.lt (h : Path T W n s) : s < W := by
  obtain ⟨m, hm, rfl, -⟩ := h
  exact slot_lt (by omega) _ _

/-- storing an entry leaves the slots on their paths -/
theorem Path.update (hp : Path T W h s) (he : e ≠ 0) : Path (update T r e) W h s := by
  obtain ⟨m, hm, hslot, hbefore⟩ := hp
  refine ⟨m, hm, hslot, fun j hj => ?_⟩
  by_cases hr : slot W h j = r
  · rwa [hr, update_self]
  · rw [update_of_ne hr]
    exact hbefore j hj

/-- what a search goes past is not empty -/
theorem path_of_search (hh : h < W) (hs : search (cyc W) stop W h = some r)
    (hstop : ∀ s, T s = 0 → stop s = true) : Path T W h r := by
  obtain ⟨-, m, hm, hslot, hbefore⟩ := search_some hh hs
  refine ⟨m, hm, hslot, fun j hj hz => ?_⟩
  have := hbefore j hj
  rw [hstop _ hz] at this
  cases this

/-- a search that stops at empty slots and hits ends at a hit, if there is one on the path -/
theorem search_hit (hh : h < W) (hs : search (cyc W) stop W h = some r) {p : Nat}
    (hp : Path T W h p) (hstop : stop p = true) (hne : T p ≠ 0) : T r ≠ 0 := by
  obtain ⟨-, m, hm, hslot, hbefore⟩ := search_some hh hs
  obtain ⟨m', hm', hslot', hbefore'⟩ := hp
  rcases Nat.lt_trichotomy m m' with hlt | heq | hgt
  · rw [← hslot]
    exact hbefore' m hlt
  · rwa [← hslot, heq, hslot']
  · have := hbefore m' hgt
    rw [hslot', hstop] at this
    cases this

/-! ## how full a table is -/

def used (T : Nat → Nat) (W : Nat) : Nat := ((Finset.range W).filter fun s => T s ≠ 0).card

theorem used_empty (W : Nat) : used (fun _ => 0) W = 0 := by
  simp [used]

theorem exists_empty (h : used T W < W) : ∃ s < W, T s = 0 := by
  by_contra hno
  have hall : (Finset.range W).filter (fun s => T s ≠ 0) = Finset.range W :=
    Finset.filter_true_of_mem fun s hs hz => hno ⟨s, Finset.mem_range.mp hs, hz⟩
  rw [used, hall, Finset.card_range] at h
  exact Nat.lt_irrefl _ h

theorem used_update_le (T : Nat → Nat) (W r e : Nat) : used (update T r e) W ≤ used T W + 1 := by
  have hsub : (Finset.range W).filter (fun s => update T r e s ≠ 0) ⊆
      insert r ((Finset.range W).filter fun s => T s ≠ 0) := by
    intro s hs
    rw [Finset.mem_filter] at hs
    by_cases hr : s = r
    · exact hr ▸ Finset.mem_insert_self ..
    · rw [update_of_ne hr] at hs
      exact Finset.mem_insert_of_mem (Finset.mem_filter.mpr hs)
  exact (Finset.card_le_card hsub).trans (Finset.card_insert_le _ _)

/-- an entry in the place of another -/
theorem used_update_of_ne (hr : T r ≠ 0) : used (update T r e) W ≤ used T W := by
  apply Finset.card_le_card
  intro s hs
  rw [Finset.mem_filter] at hs ⊢
  refine ⟨hs.1, ?_⟩
  by_cases hsr : s = r
  · rwa [hsr]
  · have := hs.2
    rwa [update_of_ne hsr] at this

end Probe
