import Mathlib.Data.List.Nodup
import Mathlib.Data.List.Perm.Subperm
import Mathlib.Logic.Function.Basic
import Mathlib.Tactic.Common

/-!
# Lists of pairs as graphs of partial functions

`IsGraph l f`: the list `l` holds every pair of the partial function `f` once.  A history that
grows by one pair whenever the function becomes defined at one more argument stays the graph of
the function (`IsGraph.snoc`).  The last section is about lists of different numbers below a bound.
-/

namespace Graph
open Function

variable {α β γ : Type*}

structure IsGraph (l : List (α × β)) (f : α → Option β) : Prop where
  nodup : (l.map Prod.fst).Nodup
  mem_iff : ∀ a b, (a, b) ∈ l ↔ f a = some b

namespace IsGraph
variable {l : List (α × β)} {f : α → Option β}

theorem nil : IsGraph ([] : List (α × β)) fun _ => none where
  nodup := List.nodup_nil
  mem_iff a b := by simp

theorem snoc [DecidableEq α] (h : IsGraph l f) {a : α} (ha : f a = none) (b : β) :
    IsGraph (l ++ [(a, b)]) (update f a (some b)) where
  nodup := by
    rw [List.map_append]
    refine List.nodup_append'.mpr ⟨h.nodup, List.nodup_singleton _, fun x hx hx' => ?_⟩
    obtain ⟨⟨a', b'⟩, hm, rfl⟩ := List.mem_map.mp hx
    have e : a' = a := List.mem_singleton.mp hx'
    rw [e, h.mem_iff, ha] at hm
    cases hm
  mem_iff a' b' := by
    rw [List.mem_append, List.mem_singleton, h.mem_iff]
    by_cases e : a' = a
    · rw [e, update_self, ha]
      constructor
      · rintro (h' | h')
        · cases h'
        · rw [(Prod.mk.inj h').2]
      · intro h'
        rw [Option.some.inj h']
        exact .inr rfl
    · rw [update_of_ne e]
      exact ⟨fun h' => h'.resolve_right fun e' => e (Prod.mk.inj e').1, .inl⟩

theorem exists_getElem? (h : IsGraph l f) {a : α} {b : β} (hb : f a = some b) :
    ∃ k : Nat, l[k]? = some (a, b) :=
  List.getElem?_of_mem ((h.mem_iff a b).mpr hb)

theorem of_getElem? (h : IsGraph l f) {k : Nat} {a : α} {b : β} (hk : l[k]? = some (a, b)) :
    f a = some b :=
  (h.mem_iff a b).mp (List.mem_of_getElem? hk)

end IsGraph

/-- entry `k` of two histories with the same values -/
theorem exists_fst_of_map_snd {l : List (α × β)} {r : List β} {k : Nat} {b : β}
    (h : l.map Prod.snd = r) (hk : r[k]? = some b) : ∃ a, l[k]? = some (a, b) := by
  rw [← h, List.getElem?_map] at hk
  obtain ⟨⟨a, b'⟩, ha, hb⟩ := Option.map_eq_some_iff.mp hk
  exact ⟨a, by rw [ha, ← show b' = b from hb]⟩

/-! ## numbers below a bound, each once -/

section
variable {l : List Nat} {n i : Nat}

theorem length_le_of_nodup (hl : l.Nodup) (hlt : ∀ j ∈ l, j < n) :
    l.length ≤ n := by
  have hsub : l ⊆ List.range n := fun j hj => List.mem_range.mpr (hlt j hj)
  have hle := (hl.subperm hsub).length_le
  rwa [List.length_range] at hle

theorem length_lt_of_nodup (hl : l.Nodup) (hlt : ∀ j ∈ l, j < n)
    (hi : i < n) (hni : i ∉ l) : l.length < n := by
  apply length_le_of_nodup (List.nodup_cons.mpr ⟨hni, hl⟩)
  intro j hj
  rcases List.mem_cons.mp hj with rfl | hj
  · exact hi
  · exact hlt j hj

theorem mem_of_full (hl : l.Nodup) (hlt : ∀ j ∈ l, j < n)
    (hn : n ≤ l.length) (hi : i < n) : i ∈ l := by
  by_contra hni
  have := length_lt_of_nodup hl hlt hi hni
  omega

theorem perm_range_of_full (hl : l.Nodup) (hlt : ∀ j ∈ l, j < n) (hn : n ≤ l.length) :
    l.Perm (List.range n) := by
  apply (List.perm_ext_iff_of_nodup hl List.nodup_range).mpr
  exact fun j => ⟨fun hj => List.mem_range.mpr (hlt j hj),
    fun hj => mem_of_full hl hlt hn (List.mem_range.mp hj)⟩

end

end Graph
