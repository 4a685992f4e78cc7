import Mathlib.Data.List.Nodup
import Mathlib.Logic.Relation
import Mathlib.Tactic.Common

/-!
# Depth-first search in postorder

`visit next fuel st n` visits `n` and what `next` leads to; a node is done behind its successors.
The fuel bounds the depth: `none` means that the search goes deeper.

* `Leads next a b`  the successors lead from `a` to `b`;
* `Done st st' E`   from `st` to `st'` the nodes `E` are done;
* `visit_done`      what one visit does, from the nodes that are still open;
* `visit_all`       **a search from the start does every node that can be reached once, the start
                    last, and each node behind its successors, unless they lead back to it**;
* `visit_returns`   it returns if the nodes that can be reached are those of a list.
-/

set_option autoImplicit false

namespace Postorder
open Relation

variable {α : Type*}

structure Marks (α : Type*) where
  visited : List α
  done : List α

def Marks.start : Marks α := ⟨[], []⟩

section
variable (next : α → List α)

def visit [DecidableEq α] : Nat → Marks α → α → Option (Marks α)
  | 0, _, _ => none
  | fuel + 1, st, n =>
    if n ∈ st.visited then some st
    else ((next n).foldlM (visit fuel) { st with visited := st.visited ++ [n] }).map fun st =>
      { st with done := st.done ++ [n] }

def Leads : α → α → Prop := ReflTransGen fun a b => b ∈ next a

/-- every node comes behind its successors, unless they lead back to it -/
def Ordered (before : List α) : List α → Prop
  | [] => True
  | e :: es => (∀ m ∈ next e, m ∈ before ∨ Leads next m e) ∧ Ordered (before ++ [e]) es

/-- the nodes that were visited and are not done lead to `n` -/
def Open (st : Marks α) (n : α) : Prop := ∀ a ∈ st.visited, a ∉ st.done → Leads next a n

structure Done (st st' : Marks α) (E : List α) : Prop where
  done : st'.done = st.done ++ E
  visited : ∀ k, k ∈ st'.visited ↔ k ∈ st.visited ∨ k ∈ E
  fresh : ∀ e ∈ E, e ∉ st.visited
  nodup : E.Nodup
  closed : ∀ e ∈ E, ∀ m ∈ next e, m ∈ st'.visited
  ordered : Ordered next st.done E

end

variable {next : α → List α} {st st' st₁ st₂ : Marks α} {n m e : α} {D E F : List α} {fuel : Nat}

theorem ordered_append : Ordered next D (E ++ F) ↔ Ordered next D E ∧ Ordered next (D ++ E) F := by
  induction E generalizing D with
  | nil => simp [Ordered]
  | cons e E ih => simp [Ordered, ih, and_assoc]

/-- the successors of a node in the middle -/
theorem Ordered.before (h : Ordered next D (E ++ e :: F)) (hm : m ∈ next e) :
    m ∈ D ++ E ∨ Leads next m e :=
  (ordered_append.mp h).2.1 m hm

theorem Done.refl (st : Marks α) : Done next st st [] where
  done := (List.append_nil _).symm
  visited k := by simp
  fresh e he := absurd he List.not_mem_nil
  nodup := List.nodup_nil
  closed e he := absurd he List.not_mem_nil
  ordered := trivial

theorem Done.trans (h₁ : Done next st st₁ E) (h₂ : Done next st₁ st₂ F) :
    Done next st st₂ (E ++ F) where
  done := by rw [h₂.done, h₁.done, List.append_assoc]
  visited k := by rw [h₂.visited, h₁.visited, List.mem_append, or_assoc]
  fresh e he := by
    rcases List.mem_append.mp he with he | he
    · exact h₁.fresh e he
    · exact fun hv => h₂.fresh e he ((h₁.visited e).mpr (.inl hv))
  nodup := by
    refine List.nodup_append'.mpr ⟨h₁.nodup, h₂.nodup, ?_⟩
    intro e he hf
    exact h₂.fresh e hf ((h₁.visited e).mpr (.inr he))
  closed e he m hm := by
    rcases List.mem_append.mp he with he | he
    · exact (h₂.visited m).mpr (.inl (h₁.closed e he m hm))
    · exact h₂.closed e he m hm
  ordered := ordered_append.mpr ⟨h₁.ordered, by rw [← h₁.done]; exact h₂.ordered⟩

/-- the open nodes are the same behind a visit -/
theorem Done.open_iff (h : Done next st st' E) : Open next st' n ↔ Open next st n := by
  constructor
  · intro ho a ha hd
    by_cases hE : a ∈ E
    · exact absurd ha (h.fresh a hE)
    · apply ho a ((h.visited a).mpr (.inl ha))
      rw [h.done, List.mem_append, not_or]
      exact ⟨hd, hE⟩
  · intro ho a ha hd
    rw [h.done, List.mem_append, not_or] at hd
    rcases (h.visited a).mp ha with ha | ha
    · exact ho a ha hd.1
    · exact absurd ha hd.2

variable [DecidableEq α]

/-- the loop over the successors, from what one visit does -/
theorem foldlM_done
    (ih : ∀ st st' n, Open next st n → visit next fuel st n = some st' → ∃ E, Done next st st' E ∧
      n ∈ st'.visited ∧ (∀ e ∈ E, Leads next n e) ∧ (n ∉ st.visited → ∃ F, E = F ++ [n]))
    {ms : List α} (ho : ∀ m ∈ ms, Open next st m) (h : ms.foldlM (visit next fuel) st = some st') :
    ∃ E, Done next st st' E ∧ (∀ m ∈ ms, m ∈ st'.visited) ∧ ∀ e ∈ E, ∃ m ∈ ms, Leads next m e := by
  induction ms generalizing st with
  | nil =>
    cases h
    exact ⟨[], .refl _, fun m hm => absurd hm List.not_mem_nil,
      fun e he => absurd he List.not_mem_nil⟩
  | cons m ms ihm =>
    rw [List.foldlM_cons] at h
    obtain ⟨st₁, h₁, h₂⟩ := Option.bind_eq_some_iff.mp h
    obtain ⟨E, hE, hm, hlead, -⟩ := ih st st₁ m (ho m List.mem_cons_self) h₁
    obtain ⟨F, hF, hms, hlead'⟩ := ihm (fun m' hm' => hE.open_iff.mpr
      (ho m' (List.mem_cons_of_mem m hm'))) h₂
    refine ⟨E ++ F, hE.trans hF, ?_, ?_⟩
    · intro m' hm'
      rcases List.mem_cons.mp hm' with rfl | hm'
      · exact (hF.visited m').mpr (.inl hm)
      · exact hms m' hm'
    · intro e he
      rcases List.mem_append.mp he with he | he
      · exact ⟨m, List.mem_cons_self, hlead e he⟩
      · obtain ⟨m', hm', hl⟩ := hlead' e he
        exact ⟨m', List.mem_cons_of_mem m hm', hl⟩

/-- **One visit.** -/
theorem visit_done (fuel : Nat) : ∀ (st st' : Marks α) (n : α), Open next st n →
    visit next fuel st n = some st' → ∃ E, Done next st st' E ∧ n ∈ st'.visited ∧
      (∀ e ∈ E, Leads next n e) ∧ (n ∉ st.visited → ∃ F, E = F ++ [n]) := by
  induction fuel with
  | zero =>
    intro st st' n ho h
    cases h
  | succ fuel ih =>
    intro st st' n ho h
    rw [visit] at h
    split at h
    · next hn =>
      cases h
      exact ⟨[], .refl st, hn, fun e he => absurd he List.not_mem_nil, fun hf => absurd hn hf⟩
    · next hn =>
      obtain ⟨st₂, h₂, rfl⟩ := Option.map_eq_some_iff.mp h
      -- the successors are visited while `n` is open
      have ho' : ∀ m ∈ next n, Open next { st with visited := st.visited ++ [n] } m := by
        intro m hm a ha hd
        rcases List.mem_append.mp ha with ha | ha
        · exact (ho a ha hd).tail hm
        · rw [List.mem_singleton.mp ha]
          exact .single hm
      obtain ⟨F, hF, hms, hlead⟩ := foldlM_done ih ho' h₂
      have hnF : n ∉ F := fun hf => hF.fresh n hf (List.mem_append_right _ List.mem_cons_self)
      have hvis : ∀ k, k ∈ st₂.visited ↔ k ∈ st.visited ∨ k = n ∨ k ∈ F := by
        intro k
        rw [hF.visited]
        show k ∈ st.visited ++ [n] ∨ k ∈ F ↔ _
        rw [List.mem_append, List.mem_singleton, or_assoc]
      refine ⟨F ++ [n], ⟨?_, ?_, ?_, ?_, ?_, ?_⟩, ?_, ?_, fun _ => ⟨F, rfl⟩⟩
      · show st₂.done ++ [n] = _
        rw [hF.done, List.append_assoc]
      · intro k
        show k ∈ st₂.visited ↔ _
        rw [hvis, List.mem_append, List.mem_singleton, or_comm (a := k = n)]
      · intro e he hv
        rcases List.mem_append.mp he with he | he
        · exact hF.fresh e he (List.mem_append_left _ hv)
        · exact hn (List.mem_singleton.mp he ▸ hv)
      · exact List.nodup_append'.mpr ⟨hF.nodup, List.nodup_singleton n, by simpa using hnF⟩
      · intro e he m hm
        rcases List.mem_append.mp he with he | he
        · exact hF.closed e he m hm
        · rw [List.mem_singleton.mp he] at hm
          exact hms m hm
      · refine ordered_append.mpr ⟨hF.ordered, ?_, trivial⟩
        intro m hm
        rcases (hvis m).mp (hms m hm) with hv | rfl | hf
        · by_cases hd : m ∈ st.done
          · exact .inl (List.mem_append_left _ hd)
          · exact .inr (ho m hv hd)
        · exact .inr .refl
        · exact .inl (List.mem_append_right _ hf)
      · exact (hvis n).mpr (.inr (.inl rfl))
      · intro e he
        rcases List.mem_append.mp he with he | he
        · obtain ⟨m, hm, hl⟩ := hlead e he
          exact .head hm hl
        · rw [List.mem_singleton.mp he]
          exact .refl

/-- **A search from the start.** -/
theorem visit_all (h : visit next fuel .start n = some st) : st.done.Nodup ∧
    (∀ m, m ∈ st.done ↔ Leads next n m) ∧ st.done.getLast? = some n ∧ Ordered next [] st.done := by
  obtain ⟨E, hE, hn, hlead, hlast⟩ := visit_done fuel .start st n
    (fun a ha => absurd ha List.not_mem_nil) h
  have hdone : st.done = E := hE.done
  have hvis : ∀ k, k ∈ st.visited ↔ k ∈ E := by
    intro k
    rw [hE.visited]
    exact or_iff_right List.not_mem_nil
  rw [hdone]
  refine ⟨hE.nodup, fun m => ⟨hlead m, ?_⟩, ?_, hE.ordered⟩
  · intro hl
    induction hl with
    | refl => exact (hvis n).mp hn
    | tail _ hm ih => exact (hvis _).mp (hE.closed _ ih _ hm)
  · obtain ⟨F, rfl⟩ := hlast List.not_mem_nil
    exact List.getLast?_concat

/-! ## an end -/

variable (next) in
/-- **The search returns** when `l` has all that can be reached; each level visits one more of it. -/
theorem visit_returns (l : List α) (fuel : Nat) : ∀ (st : Marks α) (n : α),
    (∀ m, Leads next n m → m ∈ l) → (l.filter (· ∉ st.visited)).length < fuel →
    ∃ st', visit next fuel st n = some st' ∧ st.visited ⊆ st'.visited := by
  induction fuel with
  | zero =>
    intro st n hl hlt
    cases hlt
  | succ fuel ih =>
    intro st n hl hlt
    rw [visit]
    split
    · exact ⟨st, rfl, List.Subset.refl _⟩
    · next hn =>
      have hless : (l.filter (· ∉ st.visited ++ [n])).length < fuel := by
        have hlen : (l.filter (· ∉ st.visited ++ [n])).length <
            (l.filter (· ∉ st.visited)).length := by
          have hsub : l.filter (· ∉ st.visited ++ [n]) =
              (l.filter (· ∉ st.visited)).filter (· ≠ n) := by
            rw [List.filter_filter]
            apply List.filter_congr
            intro a _
            simp [and_comm]
          rw [hsub]
          apply List.length_filter_lt_length_iff_exists.mpr
          exact ⟨n, List.mem_filter.mpr ⟨hl n .refl, by simpa using hn⟩, by simp⟩
        omega
      have hloop : ∀ (ms : List α) (st₁ : Marks α), (∀ m ∈ ms, m ∈ next n) →
          st.visited ++ [n] ⊆ st₁.visited → ∃ st₂, ms.foldlM (visit next fuel) st₁ = some st₂ ∧
            st.visited ++ [n] ⊆ st₂.visited := by
        intro ms
        induction ms with
        | nil => exact fun st₁ _ hs => ⟨st₁, rfl, hs⟩
        | cons m ms ihm =>
          intro st₁ hms hs
          have hcount : (l.filter (· ∉ st₁.visited)).length < fuel := by
            refine Nat.lt_of_le_of_lt (List.Sublist.length_le ?_) hless
            apply List.monotone_filter_right
            intro a ha
            simp only [decide_eq_true_eq] at ha ⊢
            exact fun hm => ha (hs hm)
          obtain ⟨st₂, h₂, hs₂⟩ := ih st₁ m
            (fun k hk => hl k (.head (hms m List.mem_cons_self) hk)) hcount
          obtain ⟨st₃, h₃, hs₃⟩ := ihm st₂ (fun m' hm' => hms m' (List.mem_cons_of_mem m hm'))
            (List.Subset.trans hs hs₂)
          exact ⟨st₃, by rw [List.foldlM_cons, h₂]; exact h₃, hs₃⟩
      obtain ⟨st₂, h₂, hs₂⟩ := hloop (next n) { st with visited := st.visited ++ [n] }
        (fun m hm => hm) (List.Subset.refl _)
      refine ⟨{ st₂ with done := st₂.done ++ [n] }, by rw [h₂]; rfl, ?_⟩
      exact fun k hk => hs₂ (List.mem_append_left _ hk)

end Postorder
