import Mathlib.Data.List.Induction
import Mathlib.Logic.Function.Basic
import Mathlib.Tactic.Common

/-!
# Labelled transition systems: runs under a condition

A system has initial states and a partial step for every label; what a scheduler or a caller may
choose is part of the label, so a step is a function.

* `ReachIf C s`  a run whose steps all meet `C` ends in `s`;
* `Reach s`      the same without a condition;
* `run s ls`     the run with the labels `ls`, as a function;
* `RunIf C s ls t`  a run from `s` to `t` with the labels `ls`, whose steps all meet `C`;
* `ReachIf.inv`  the invariant rule: what holds at the start and is kept by every step that
                 meets `C` holds in every state that such runs reach;
* `ReachIf.sim`  runs of one system are runs of another, along a map of the states;
* `ReachIf.rel`  the same along a relation;
* `run_iff`, `foldl_iff`  what every state of a run meets, by a condition on its steps;
* `Inevitable Q s`  whatever steps are taken from `s`, a state in `Q` comes
                 (`Inevitable.of_measure`, `Inevitable.reach`, `Inevitable.ends`).
-/

namespace Runs

structure Sys (σ ι : Type*) where
  init : σ → Prop
  next : σ → ι → Option σ

namespace Sys
variable {σ ι τ κ : Type*} (S : Sys σ ι)

/-- a run of `S`, every step of which meets `C`, ends in the state -/
inductive ReachIf (C : σ → ι → Prop) : σ → Prop
  | init {s : σ} : S.init s → ReachIf C s
  | step {s t : σ} {l : ι} : ReachIf C s → C s l → S.next s l = some t → ReachIf C t

/-- a run of `S` ends in the state -/
def Reach : σ → Prop := S.ReachIf fun _ _ => True

/-- the run with the labels of the list -/
def run : σ → List ι → Option σ
  | s, [] => some s
  | s, l :: ls => (S.next s l).bind fun t => run t ls

/-- a run with the labels from `s₀` to the state, every step of which meets `C` -/
inductive RunIf (C : σ → ι → Prop) (s₀ : σ) : List ι → σ → Prop
  | nil : RunIf C s₀ [] s₀
  | step {ls : List ι} {l : ι} {s t : σ} : RunIf C s₀ ls s → C s l → S.next s l = some t →
      RunIf C s₀ (ls ++ [l]) t

variable {S} {C : σ → ι → Prop}

/-- the invariant rule for what depends on the number of the steps -/
theorem RunIf.inv {I : Nat → σ → Prop} {s₀ : σ} (h0 : I 0 s₀)
    (h1 : ∀ n s l t, I n s → C s l → S.next s l = some t → I (n + 1) t) {ls : List ι} {s : σ}
    (hs : S.RunIf C s₀ ls s) : I ls.length s := by
  induction hs with
  | nil => exact h0
  | step _ hc hn ih =>
    rw [List.length_append]
    exact h1 _ _ _ _ ih hc hn

theorem ReachIf.mono {D : σ → ι → Prop} (h : ∀ s l, C s l → D s l) {s : σ}
    (hs : S.ReachIf C s) : S.ReachIf D s := by
  induction hs with
  | init hi => exact .init hi
  | step _ hc hn ih => exact .step ih (h _ _ hc) hn

theorem ReachIf.reach {s : σ} (hs : S.ReachIf C s) : S.Reach s := hs.mono fun _ _ _ => trivial

theorem Reach.init {s : σ} (h : S.init s) : S.Reach s := ReachIf.init h

theorem Reach.step {s t : σ} {l : ι} (hs : S.Reach s) (h : S.next s l = some t) : S.Reach t :=
  ReachIf.step hs trivial h

theorem ReachIf.run {s t : σ} {ls : List ι} (hs : S.ReachIf C s) (hC : ∀ l ∈ ls, ∀ u, C u l)
    (h : S.run s ls = some t) : S.ReachIf C t := by
  induction ls generalizing s with
  | nil => exact Option.some.inj h ▸ hs
  | cons l ls ih =>
    obtain ⟨u, hu, ht⟩ := Option.bind_eq_some_iff.mp h
    refine ih (hs.step (hC l List.mem_cons_self s) hu) ?_ ht
    exact fun l' hl' => hC l' (List.mem_cons_of_mem l hl')

theorem Reach.run {s t : σ} {ls : List ι} (hs : S.Reach s) (h : S.run s ls = some t) :
    S.Reach t :=
  ReachIf.run hs (fun _ _ _ => trivial) h

/-- **The invariant rule.** -/
theorem ReachIf.inv {I : σ → Prop} (h0 : ∀ s, S.init s → I s)
    (h1 : ∀ s l t, I s → C s l → S.next s l = some t → I t) {s : σ} (hs : S.ReachIf C s) :
    I s := by
  induction hs with
  | init hi => exact h0 _ hi
  | step _ hc hn ih => exact h1 _ _ _ ih hc hn

theorem Reach.inv {I : σ → Prop} (h0 : ∀ s, S.init s → I s)
    (h1 : ∀ s l t, I s → S.next s l = some t → I t) {s : σ} (hs : S.Reach s) : I s :=
  ReachIf.inv h0 (fun s l t hI _ hn => h1 s l t hI hn) hs

/-- the invariant rule on top of an invariant that is known already -/
theorem ReachIf.inv_of {I J : σ → Prop} (hJ : ∀ s, S.ReachIf C s → J s)
    (h0 : ∀ s, S.init s → I s)
    (h1 : ∀ s l t, J s → I s → C s l → S.next s l = some t → I t) {s : σ}
    (hs : S.ReachIf C s) : I s := by
  induction hs with
  | init hi => exact h0 _ hi
  | step hs hc hn ih => exact h1 _ _ _ (hJ _ hs) ih hc hn

/-- **Simulation along a map**: a step of `S` is a step of `T` or does nothing there. -/
theorem ReachIf.sim {T : Sys τ κ} {D : τ → κ → Prop} (f : σ → τ)
    (h0 : ∀ s, S.init s → T.init (f s))
    (h1 : ∀ s l t, C s l → S.next s l = some t →
      f t = f s ∨ ∃ k, D (f s) k ∧ T.next (f s) k = some (f t)) {s : σ}
    (hs : S.ReachIf C s) : T.ReachIf D (f s) := by
  induction hs with
  | init hi => exact .init (h0 _ hi)
  | step _ hc hn ih =>
    rcases h1 _ _ _ hc hn with h | ⟨k, hk, hn'⟩
    · rw [h]; exact ih
    · exact .step ih hk hn'

/-- **Simulation along a relation.** -/
theorem ReachIf.rel {T : Sys τ κ} {D : τ → κ → Prop} (R : σ → τ → Prop)
    (h0 : ∀ s, S.init s → ∃ a, T.init a ∧ R s a)
    (h1 : ∀ s a l t, R s a → C s l → S.next s l = some t →
      R t a ∨ ∃ k b, D a k ∧ T.next a k = some b ∧ R t b) {s : σ}
    (hs : S.ReachIf C s) : ∃ a, T.ReachIf D a ∧ R s a := by
  induction hs with
  | init hi =>
    obtain ⟨a, ha, hr⟩ := h0 _ hi
    exact ⟨a, .init ha, hr⟩
  | step _ hc hn ih =>
    obtain ⟨a, ha, hr⟩ := ih
    rcases h1 _ _ _ _ hr hc hn with h | ⟨k, b, hk, hb, hr'⟩
    · exact ⟨a, ha, h⟩
    · exact ⟨b, .step ha hk hb, hr'⟩

theorem run_concat {s : σ} {ls : List ι} {l : ι} :
    S.run s (ls ++ [l]) = (S.run s ls).bind fun t => S.next t l := by
  induction ls generalizing s with
  | nil =>
    show (S.next s l).bind some = S.next s l
    cases S.next s l <;> rfl
  | cons l' ls ih =>
    show (S.next s l').bind (fun t => S.run t (ls ++ [l])) = _
    rw [funext fun t => ih (s := t)]
    show _ = ((S.next s l').bind fun t => S.run t ls).bind _
    rw [Option.bind_assoc]

/-- **Every state of a run is good if and only if every step meets the condition**, if the
condition keeps an invariant and a step without it is seen. -/
theorem run_iff {I G : σ → Prop} {s₀ : σ} {ls : List ι} (h0 : I s₀) (hG : ∀ s, I s → G s)
    (hI : ∀ s l t, I s → S.next s l = some t → C s l → I t)
    (hC : ∀ s l t, I s → S.next s l = some t → G t → C s l) :
    (∀ p s, p <+: ls → S.run s₀ p = some s → G s) ↔
      ∀ p l s t, p ++ [l] <+: ls → S.run s₀ p = some s → S.next s l = some t → C s l := by
  have hinv : (∀ p l s t, p ++ [l] <+: ls → S.run s₀ p = some s → S.next s l = some t →
      I s → C s l) → ∀ p s, p <+: ls → S.run s₀ p = some s → I s := by
    intro h p
    induction p using List.reverseRecOn with
    | nil =>
      intro s _ hs
      exact Option.some.inj hs ▸ h0
    | append_singleton p l ih =>
      intro t hp ht
      rw [run_concat] at ht
      obtain ⟨s, hs, hn⟩ := Option.bind_eq_some_iff.1 ht
      have his := ih s ((List.prefix_append p [l]).trans hp) hs
      exact hI s l t his hn (h p l s t hp hs hn his)
  constructor
  · intro h
    have hstep : ∀ p l s t, p ++ [l] <+: ls → S.run s₀ p = some s → S.next s l = some t →
        I s → C s l := by
      intro p l s t hp hs hn hi
      apply hC s l t hi hn
      apply h (p ++ [l]) t hp
      rw [run_concat, hs]
      exact hn
    intro p l s t hp hs hn
    exact hstep p l s t hp hs hn (hinv hstep p s ((List.prefix_append p [l]).trans hp) hs)
  · intro h p s hp hs
    exact hG s (hinv (fun p l s t hp hs hn _ => h p l s t hp hs hn) p s hp hs)

/-! ## what every run meets -/

variable (S) in
/-- no run from the state ends or goes on for ever without a state in `Q` -/
inductive Inevitable (Q : σ → Prop) : σ → Prop
  | now {s : σ} : Q s → Inevitable Q s
  | later {s t : σ} {l : ι} : S.next s l = some t →
      (∀ m u, S.next s m = some u → Inevitable Q u) → Inevitable Q s

variable {Q : σ → Prop}

/-- **The measure rule**: outside `Q` there is a step, and every step keeps `I` and goes down. -/
theorem Inevitable.of_measure {I : σ → Prop} (μ : σ → Nat)
    (h : ∀ s, I s → Q s ∨ ((∃ l t, S.next s l = some t) ∧
      ∀ l t, S.next s l = some t → I t ∧ μ t < μ s)) {s : σ} (hs : I s) : S.Inevitable Q s := by
  induction hn : μ s using Nat.strongRecOn generalizing s with
  | ind n ih =>
    rcases h s hs with hq | ⟨⟨l, t, hl⟩, hall⟩
    · exact .now hq
    · apply Inevitable.later hl
      intro m u hm
      obtain ⟨hu, hlt⟩ := hall m u hm
      exact ih (μ u) (hn ▸ hlt) hu rfl

/-- what is inevitable can happen -/
theorem Inevitable.reach {s : σ} (h : S.Inevitable Q s) (hs : S.Reach s) :
    ∃ t, S.Reach t ∧ Q t := by
  induction h with
  | now hq => exact ⟨_, hs, hq⟩
  | later hl _ ih => exact ih _ _ hl (hs.step hl)

theorem run_keeps (hstay : ∀ s l t, Q s → S.next s l = some t → Q t) {s t : σ} {ls : List ι}
    (hs : Q s) (h : S.run s ls = some t) : Q t := by
  induction ls generalizing s with
  | nil => exact Option.some.inj h ▸ hs
  | cons l ls ih =>
    obtain ⟨u, hu, ht⟩ := Option.bind_eq_some_iff.mp h
    exact ih (hstay s l u hs hu) ht

/-- a run that has come to an end is in `Q`, if `Q` stays -/
theorem Inevitable.ends {s t : σ} {ls : List ι} (h : S.Inevitable Q s)
    (hstay : ∀ s l t, Q s → S.next s l = some t → Q t) (hr : S.run s ls = some t)
    (hend : ∀ l, S.next t l = none) : Q t := by
  induction h generalizing ls with
  | now hq => exact run_keeps hstay hq hr
  | later hl _ ih =>
    cases ls with
    | nil =>
      rw [Option.some.inj hr, hend] at hl
      cases hl
    | cons m ls =>
      obtain ⟨u, hu, ht⟩ := Option.bind_eq_some_iff.mp hr
      exact ih m u hu ht

end Sys

/-! ## runs of a function -/

section foldl
variable {σ ι : Type*} {f : σ → ι → σ} {s₀ : σ} {I G : σ → Prop} {C : σ → ι → Prop} {ls : List ι}

theorem foldl_inv (h0 : I s₀) (hI : ∀ s l, I s → G (f s l) → I (f s l))
    (h : ∀ p, p <+: ls → G (p.foldl f s₀)) : I (ls.foldl f s₀) := by
  induction ls using List.reverseRecOn with
  | nil => exact h0
  | append_singleton ls l ih =>
    have hlast := h _ (List.prefix_refl _)
    rw [List.foldl_append] at hlast ⊢
    exact hI _ l (ih fun p hp => h p (hp.trans (List.prefix_append ls [l]))) hlast

/-- **Every state of a run is good if and only if every step meets the condition**, if a step from
a good run leads to a good state exactly under it. -/
theorem foldl_iff (h0 : I s₀) (hG : G s₀) (hI : ∀ s l, I s → G (f s l) → I (f s l))
    (hC : ∀ s l, I s → (G (f s l) ↔ C s l)) :
    (∀ p, p <+: ls → G (p.foldl f s₀)) ↔ ∀ p l, p ++ [l] <+: ls → C (p.foldl f s₀) l := by
  constructor
  · intro h p l hp
    have hinv : I (p.foldl f s₀) := foldl_inv h0 hI fun q hq =>
      h q ((hq.trans (List.prefix_append p [l])).trans hp)
    have hgood := h _ hp
    rw [List.foldl_append] at hgood
    exact (hC _ l hinv).1 hgood
  · intro h p hp
    have hboth : I (p.foldl f s₀) ∧ G (p.foldl f s₀) := by
      induction p using List.reverseRecOn with
      | nil => exact ⟨h0, hG⟩
      | append_singleton p l ih =>
        have hinv := (ih ((List.prefix_append p [l]).trans hp)).1
        have hgood := (hC _ l hinv).2 (h p l hp)
        rw [List.foldl_append]
        exact ⟨hI _ l hinv hgood, hgood⟩
    exact hboth.2

end foldl
end Runs
