import Mathlib.Logic.Relation

/-!
# Powers of a relation, and a loop that makes rounds

* `Power R n`       `n` steps of `R`;
* `Power.shorten`   of more than `lo` steps, those that stay where they are can be left out, and
                    what is left is no longer than `lo` and the way that was made;
* `Rounds R lo C n` a loop after `n` rounds: it may stop from `lo` rounds on, and makes another
                    one as long as `C` allows it.

`rounds_iff` and `rounds_comp_iff` are the loop seen from its head; `rounds_bounded` says that a
bound of `lo` and the longest way cuts nothing off.
-/

namespace Relation
variable {α : Type*} {R : α → α → Prop} {C : Nat → Prop} {f : α → Nat} {p q : α} {n lo : Nat}

def Power (R : α → α → Prop) : Nat → α → α → Prop
  | 0 => Eq
  | n + 1 => Comp R (Power R n)

/-- what is kept by a step is kept by all of them -/
theorem Power.inv {I : α → α → Prop} (h0 : ∀ p, I p p) (h1 : ∀ p r q, R p r → I r q → I p q)
    (h : Power R n p q) : I p q := by
  induction n generalizing p with
  | zero =>
    have h : p = q := h
    exact h ▸ h0 p
  | succ n ih =>
    obtain ⟨r, hpr, hrq⟩ := h
    exact h1 p r q hpr (ih hrq)

/-- `n` steps, of which those after the first `lo` make way in the measure `f` -/
theorem Power.shorten (hR : ∀ p q, R p q → p = q ∨ f p < f q) (h : Power R n p q) (hlo : lo ≤ n) :
    ∃ m, lo ≤ m ∧ m ≤ n ∧ f p + m ≤ f q + lo ∧ Power R m p q := by
  induction n generalizing lo p with
  | zero =>
    have h : p = q := h
    exact ⟨0, hlo, Nat.le_refl 0, by rw [h]; omega, h⟩
  | succ n ih =>
    obtain ⟨r, hpr, hrq⟩ := h
    rcases hR p r hpr with rfl | hlt
    · by_cases e : lo = n + 1
      · have hle : f p ≤ f q := by
          obtain ⟨m, -, -, hm, -⟩ := ih hrq (Nat.zero_le n)
          omega
        exact ⟨n + 1, hlo, Nat.le_refl _, by omega, p, hpr, hrq⟩
      · -- the first step goes nowhere and is not needed
        obtain ⟨m, h1, h2, h3, hm⟩ := ih hrq (show lo ≤ n by omega)
        exact ⟨m, h1, by omega, h3, hm⟩
    · obtain ⟨m, h1, h2, h3, hm⟩ := ih hrq (show lo - 1 ≤ n by omega)
      exact ⟨m + 1, by omega, by omega, by omega, r, hpr, hm⟩

def Rounds (R : α → α → Prop) (lo : Nat) (C : Nat → Prop) (n : Nat) (p q : α) : Prop :=
  ∃ m, lo ≤ n + m ∧ (∀ i < m, C (n + i)) ∧ Power R m p q

/-- the loop stops here, or makes one more round -/
theorem rounds_iff : Rounds R lo C n p q ↔
    (lo ≤ n ∧ p = q) ∨ (C n ∧ Comp R (Rounds R lo C (n + 1)) p q) := by
  constructor
  · intro h
    obtain ⟨m, hlo, hC, hm⟩ := h
    cases m with
    | zero => exact .inl ⟨hlo, hm⟩
    | succ m =>
      obtain ⟨r, hpr, hrq⟩ := hm
      refine .inr ⟨hC 0 (Nat.succ_pos m), r, hpr, m, by omega, fun i hi => ?_, hrq⟩
      have := hC (i + 1) (Nat.succ_lt_succ hi)
      rwa [show n + (i + 1) = n + 1 + i by omega] at this
  · intro h
    rcases h with ⟨hlo, hpq⟩ | ⟨hC, r, hpr, m, hlo, hm, hrq⟩
    · exact ⟨0, hlo, fun i hi => absurd hi (Nat.not_lt_zero i), hpq⟩
    · refine ⟨m + 1, by omega, fun i hi => ?_, r, hpr, hrq⟩
      cases i with
      | zero => exact hC
      | succ i =>
        rw [show n + (i + 1) = n + 1 + i by omega]
        exact hm i (by omega)

/-- the same with something behind the loop -/
theorem rounds_comp_iff {S : α → α → Prop} : Comp (Rounds R lo C n) S p q ↔
    (lo ≤ n ∧ S p q) ∨ (C n ∧ Comp R (Comp (Rounds R lo C (n + 1)) S) p q) := by
  constructor
  · intro h
    obtain ⟨r, hpr, hrq⟩ := h
    rcases rounds_iff.mp hpr with ⟨hlo, rfl⟩ | ⟨hC, t, hpt, htr⟩
    · exact .inl ⟨hlo, hrq⟩
    · exact .inr ⟨hC, t, hpt, r, htr, hrq⟩
  · intro h
    rcases h with ⟨hlo, hpq⟩ | ⟨hC, t, hpt, r, htr, hrq⟩
    · exact ⟨p, rounds_iff.mpr (.inl ⟨hlo, rfl⟩), hpq⟩
    · exact ⟨r, rounds_iff.mpr (.inr ⟨hC, t, hpt, htr⟩), hrq⟩

/-- **A bound on the rounds cuts nothing off** when it leaves room for `lo` and the whole way. -/
theorem rounds_bounded {D : Nat → Prop} {cap : Nat} (hR : ∀ p q, R p q → p = q ∨ f p < f q)
    (hD0 : D 0) (hD : ∀ m n, m ≤ n → D n → D m) (hcap : ∀ m, Power R m p q → f q + lo ≤ cap) :
    Rounds R lo (fun i => D (i + 1) ∧ i < cap) 0 p q ↔ ∃ m, lo ≤ m ∧ D m ∧ Power R m p q := by
  constructor
  · intro h
    obtain ⟨m, hlo, hC, hm⟩ := h
    refine ⟨m, by omega, ?_, hm⟩
    cases m with
    | zero => exact hD0
    | succ m =>
      have := (hC m (Nat.lt_succ_self m)).1
      rwa [Nat.zero_add] at this
  · intro h
    obtain ⟨n, hlo, hDn, hn⟩ := h
    have := hcap n hn
    obtain ⟨m, h1, h2, h3, hm⟩ := hn.shorten hR hlo
    exact ⟨m, by omega, fun i hi => ⟨hD _ _ (by omega) hDn, by omega⟩, hm⟩

end Relation
