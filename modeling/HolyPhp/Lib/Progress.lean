import Mathlib.Tactic.Common

/-!
# Progress of computations that read

A computation changes a state, what is left to read has a size, and it may fail.  Loops are run
with a check: a round that asks for another one has to have read something.

* `loop`         a loop, with the error of a round that reads nothing;
* `Takes`        the size does not grow, it gets smaller for some results, and no bad error occurs;
* `Takes.first`  **behind what reads something, all that is known of smaller sizes may be used**;
* `Takes.loop`   a loop of rounds that read something has no bad error.
-/

set_option autoImplicit false

namespace Progress

abbrev Comp (σ ε α : Type) := StateT σ (Except ε) α

structure Meter (σ ε : Type) where
  inv : σ → Prop
  size : σ → Nat
  bad : ε → Prop

section
variable {σ ε α : Type} (size : σ → Nat) (idle : ε)

/-- `body` says whether there is another round -/
def rounds (body : α → Comp σ ε (Bool × α)) : Nat → α → Comp σ ε α
  | 0, _, _ => .error idle
  | n + 1, a, s =>
    match body a s with
    | .error e => .error e
    | .ok ((false, a), t) => .ok (a, t)
    | .ok ((true, a), t) => if size t < size s then rounds body n a t else .error idle

def loop (body : α → Comp σ ε (Bool × α)) (a : α) : Comp σ ε α := fun s =>
  rounds size idle body (size s + 1) a s

end

variable {σ ε α β : Type} {M : Meter σ ε} {n m : Nat} {must : α → Bool} {must' : β → Bool}

/-- the result of a computation from `s` on -/
def Fine (M : Meter σ ε) (s : σ) (must : α → Bool) : Except ε (α × σ) → Prop
  | .ok (a, t) => M.inv t ∧ M.size t ≤ M.size s ∧ (must a = true → M.size t < M.size s)
  | .error e => ¬M.bad e

/-- from sizes less than `n` on -/
def Takes (M : Meter σ ε) (n : Nat) (must : α → Bool) (p : Comp σ ε α) : Prop :=
  ∀ s, M.inv s → M.size s < n → Fine M s must (p s)

/-- it does not have to read anything -/
abbrev Keeps (M : Meter σ ε) (n : Nat) (p : Comp σ ε α) : Prop := Takes M n (fun _ => false) p

/-- it reads something -/
abbrev Eats (M : Meter σ ε) (n : Nat) (p : Comp σ ε α) : Prop := Takes M n (fun _ => true) p

theorem Fine.bind {s t : σ} {a : α} {p : Comp σ ε α} {f : α → Comp σ ε β}
    (h : p s = .ok (a, t)) (hf : Fine M s must' (f a t)) : Fine M s must' ((p >>= f) s) := by
  have hb : (p >>= f) s = f a t := by
    show (p s >>= fun x => f x.1 x.2) = f a t
    rw [h]
    rfl
  rwa [hb]

theorem Fine.bind_error {s : σ} {e : ε} {p : Comp σ ε α} {f : α → Comp σ ε β}
    (h : p s = .error e) (he : ¬M.bad e) : Fine M s must' ((p >>= f) s) := by
  have hb : (p >>= f) s = .error e := by
    show (p s >>= fun x => f x.1 x.2) = .error e
    rw [h]
    rfl
  rw [hb]
  exact he

namespace Takes

theorem zero (p : Comp σ ε α) : Takes M 0 must p := fun _ _ h => absurd h (Nat.not_lt_zero _)

theorem mono {p : Comp σ ε α} (h : Takes M n must p) (hm : m ≤ n) : Takes M m must p :=
  fun s hs hlt => h s hs (Nat.lt_of_lt_of_le hlt hm)

theorem weaken {p : Comp σ ε α} {must' : α → Bool} (h : Takes M n must p)
    (hm : ∀ a, must' a = true → must a = true) : Takes M n must' p := by
  intro s hs hlt
  have hp := h s hs hlt
  cases hr : p s with
  | error e =>
    rw [hr] at hp
    exact hp
  | ok r =>
    rw [hr] at hp
    exact ⟨hp.1, hp.2.1, fun ha => hp.2.2 (hm _ ha)⟩

theorem keeps {p : Comp σ ε α} (h : Takes M n must p) : Keeps M n p :=
  h.weaken fun _ h => nomatch h

theorem pure {a : α} (h : must a = false) : Takes M n must (Pure.pure a) :=
  fun _ hs _ => ⟨hs, Nat.le_refl _, fun h' => absurd (h ▸ h') Bool.false_ne_true⟩

theorem throw {e : ε} (h : ¬M.bad e) : Takes M n must (fun _ => .error e) := fun _ _ _ => h

/-- `f` goes on at the same sizes where `p` may have read nothing, at smaller ones elsewhere -/
theorem next {p : Comp σ ε α} {f : α → Comp σ ε β} (hp : Takes M n must p)
    (hf : ∀ a, must a = false → Takes M n must' (f a))
    (hf' : ∀ a, must a = true → Keeps M (n - 1) (f a)) : Takes M n must' (p >>= f) := by
  intro s hs hlt
  have h := hp s hs hlt
  cases hr : p s with
  | error e =>
    rw [hr] at h
    exact .bind_error hr h
  | ok r =>
    obtain ⟨a, t⟩ := r
    rw [hr] at h
    obtain ⟨ht, hle, hmust⟩ := h
    refine .bind hr ?_
    cases ha : must a with
    | false =>
      have h := hf a ha t ht (by omega)
      cases hu : f a t with
      | error e =>
        rw [hu] at h
        exact h
      | ok r =>
        rw [hu] at h
        exact ⟨h.1, Nat.le_trans h.2.1 hle, fun hm => Nat.lt_of_lt_of_le (h.2.2 hm) hle⟩
    | true =>
      have hts := hmust ha
      have h := hf' a ha t ht (by omega)
      cases hu : f a t with
      | error e =>
        rw [hu] at h
        exact h
      | ok r =>
        rw [hu] at h
        exact ⟨h.1, Nat.le_trans h.2.1 hle, fun _ => Nat.lt_of_le_of_lt h.2.1 hts⟩

/-- something is read first -/
theorem first {p : Comp σ ε α} {f : α → Comp σ ε β} (hp : Eats M n p)
    (hf : ∀ a, Keeps M (n - 1) (f a)) : Takes M n must' (p >>= f) :=
  next hp (fun _ h => nomatch h) fun a _ => hf a

theorem bind {p : Comp σ ε α} {f : α → Comp σ ε β} (hp : Keeps M n p)
    (hf : ∀ a, Takes M n must' (f a)) : Takes M n must' (p >>= f) :=
  next hp (fun a _ => hf a) fun _ h => nomatch h

/-- a round that asks for another one reads something -/
theorem rounds {body : α → Comp σ ε (Bool × α)} {idle : ε} (h : ∀ a, Takes M n Prod.fst (body a))
    (k : Nat) (a : α) (s : σ) (hs : M.inv s) (hlt : M.size s < n) (hk : M.size s < k) :
    Fine M s (fun _ => false) (Progress.rounds M.size idle body k a s) := by
  induction k generalizing a s with
  | zero => exact absurd hk (Nat.not_lt_zero _)
  | succ k ih =>
    have hb := h a s hs hlt
    rw [Progress.rounds]
    split
    · next e he =>
      rw [he] at hb
      exact hb
    · next a' t ht =>
      rw [ht] at hb
      exact ⟨hb.1, hb.2.1, fun h => nomatch h⟩
    · next a' t ht =>
      rw [ht] at hb
      have hts := hb.2.2 rfl
      rw [if_pos hts]
      have hr := ih a' t hb.1 (by omega) (by omega)
      cases hu : Progress.rounds M.size idle body k a' t with
      | error e =>
        rw [hu] at hr
        exact hr
      | ok r =>
        rw [hu] at hr
        exact ⟨hr.1, Nat.le_trans hr.2.1 hb.2.1, fun h => nomatch h⟩

theorem loop {body : α → Comp σ ε (Bool × α)} {idle : ε} (h : ∀ a, Takes M n Prod.fst (body a))
    (a : α) : Keeps M n (Progress.loop M.size idle body a) :=
  fun s hs hlt => rounds h _ a s hs hlt (Nat.lt_succ_self _)

/-- the first round reads something -/
theorem loop_eats {body : α → Comp σ ε (Bool × α)} {idle : ε} (h : ∀ a, Eats M n (body a))
    (a : α) : Eats M n (Progress.loop M.size idle body a) := by
  intro s hs hlt
  have hb := h a s hs hlt
  show Fine M s _ (Progress.rounds M.size idle body (M.size s + 1) a s)
  rw [Progress.rounds]
  split
  · next e he =>
    rw [he] at hb
    exact hb
  · next a' t ht =>
    rw [ht] at hb
    exact ⟨hb.1, hb.2.1, fun _ => hb.2.2 rfl⟩
  · next a' t ht =>
    rw [ht] at hb
    have hts := hb.2.2 rfl
    rw [if_pos hts]
    have hr : Fine M t (fun _ => false) (Progress.rounds M.size idle body (M.size s) a' t) :=
      rounds (fun a => (h a).weaken fun _ _ => rfl) (M.size s) a' t hb.1 (Nat.lt_trans hts hlt) hts
    cases hu : Progress.rounds M.size idle body (M.size s) a' t with
    | error e =>
      rw [hu] at hr
      exact hr
    | ok r =>
      rw [hu] at hr
      exact ⟨hr.1, Nat.le_trans hr.2.1 hb.2.1, fun _ => Nat.lt_of_le_of_lt hr.2.1 hts⟩

end Takes

end Progress
