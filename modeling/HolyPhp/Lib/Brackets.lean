import Mathlib.Data.List.Basic
import Mathlib.Tactic.Common

/-!
# Brackets outside of quotes

A text is read with a depth and a mode: brackets count in code, and between quotes nothing does.

* `Balanced`         every bracket that is closed has been opened, all are closed, and no quote is open;
* `Balanced.run`     such a text changes nothing at any depth;
* `Balanced.fill`    **a frame with balanced texts in its holes is balanced.**
-/

set_option autoImplicit false

namespace Brackets

structure Lexis (α : Type) where
  opens : α → Bool
  closes : α → Bool
  quote : α → Bool
  /-- what comes next does not end the quote -/
  escape : α → Bool

inductive Mode where
  | code | quoted | escaped
  deriving DecidableEq

variable {α : Type} (L : Lexis α)

def step : Mode × Nat → α → Option (Mode × Nat)
  | (.code, d), c =>
    if L.opens c then some (.code, d + 1)
    else if L.closes c then if d = 0 then none else some (.code, d - 1)
    else if L.quote c then some (.quoted, d)
    else some (.code, d)
  | (.quoted, d), c =>
    if L.escape c then some (.escaped, d)
    else if L.quote c then some (.code, d)
    else some (.quoted, d)
  | (.escaped, d), _ => some (.quoted, d)

def run (st : Mode × Nat) : List α → Option (Mode × Nat)
  | [] => some st
  | c :: s => (step L st c).bind fun st => run st s

def Balanced (s : List α) : Prop := run L (.code, 0) s = some (.code, 0)

variable {L} {s t x y : List α} {st : Mode × Nat}

theorem run_append (st : Mode × Nat) (s t : List α) :
    run L st (s ++ t) = (run L st s).bind fun st => run L st t := by
  induction s generalizing st with
  | nil => rfl
  | cons c s ih =>
    rw [List.cons_append, run, run, Option.bind_assoc]
    exact congrArg _ (funext ih)

/-- what is read at one depth is read at a greater one -/
theorem step_shift {m m' : Mode} {d d' : Nat} {c : α} (h : step L (m, d) c = some (m', d'))
    (k : Nat) : step L (m, d + k) c = some (m', d' + k) := by
  cases m with
  | code =>
    rw [step] at h ⊢
    split at h
    · next ho =>
      cases h
      rw [if_pos ho, Nat.add_right_comm]
    · next ho =>
      rw [if_neg ho]
      split at h
      · next hc =>
        rw [if_pos hc]
        split at h
        · cases h
        · next h0 =>
          cases h
          rw [if_neg (by omega)]
          exact congrArg (fun n => some (Mode.code, n)) (by omega)
      · next hc =>
        rw [if_neg hc]
        split at h
        · next hq =>
          cases h
          rw [if_pos hq]
        · next hq =>
          cases h
          rw [if_neg hq]
  | quoted =>
    rw [step] at h ⊢
    split at h
    · next he =>
      cases h
      rw [if_pos he]
    · next he =>
      rw [if_neg he]
      split at h
      · next hq =>
        cases h
        rw [if_pos hq]
      · next hq =>
        cases h
        rw [if_neg hq]
  | escaped =>
    cases h
    rfl

theorem run_shift {m m' : Mode} {d d' : Nat} (h : run L (m, d) s = some (m', d')) (k : Nat) :
    run L (m, d + k) s = some (m', d' + k) := by
  induction s generalizing m d with
  | nil =>
    cases h
    rfl
  | cons c s ih =>
    rw [run] at h ⊢
    obtain ⟨⟨m1, d1⟩, h1, h⟩ := Option.bind_eq_some_iff.1 h
    rw [step_shift h1 k, Option.bind_some]
    exact ih h

theorem Balanced.run (h : Balanced L s) (d : Nat) :
    Brackets.run L (.code, d) s = some (.code, d) := by
  have hd := run_shift h d
  rwa [Nat.zero_add] at hd

/-- a text that balanced texts can be put in, at two places -/
def Frame (L : Lexis α) (pre mid post : List α) : Prop :=
  ∃ a b, run L (.code, 0) pre = some (.code, a) ∧ run L (.code, a) mid = some (.code, b) ∧
    run L (.code, b) post = some (.code, 0)

theorem Balanced.fill {pre mid post : List α} (h : Frame L pre mid post) (hx : Balanced L x)
    (hy : Balanced L y) : Balanced L (pre ++ x ++ mid ++ y ++ post) := by
  obtain ⟨a, b, ha, hb, h0⟩ := h
  rw [Balanced, run_append, run_append, run_append, run_append, ha, Option.bind_some, hx.run,
    Option.bind_some, hb, Option.bind_some, hy.run, Option.bind_some, h0]

/-- and at one place -/
theorem Balanced.wrap {pre post : List α} {a : Nat}
    (ha : Brackets.run L (.code, 0) pre = some (.code, a))
    (h0 : Brackets.run L (.code, a) post = some (.code, 0)) (hx : Balanced L x) :
    Balanced L (pre ++ x ++ post) := by
  rw [Balanced, run_append, run_append, ha, Option.bind_some, hx.run, Option.bind_some, h0]

theorem Balanced.append (hx : Balanced L x) (hy : Balanced L y) : Balanced L (x ++ y) := by
  rw [Balanced, run_append, hx, Option.bind_some, hy]

theorem balanced_of_plain (h : ∀ c ∈ s, L.opens c = false ∧ L.closes c = false ∧ L.quote c = false) :
    Balanced L s := by
  induction s with
  | nil => rfl
  | cons c s ih =>
    obtain ⟨ho, hc, hq⟩ := h c List.mem_cons_self
    have hs : step L (.code, 0) c = some (.code, 0) := by
      rw [step, ho, hc, hq]
      rfl
    rw [Balanced, Brackets.run, hs, Option.bind_some]
    exact ih fun d hd => h d (List.mem_cons_of_mem c hd)

end Brackets
