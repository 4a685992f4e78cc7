import Mathlib.Data.List.Forall2

/-!
# Computations that end with an exit

A computation takes a state and gives a state and an exit, `S → S × R`: one exit goes on with
what comes next, the others leave.  Two ways of putting such computations together:

* `rounds`  a loop of at most `n` rounds; a round says whether another one is due (`Round`);
* `runAll`  one after the other as long as the exits go on.

and for each a simulation rule, `rounds_sim` and `runAll_sim`: it is enough to compare single
rounds, and single computations.  The left side may give up: a result that is related to
everything is never compared again.  `rounds_inv` and `runAll_inv` are the rules for one side
alone, and `runCount` says how many members of a sequence have been started.
-/

namespace Exits

variable {S S' R R' : Type}

/-! ## loops -/

/-- what one round of a loop says -/
inductive Round (S R : Type) where
  | again (s : S)
  | stop (s : S) (r : R)

/-- `n` rounds at most, `cut` where they do not suffice -/
def rounds (cut : R) (round : S → Round S R) : Nat → S → S × R
  | 0, s => (s, cut)
  | n + 1, s =>
    match round s with
    | .again t => rounds cut round n t
    | .stop t r => (t, r)

theorem rounds_again {cut : R} {round : S → Round S R} {s t : S} (h : round s = .again t) (n : Nat) :
    rounds cut round (n + 1) s = rounds cut round n t := by
  rw [rounds, h]

theorem rounds_stop {cut : R} {round : S → Round S R} {s t : S} {r : R} (h : round s = .stop t r)
    (n : Nat) : rounds cut round (n + 1) s = (t, r) := by
  rw [rounds, h]

/-- two rounds that agree: both go on in related states, or both stop with related results, or
the left one stops with a result that is related to everything -/
inductive Round.Sim (P : S → S' → Prop) (Q : S × R → S' × R' → Prop) :
    Round S R → Round S' R' → Prop where
  | again {s : S} {s' : S'} : P s s' → Sim P Q (.again s) (.again s')
  | stop {s : S} {r : R} {s' : S'} {r' : R'} : Q (s, r) (s', r') → Sim P Q (.stop s r) (.stop s' r')
  | lost {s : S} {r : R} {x : Round S' R'} : (∀ y, Q (s, r) y) → Sim P Q (.stop s r) x

section rules
variable {P : S → S' → Prop} {Q : S × R → S' × R' → Prop}

/-- loops agree where their rounds do -/
theorem rounds_sim {cut : R} {cut' : R'} {round : S → Round S R} {round' : S' → Round S' R'}
    (hcut : ∀ s s', P s s' → Q (s, cut) (s', cut'))
    (hround : ∀ s s', P s s' → Round.Sim P Q (round s) (round' s')) :
    ∀ n s s', P s s' → Q (rounds cut round n s) (rounds cut' round' n s') := by
  intro n
  induction n with
  | zero => exact hcut
  | succ n ih =>
    intro s s' hs
    have hr := hround s s' hs
    generalize hx : round s = x at hr
    generalize hy : round' s' = y at hr
    cases hr with
    | again ht =>
      rw [rounds_again hx, rounds_again hy]
      exact ih _ _ ht
    | stop hq =>
      rw [rounds_stop hx, rounds_stop hy]
      exact hq
    | lost hq =>
      rw [rounds_stop hx]
      exact hq _

end rules

/-- the state for another round, or the result -/
def Round.Holds (I : S → Prop) (Q : S × R → Prop) : Round S R → Prop
  | .again s => I s
  | .stop s r => Q (s, r)

/-- what single rounds keep is kept by the loop -/
theorem rounds_inv {I : S → Prop} {Q : S × R → Prop} {cut : R} {round : S → Round S R}
    (hcut : ∀ s, I s → Q (s, cut)) (hround : ∀ s, I s → (round s).Holds I Q) :
    ∀ n s, I s → Q (rounds cut round n s) := by
  intro n
  induction n with
  | zero => exact hcut
  | succ n ih =>
    intro s hs
    have hr := hround s hs
    cases hx : round s with
    | again t =>
      rw [hx] at hr
      rw [rounds_again hx]
      exact ih t hr
    | stop t r =>
      rw [hx] at hr
      rw [rounds_stop hx]
      exact hr

/-! ## sequences -/

/-- one after the other as long as the exits go on; `nxt` after the last -/
def runAll (goes : R → Bool) (nxt : R) : List (S → S × R) → S → S × R
  | [], s => (s, nxt)
  | f :: fs, s => if goes (f s).2 then runAll goes nxt fs (f s).1 else f s

section runAll
variable {goes : R → Bool} {nxt : R} {f : S → S × R} {fs : List (S → S × R)} {s : S}

theorem runAll_goes (h : goes (f s).2 = true) :
    runAll goes nxt (f :: fs) s = runAll goes nxt fs (f s).1 := by
  rw [runAll, if_pos h]

theorem runAll_leaves (h : goes (f s).2 = false) : runAll goes nxt (f :: fs) s = f s := by
  rw [runAll, h]
  rfl

/-- what single computations keep is kept by the sequence; `hgoes`: it is there for the next -/
theorem runAll_inv {I : S → Prop} {Q : S × R → Prop} (hnil : ∀ s, I s → Q (s, nxt))
    (hgoes : ∀ x, Q x → goes x.2 = true → I x.1) (h : ∀ f ∈ fs, ∀ s, I s → Q (f s)) :
    ∀ s, I s → Q (runAll goes nxt fs s) := by
  induction fs with
  | nil => exact hnil
  | cons f fs ih =>
    intro s hs
    have hf := h f List.mem_cons_self s hs
    cases hg : goes (f s).2 with
    | true =>
      rw [runAll_goes hg]
      exact ih (fun g hg => h g (List.mem_cons_of_mem f hg)) _ (hgoes _ hf hg)
    | false =>
      rw [runAll_leaves hg]
      exact hf

/-- how many have been started -/
def runCount (goes : R → Bool) : List (S → S × R) → S → Nat
  | [], _ => 0
  | f :: fs, s => 1 + if goes (f s).2 then runCount goes fs (f s).1 else 0

/-- those that have not been started do not matter -/
theorem runAll_take : runAll goes nxt (fs.take (runCount goes fs s)) s = runAll goes nxt fs s := by
  induction fs generalizing s with
  | nil => rfl
  | cons f fs ih =>
    rw [runCount, Nat.add_comm, List.take_succ_cons]
    cases hg : goes (f s).2 with
    | true =>
      rw [if_pos rfl, runAll_goes hg, runAll_goes hg]
      exact ih
    | false => rw [runAll_leaves hg, runAll_leaves hg]

end runAll

section rules
variable {P : S → S' → Prop} {Q : S × R → S' × R' → Prop}

/-- sequences agree where their members do; `hstep`: related results go on together -/
theorem runAll_sim {goes : R → Bool} {goes' : R' → Bool} {nxt : R} {nxt' : R'}
    (hnil : ∀ s s', P s s' → Q (s, nxt) (s', nxt'))
    (hstep : ∀ a b, Q a b →
      (goes a.2 = true ∧ goes' b.2 = true ∧ P a.1 b.1) ∨
      (goes a.2 = false ∧ (goes' b.2 = true → ∀ y, Q a y)))
    {fs : List (S → S × R)} {gs : List (S' → S' × R')}
    (h : List.Forall₂ (fun f g => ∀ s s', P s s' → Q (f s) (g s')) fs gs) :
    ∀ s s', P s s' → Q (runAll goes nxt fs s) (runAll goes' nxt' gs s') := by
  induction h with
  | nil => exact hnil
  | @cons f g fs gs hfg _ ih =>
    intro s s' hs
    have hq := hfg s s' hs
    rcases hstep _ _ hq with ⟨ha, hb, hp⟩ | ⟨ha, hb⟩
    · rw [runAll_goes ha, runAll_goes hb]
      exact ih _ _ hp
    · rw [runAll_leaves ha]
      cases hg : goes' (g s').2 with
      | true => exact hb hg _
      | false =>
        rw [runAll_leaves hg]
        exact hq

end rules

end Exits
