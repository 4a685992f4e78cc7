import Mathlib.Algebra.Group.Nat.Defs
import Mathlib.Data.Nat.Log

/-!
# Balanced trees of an operation

* `Tree`     the ways of applying a binary operation to a sequence of operands;
* `build`    the tree of the operands `f lo`, .., `f (hi - 1)`, halved again and again;
* `build_spec`  it has all of them in order, and its depth is logarithmic;
* `eval_eq`  for an associative operation the leaves are all that matters.
-/

set_option autoImplicit false

namespace Balanced

inductive Tree (α : Type) where
  | leaf (a : α)
  | node (l r : Tree α)

namespace Tree

variable {α : Type}

def leaves : Tree α → List α
  | leaf a => [a]
  | node l r => leaves l ++ leaves r

/-- the operations on the longest path -/
def depth : Tree α → Nat
  | leaf _ => 0
  | node l r => max (depth l) (depth r) + 1

def eval {β : Type} (op : β → β → β) (f : α → β) : Tree α → β
  | leaf a => f a
  | node l r => op (eval op f l) (eval op f r)

theorem leaves_ne_nil (t : Tree α) : t.leaves ≠ [] := by
  induction t with
  | leaf a => exact List.cons_ne_nil _ _
  | node l r ihl ihr => exact fun h => ihl (List.append_eq_nil_iff.1 h).1

end Tree

/-! ## associative operations -/

section
variable {α β : Type} {op : β → β → β} {f : α → β}

/-- from the left -/
def fold (op : β → β → β) : List β → Option β
  | [] => none
  | b :: bs => some (bs.foldl op b)

theorem foldl_assoc (hop : ∀ a b c, op (op a b) c = op a (op b c)) (a b : β) (bs : List β) :
    bs.foldl op (op a b) = op a (bs.foldl op b) := by
  induction bs generalizing b with
  | nil => rfl
  | cons c bs ih =>
    rw [List.foldl_cons, List.foldl_cons, hop]
    exact ih (op b c)

/-- **The value of a tree** is the one of its leaves from the left. -/
theorem fold_leaves (hop : ∀ a b c, op (op a b) c = op a (op b c)) (f : α → β) (t : Tree α) :
    fold op (t.leaves.map f) = some (t.eval op f) := by
  induction t with
  | leaf a => rfl
  | node l r ihl ihr =>
    rw [Tree.leaves, List.map_append]
    cases hl : l.leaves.map f with
    | nil => exact absurd (List.map_eq_nil_iff.1 hl) l.leaves_ne_nil
    | cons a as =>
      cases hr : r.leaves.map f with
      | nil => exact absurd (List.map_eq_nil_iff.1 hr) r.leaves_ne_nil
      | cons b bs =>
        rw [hl] at ihl
        rw [hr] at ihr
        have ha : as.foldl op a = l.eval op f := Option.some.inj ihl
        have hb : bs.foldl op b = r.eval op f := Option.some.inj ihr
        show some ((as ++ b :: bs).foldl op a) = _
        rw [List.foldl_append, List.foldl_cons, foldl_assoc hop, ha, hb]
        rfl

theorem eval_eq (hop : ∀ a b c, op (op a b) c = op a (op b c)) {t u : Tree α}
    (h : t.leaves = u.leaves) : t.eval op f = u.eval op f := by
  have ht := fold_leaves hop f t
  rw [h, fold_leaves hop f u] at ht
  exact (Option.some.inj ht).symm

end

/-! ## halving -/

section
variable {α : Type}

/-- `none`: there is no operand, and halving does not end -/
def build (f : Nat → Option (Tree α)) (lo hi : Nat) : Option (Tree α) :=
  if hi ≤ lo then none
  else if hi - lo = 1 then f lo
  else
    (build f lo (lo + (hi - lo) / 2)).bind fun a =>
      (build f (lo + (hi - lo) / 2) hi).map (.node a)
termination_by hi - lo

theorem build_one {f : Nat → Option (Tree α)} {lo hi : Nat} (h : hi - lo = 1) :
    build f lo hi = f lo := by
  rw [build, if_neg (by omega), if_pos h]

theorem build_two {f : Nat → Option (Tree α)} {lo hi : Nat} (h : 2 ≤ hi - lo) :
    build f lo hi = (build f lo (lo + (hi - lo) / 2)).bind fun a =>
      (build f (lo + (hi - lo) / 2) hi).map (.node a) := by
  rw [build, if_neg (by omega), if_neg (by omega)]

/-- the operands from `lo` on, one after the other -/
def between (g : Nat → Tree α) (lo n : Nat) : List α :=
  (List.range' lo n).flatMap fun i => (g i).leaves

theorem between_add (g : Nat → Tree α) (lo m n : Nat) :
    between g lo m ++ between g (lo + m) n = between g lo (m + n) := by
  unfold between
  rw [← List.flatMap_append, ← List.range'_append_1]

/-- **The tree has all operands in order**, and `k` levels above them where there are `2 ^ k` at
most. -/
theorem build_spec {f : Nat → Option (Tree α)} {g : Nat → Tree α} {lo hi : Nat} (h : lo < hi)
    (hf : ∀ i, lo ≤ i → i < hi → f i = some (g i)) :
    ∃ t, build f lo hi = some t ∧ t.leaves = between g lo (hi - lo) ∧
      ∀ d, (∀ i, lo ≤ i → i < hi → (g i).depth ≤ d) → ∀ k, hi - lo ≤ 2 ^ k → t.depth ≤ k + d := by
  induction hn : hi - lo using Nat.strong_induction_on generalizing lo hi with
  | _ n ih =>
    subst hn
    by_cases h1 : hi - lo = 1
    · refine ⟨g lo, ?_, ?_, fun d hd k _ => ?_⟩
      · rw [build_one h1, hf lo (Nat.le_refl lo) h]
      · rw [h1]
        exact (List.append_nil _).symm
      · exact Nat.le_trans (hd lo (Nat.le_refl lo) h) (Nat.le_add_left d k)
    · have h2 : 2 ≤ hi - lo := by omega
      generalize hm : lo + (hi - lo) / 2 = mid
      obtain ⟨a, ha, hal, had⟩ := ih (mid - lo) (by omega) (show lo < mid by omega)
        (fun i h3 h4 => hf i h3 (by omega)) rfl
      obtain ⟨b, hb, hbl, hbd⟩ := ih (hi - mid) (by omega) (show mid < hi by omega)
        (fun i h3 h4 => hf i (by omega) h4) rfl
      refine ⟨.node a b, ?_, ?_, fun d hd k hk => ?_⟩
      · rw [build_two h2, hm, ha, Option.bind_some, hb]
        rfl
      · have hsum := between_add g lo (mid - lo) (hi - mid)
        rw [show lo + (mid - lo) = mid by omega, show mid - lo + (hi - mid) = hi - lo by omega]
          at hsum
        rw [Tree.leaves, hal, hbl, hsum]
      · cases k with
        | zero => omega
        | succ k =>
          rw [Nat.pow_succ] at hk
          have h3 := had d (fun i h3 h4 => hd i h3 (by omega)) k (by omega)
          have h4 := hbd d (fun i h3 h4 => hd i (by omega) h4) k (by omega)
          rw [Tree.depth]
          omega

end

end Balanced
