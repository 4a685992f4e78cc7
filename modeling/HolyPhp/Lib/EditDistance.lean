import Mathlib.Order.Bounds.Basic
import Mathlib.Order.Lattice.Nat
import Mathlib.Tactic.Common

/-!
# The edit distance of lists

* `Edits n x y`  `n` single insertions, deletions and substitutions turn `x` into `y`;
* `dist`         the distance, by recursion at the front;
* `dist_isLeast` **it is the least number of edits**;
* `dist_concat`  the same recursion at the end.
-/

set_option autoImplicit false

namespace EditDistance
variable {α : Type*}

/-- one element is inserted, deleted or replaced -/
inductive Edit : List α → List α → Prop
  | insert (u v : List α) (c : α) : Edit (u ++ v) (u ++ c :: v)
  | delete (u v : List α) (c : α) : Edit (u ++ c :: v) (u ++ v)
  | replace (u v : List α) (c d : α) : Edit (u ++ c :: v) (u ++ d :: v)

inductive Edits : Nat → List α → List α → Prop
  | refl (x : List α) : Edits 0 x x
  | step {n : Nat} {x y z : List α} : Edit x y → Edits n y z → Edits (n + 1) x z

section
variable {n m : Nat} {x y z : List α}

theorem Edit.cons (a : α) (h : Edit x y) : Edit (a :: x) (a :: y) := by
  cases h with
  | insert u v c => exact .insert (a :: u) v c
  | delete u v c => exact .delete (a :: u) v c
  | replace u v c d => exact .replace (a :: u) v c d

theorem Edit.reverse (h : Edit x y) : Edit x.reverse y.reverse := by
  cases h with
  | insert u v c =>
    rw [List.reverse_append, List.reverse_append, List.reverse_cons, List.append_assoc]
    exact .insert v.reverse u.reverse c
  | delete u v c =>
    rw [List.reverse_append, List.reverse_append, List.reverse_cons, List.append_assoc]
    exact .delete v.reverse u.reverse c
  | replace u v c d =>
    rw [List.reverse_append, List.reverse_append, List.reverse_cons, List.reverse_cons,
      List.append_assoc, List.append_assoc]
    exact .replace v.reverse u.reverse c d

theorem Edits.cons (a : α) (h : Edits n x y) : Edits n (a :: x) (a :: y) := by
  induction h with
  | refl x => exact .refl (a :: x)
  | step he _ ih => exact .step (he.cons a) ih

theorem Edits.reverse (h : Edits n x y) : Edits n x.reverse y.reverse := by
  induction h with
  | refl x => exact .refl x.reverse
  | step he _ ih => exact .step he.reverse ih

theorem Edits.inserts (y : List α) : Edits y.length [] y := by
  induction y with
  | nil => exact .refl []
  | cons b y ih => exact .step (.insert [] [] b) (ih.cons b)

theorem Edits.deletes (x : List α) : Edits x.length x [] := by
  induction x with
  | nil => exact .refl []
  | cons a x ih => exact .step (.delete [] x a) ih

end

/-! ## the distance -/

variable [DecidableEq α]

/-- replacing `a` by `b` -/
def cost (a b : α) : Nat := if a = b then 0 else 1

def dist : List α → List α → Nat
  | [], y => y.length
  | a :: x, [] => (a :: x).length
  | a :: x, b :: y =>
    min (min (dist x (b :: y) + 1) (dist (a :: x) y + 1)) (dist x y + cost a b)
termination_by x y => x.length + y.length

section
variable {n : Nat} {x y z : List α} {a b : α}

@[simp] theorem dist_nil_left (y : List α) : dist [] y = y.length := by rw [dist]

@[simp] theorem dist_nil_right (x : List α) : dist x [] = x.length := by
  cases x <;> rw [dist]

theorem dist_cons (a b : α) (x y : List α) : dist (a :: x) (b :: y) =
    min (min (dist x (b :: y) + 1) (dist (a :: x) y + 1)) (dist x y + cost a b) := by
  rw [dist]

theorem cost_le (a b : α) : cost a b ≤ 1 := by
  rw [cost]
  split <;> omega

theorem dist_cons_left_le (a : α) (x y : List α) : dist (a :: x) y ≤ dist x y + 1 := by
  cases y with
  | nil => simp
  | cons b y =>
    rw [dist_cons]
    omega

theorem dist_cons_right_le (b : α) (x y : List α) : dist x (b :: y) ≤ dist x y + 1 := by
  cases x with
  | nil => simp
  | cons a x =>
    rw [dist_cons]
    omega

/-- one more element in front changes the distance by 1 at most -/
theorem dist_le_cons_left (c : α) (x z : List α) : dist x z ≤ dist (c :: x) z + 1 := by
  induction z with
  | nil =>
    simp
    omega
  | cons b z ih =>
    have h1 := dist_cons_right_le b x z
    rw [dist_cons]
    omega

theorem dist_replace (c d : α) (x z : List α) : dist (c :: x) z ≤ dist (d :: x) z + 1 := by
  induction z with
  | nil => simp
  | cons b z ih =>
    have h1 := dist_cons c b x z
    have h2 := cost_le c b
    rw [dist_cons d]
    omega

/-- a common element in front -/
theorem dist_cons_mono (h : ∀ z, dist x z ≤ dist y z + 1) (a : α) (z : List α) :
    dist (a :: x) z ≤ dist (a :: y) z + 1 := by
  induction z with
  | nil =>
    have := h []
    simp at this ⊢
    omega
  | cons b z ih =>
    have h1 := h (b :: z)
    have h2 := h z
    rw [dist_cons, dist_cons]
    omega

/-- an edit changes the distance by 1 at most -/
theorem Edit.dist_le (h : Edit x y) (z : List α) : dist x z ≤ dist y z + 1 := by
  have hcons : ∀ (u v w : List α), (∀ z, dist v z ≤ dist w z + 1) →
      ∀ z, dist (u ++ v) z ≤ dist (u ++ w) z + 1 := by
    intro u v w hvw
    induction u with
    | nil => exact hvw
    | cons a u ih => exact dist_cons_mono ih a
  cases h with
  | insert u v c => exact hcons u _ _ (dist_le_cons_left c v) z
  | delete u v c => exact hcons u _ _ (dist_cons_left_le c v) z
  | replace u v c d => exact hcons u _ _ (dist_replace c d v) z

theorem dist_self (x : List α) : dist x x = 0 := by
  induction x with
  | nil => simp
  | cons a x ih =>
    rw [dist_cons, ih, cost, if_pos rfl]
    omega

theorem Edits.dist_le (h : Edits n x y) : dist x y ≤ n := by
  induction h with
  | refl x => rw [dist_self]
  | @step n x y z he _ ih =>
    have := he.dist_le z
    omega

/-- so many edits are enough -/
theorem edits_dist (x y : List α) : Edits (dist x y) x y := by
  induction x, y using dist.induct with
  | case1 y =>
    rw [dist_nil_left]
    exact .inserts y
  | case2 a x =>
    rw [dist_nil_right]
    exact .deletes (a :: x)
  | case3 a x b y ih1 ih2 ih3 =>
    rw [dist_cons]
    rcases min_choice (min (dist x (b :: y) + 1) (dist (a :: x) y + 1)) (dist x y + cost a b)
      with h | h
    · rw [h]
      rcases min_choice (dist x (b :: y) + 1) (dist (a :: x) y + 1) with h' | h'
      · rw [h']
        exact .step (.delete [] x a) ih1
      · rw [h']
        exact .step (.insert [] (a :: x) b) (ih2.cons b)
    · rw [h, cost]
      split
      · next he => exact he ▸ ih3.cons a
      · exact .step (.replace [] x a b) (ih3.cons b)

/-- **The distance** is the least number of edits. -/
theorem dist_isLeast (x y : List α) : IsLeast {n | Edits n x y} (dist x y) :=
  ⟨edits_dist x y, fun _ h => h.dist_le⟩

theorem dist_reverse (x y : List α) : dist x.reverse y.reverse = dist x y := by
  have h : ∀ x y : List α, dist x.reverse y.reverse ≤ dist x y :=
    fun x y => (edits_dist x y).reverse.dist_le
  refine Nat.le_antisymm (h x y) ?_
  have := h x.reverse y.reverse
  rwa [List.reverse_reverse, List.reverse_reverse] at this

/-- **The recursion** at the end of the lists. -/
theorem dist_concat (x y : List α) (a b : α) : dist (x ++ [a]) (y ++ [b]) =
    min (min (dist x (y ++ [b]) + 1) (dist (x ++ [a]) y + 1)) (dist x y + cost a b) := by
  have hsnoc : ∀ (l : List α) (c : α), (l ++ [c]).reverse = c :: l.reverse :=
    fun l c => List.reverse_concat
  rw [← dist_reverse, hsnoc, hsnoc, dist_cons, ← hsnoc, ← hsnoc, dist_reverse, dist_reverse,
    dist_reverse]

end

end EditDistance
