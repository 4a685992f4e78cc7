import HolyPhp.Lib.Insertion
import HolyPhp.Runtime.Sort

/-!
# `usort`, `uasort`, `uksort`

An insertion sort in place that calls the comparator; the moving element is outside of the array
while the comparator runs.  The comparator is any function of the number of the call and of its
two arguments; `none` is a call that throws, and then the array stays as it is at that call.

* `hpSortWithFn`        the function; a run ends, or is thrown out of with the locals it has;
* `shift_spec`, `rounds_spec`  what the array holds in the inner loop, and after a round;
* `usort_law`           the sorted array, and the array after a throw.
-/

set_option autoImplicit false

namespace HolyPhp
namespace Std
open Sorting Insertion Arr Function
open Cmp hiding Val

/-- what a run comes to; `i`, `j` and `tv` are the locals at the call that throws -/
inductive SortRun where
  | done (a : Harr)
  | thrown (a : Harr) (i j : Nat) (tv : Val)

/-- `A`: what stands in the slot `j`, for the comparator -/
def sortArg (byKey : Bool) (a : Harr) (j : Nat) : Val :=
  if byKey then (if a.keyed then a.key j else .int (Int64.ofNat j)) else a.vals j

/-- the element of the slot `j` goes up -/
def shiftUp (a : Harr) (j : Nat) : Harr :=
  { a with
    vals := update a.vals (j + 1) (a.vals j)
    keys := if a.keyed then update a.keys (j + 1) (a.keys j) else a.keys }

/-- the held element goes into the slot `j` -/
def putHeld (a : Harr) (j : Nat) (tk : Key) (tv : Val) : Harr :=
  { a with
    vals := update a.vals j tv
    keys := if a.keyed then update a.keys j tk else a.keys }

/-- the inner loop, with the number of calls -/
def sortShift (fn : Nat → Val → Val → Option Val) (byKey : Bool) (held : Val) :
    Nat → Harr → Nat → Except (Harr × Nat) (Harr × Nat × Nat)
  | 0, a, c => .ok (a, 0, c)
  | j + 1, a, c =>
    match fn c (sortArg byKey a j) held with
    | none => .error (a, j + 1)
    | some r =>
      if 0 < hpValToInt r then sortShift fn byKey held j (shiftUp a j) (c + 1)
      else .ok (a, j + 1, c + 1)

/-- `r` rounds of the outer loop, from `i` on -/
def sortRounds (fn : Nat → Val → Val → Option Val) (byKey : Bool) :
    Nat → Nat → Harr → Nat → SortRun
  | 0, _, a, _ => .done a
  | r + 1, i, a, c =>
    let tv := a.vals i
    let tk := if a.keyed then a.keys i else ⟨.null, true⟩
    match sortShift fn byKey (if byKey then tk.val else tv) i a c with
    | .error (b, j) => .thrown b i j tv
    | .ok (b, j, c) => sortRounds fn byKey r (i + 1) (putHeld b j tk tv) c

/-- `call` is `hp_closure_call` -/
def hpSortWithFn (call : Option Addr → Nat → Val → Val → Option Val) (a : Harr) (byKey : Bool)
    (fn : Val) : SortRun :=
  match fn with
  | .clo p => if a.len < 2 then .done a else sortRounds (call p) byKey (a.len - 1) 1 a 0
  | _ => .done a

section
variable (call : Option Addr → Nat → Val → Val → Option Val)

def hpbiUasort (a : Harr) (fn : Val) : SortRun := hpSortWithFn call a false fn

def hpbiUksort (a : Harr) (fn : Val) : SortRun := hpSortWithFn call a true fn

end

section
variable {fn : Nat → Val → Val → Option Val} {byKey : Bool} {held : Val} {a b : Harr}
  {i j c n : Nat}

/-! ## the inner loop -/

/-- the array in the inner loop -/
def shiftedArr (a : Harr) (j i : Nat) : Harr :=
  { a with
    vals := shifted a.vals j i
    keys := if a.keyed then shifted a.keys j i else a.keys }

def insertedArr (a : Harr) (j i : Nat) : Harr :=
  { a with
    vals := inserted a.vals j i
    keys := if a.keyed then inserted a.keys j i else a.keys }

theorem shiftedArr_self (a : Harr) (i : Nat) : shiftedArr a i i = a := by
  rw [shiftedArr, shifted_self, shifted_self, ite_self]

theorem shiftedArr_step (hj : j < i) : shiftUp (shiftedArr a (j + 1) i) j = shiftedArr a j i := by
  unfold shiftUp shiftedArr
  dsimp only
  congr 1
  · exact shifted_step hj
  · cases a.keyed with
    | true => exact shifted_step hj
    | false => rfl

theorem putHeld_eq (a : Harr) (j i : Nat) : putHeld (shiftedArr a j i) j
    (if a.keyed then a.keys i else ⟨.null, true⟩) (a.vals i) = insertedArr a j i := by
  unfold putHeld shiftedArr insertedArr
  dsimp only
  congr 1
  · exact inserted_eq a.vals j i
  · cases a.keyed with
    | true => exact inserted_eq a.keys j i
    | false => rfl

/-- wherever the inner loop ends, the elements from there on are one further up -/
theorem shift_spec (hj : j ≤ i) :
    (∀ b j' c', sortShift fn byKey held j (shiftedArr a j i) c = .ok (b, j', c') →
      j' ≤ j ∧ b = shiftedArr a j' i) ∧
    ∀ b j', sortShift fn byKey held j (shiftedArr a j i) c = .error (b, j') →
      j' ≤ j ∧ b = shiftedArr a j' i := by
  induction j generalizing c with
  | zero =>
    refine ⟨fun b j' c' h => ?_, fun b j' h => by cases h⟩
    cases h
    exact ⟨Nat.le_refl 0, rfl⟩
  | succ j ih =>
    obtain ⟨ihok, iherr⟩ := ih (c := c + 1) (Nat.le_of_succ_le hj)
    rw [sortShift]
    cases fn c (sortArg byKey (shiftedArr a (j + 1) i) j) held with
    | none =>
      refine ⟨fun b j' c' h => (by cases h), fun b j' h => ?_⟩
      cases h
      exact ⟨Nat.le_refl _, rfl⟩
    | some r =>
      dsimp only
      split
      · rw [shiftedArr_step hj]
        refine ⟨fun b j' c' h => ?_, fun b j' h => ?_⟩
        · obtain ⟨hle, hb⟩ := ihok b j' c' h
          exact ⟨Nat.le_succ_of_le hle, hb⟩
        · obtain ⟨hle, hb⟩ := iherr b j' h
          exact ⟨Nat.le_succ_of_le hle, hb⟩
      · refine ⟨fun b j' c' h => ?_, fun b j' h => by cases h⟩
        cases h
        exact ⟨Nat.le_refl _, rfl⟩

/-! ## the rounds -/

/-- the same array, with its elements in another order -/
structure Reordered (a b : Harr) : Prop where
  frame : ∃ ks vs, b = { a with keys := ks, vals := vs }
  vals : (cells b.vals a.len).Perm (cells a.vals a.len)
  pairs : a.keyed = true → (cells (fun s => (b.keys s, b.vals s)) a.len).Perm
    (cells (fun s => (a.keys s, a.vals s)) a.len)

theorem Reordered.refl (a : Harr) : Reordered a a := ⟨⟨_, _, rfl⟩, .refl _, fun _ => .refl _⟩

theorem Reordered.trans {d : Harr} (h : Reordered a b) (h' : Reordered b d) : Reordered a d := by
  obtain ⟨ks, vs, rfl⟩ := h.frame
  obtain ⟨ks', vs', rfl⟩ := h'.frame
  exact ⟨⟨ks', vs', rfl⟩, h'.vals.trans h.vals, fun hk => (h'.pairs hk).trans (h.pairs hk)⟩

theorem reordered_inserted (hj : j ≤ i) (hi : i < a.len) : Reordered a (insertedArr a j i) := by
  refine ⟨⟨_, _, rfl⟩, perm_inserted hj hi, fun hk => ?_⟩
  have hpair : (fun s => ((insertedArr a j i).keys s, (insertedArr a j i).vals s)) =
      inserted (fun s => (a.keys s, a.vals s)) j i := by
    funext s
    unfold insertedArr
    dsimp only
    rw [hk, if_pos rfl]
    exact inserted_pair a.keys a.vals j i s
  rw [hpair]
  exact perm_inserted hj hi

/-- every run: the rounds only reorder, and a throw leaves the array of the inner loop -/
theorem rounds_spec (r : Nat) (hr : i + r ≤ a.len) :
    (∀ b, sortRounds fn byKey r i a c = .done b → Reordered a b) ∧
    ∀ b i' j tv, sortRounds fn byKey r i a c = .thrown b i' j tv →
      ∃ d, Reordered a d ∧ j ≤ i' ∧ i' < a.len ∧ tv = d.vals i' ∧ b = shiftedArr d j i' := by
  induction r generalizing i a c with
  | zero =>
    refine ⟨fun b h => ?_, fun b i' j tv h => by cases h⟩
    cases h
    exact .refl a
  | succ r ih =>
    rw [sortRounds]
    obtain ⟨hok, herr⟩ := @shift_spec fn byKey
      (if byKey then (if a.keyed then a.keys i else ⟨.null, true⟩).val else a.vals i) a i i c
      (Nat.le_refl i)
    rw [shiftedArr_self] at hok herr
    cases hs : sortShift fn byKey
        (if byKey then (if a.keyed then a.keys i else ⟨.null, true⟩).val else a.vals i) i a c with
    | error x =>
      obtain ⟨b, j⟩ := x
      obtain ⟨hle, rfl⟩ := herr b j hs
      refine ⟨fun b h => (by cases h), fun b i' j' tv h => ?_⟩
      cases h
      exact ⟨a, .refl a, hle, by omega, rfl, rfl⟩
    | ok x =>
      obtain ⟨b, j, c'⟩ := x
      obtain ⟨hle, rfl⟩ := hok b j c' hs
      dsimp only
      rw [putHeld_eq]
      have hre : Reordered a (insertedArr a j i) := reordered_inserted hle (by omega)
      obtain ⟨ihdone, ihthrown⟩ := ih (i := i + 1) (a := insertedArr a j i) (c := c')
        (show i + 1 + r ≤ a.len by omega)
      refine ⟨fun b h => hre.trans (ihdone b h), fun b i' j' tv h => ?_⟩
      obtain ⟨d, hd, h1, h2, h3, h4⟩ := ihthrown b i' j' tv h
      exact ⟨d, hre.trans hd, h1, h2, h3, h4⟩

/-- **Every run of the sort.** -/
theorem sortWithFn_spec {call : Option Addr → Nat → Val → Val → Option Val} {f : Val} :
    (∀ b, hpSortWithFn call a byKey f = .done b → Reordered a b) ∧
    ∀ b i j tv, hpSortWithFn call a byKey f = .thrown b i j tv →
      ∃ d, Reordered a d ∧ j ≤ i ∧ i < a.len ∧ tv = d.vals i ∧ b = shiftedArr d j i := by
  unfold hpSortWithFn
  split
  · split
    · refine ⟨fun b h => ?_, fun b i j tv h => by cases h⟩
      cases h
      exact .refl a
    · exact rounds_spec (a.len - 1) (by omega)
  · refine ⟨fun b h => ?_, fun b i j tv h => by cases h⟩
    cases h
    exact .refl a

/-! ## the keys -/

/-- the array with its keys for elements -/
def asVals (a : Harr) : Harr := { a with vals := fun s => (a.keys s).val }

theorem asVals_shiftUp (hk : a.keyed = true) (j : Nat) :
    asVals (shiftUp a j) = shiftUp (asVals a) j := by
  have hv : (fun s => (update a.keys (j + 1) (a.keys j) s).val) =
      update (fun s => (a.keys s).val) (j + 1) (a.keys j).val := by
    funext s
    exact apply_update (fun _ (k : Key) => k.val) a.keys (j + 1) (a.keys j) s
  unfold asVals shiftUp
  dsimp only
  rw [if_pos hk, hv]

theorem asVals_putHeld (hk : a.keyed = true) (j : Nat) (tk : Key) (tv : Val) :
    asVals (putHeld a j tk tv) = putHeld (asVals a) j tk tk.val := by
  have hv : (fun s => (update a.keys j tk s).val) = update (fun s => (a.keys s).val) j tk.val := by
    funext s
    exact apply_update (fun _ (k : Key) => k.val) a.keys j tk s
  unfold asVals putHeld
  dsimp only
  rw [if_pos hk, hv]

/-- the sort by keys goes as the sort of the keys -/
theorem shift_asVals (hk : a.keyed = true) {j' c' : Nat}
    (h : sortShift fn false held j (asVals a) c = .ok (b, j', c')) :
    ∃ d, sortShift fn true held j a c = .ok (d, j', c') ∧ d.keyed = true ∧ b = asVals d := by
  induction j generalizing a c with
  | zero =>
    cases h
    exact ⟨a, rfl, hk, rfl⟩
  | succ j ih =>
    have harg : sortArg true a j = sortArg false (asVals a) j := by
      unfold sortArg
      rw [if_pos rfl, if_pos hk, if_neg Bool.false_ne_true]
      rfl
    rw [sortShift, ← harg] at h
    rw [sortShift]
    cases hf : fn c (sortArg true a j) held with
    | none =>
      rw [hf] at h
      cases h
    | some r =>
      rw [hf] at h
      dsimp only at h ⊢
      by_cases hr : 0 < hpValToInt r
      · rw [if_pos hr, ← asVals_shiftUp hk] at h
        rw [if_pos hr]
        exact ih (a := shiftUp a j) hk h
      · rw [if_neg hr] at h
        rw [if_neg hr]
        cases h
        exact ⟨a, rfl, hk, rfl⟩

theorem rounds_asVals (hk : a.keyed = true) (r : Nat)
    (h : sortRounds fn false r i (asVals a) c = .done b) :
    ∃ d, sortRounds fn true r i a c = .done d ∧ b = asVals d := by
  induction r generalizing i a c with
  | zero =>
    cases h
    exact ⟨a, rfl, rfl⟩
  | succ r ih =>
    have hheld : (asVals a).keys i = a.keys i := rfl
    rw [sortRounds] at h
    rw [sortRounds]
    rw [if_neg Bool.false_ne_true, show (asVals a).keyed = true from hk, if_pos rfl] at h
    rw [if_pos rfl, if_pos hk]
    cases hs : sortShift fn false ((asVals a).vals i) i (asVals a) c with
    | error x =>
      rw [hs] at h
      cases h
    | ok x =>
      obtain ⟨b', j, c'⟩ := x
      obtain ⟨d, hd, hdk, rfl⟩ := shift_asVals hk hs
      rw [hs] at h
      rw [show (a.keys i).val = (asVals a).vals i from rfl, hd]
      dsimp only at h ⊢
      rw [hheld, show (asVals a).vals i = (a.keys i).val from rfl,
        ← asVals_putHeld hdk j (a.keys i) (a.vals i)] at h
      exact ih (a := putHeld d j (a.keys i) (a.vals i)) hdk h

end

/-! ## a comparator that is a preorder -/

/-- the comparator puts the values in an order, where different values may have the same place -/
structure Ranks (cmp : Val → Val → Int64) : Prop where
  total : ∀ x y, cmp x y ≤ 0 ∨ cmp y x ≤ 0
  trans : ∀ x y z, cmp x y ≤ 0 → cmp y z ≤ 0 → cmp x z ≤ 0

/-- it returns an integer, and never throws -/
def Answers (cmp : Val → Val → Int64) (fn : Nat → Val → Val → Option Val) : Prop :=
  ∀ c x y, fn c x y = some (.int (cmp x y))

def greater (cmp : Val → Val → Int64) (x y : Val) : Bool := 0 < cmp x y

def same (cmp : Val → Val → Int64) (x y : Val) : Bool := cmp x y ≤ 0 ∧ cmp y x ≤ 0

section
variable {cmp : Val → Val → Int64} {fn : Nat → Val → Val → Option Val} {a : Harr} {i j c : Nat}

theorem greater_false {x y : Val} : greater cmp x y = false ↔ cmp x y ≤ 0 := by
  rw [greater, decide_eq_false_iff_not, Int64.not_lt]

/-- the inner loop goes to the place of the held element -/
theorem shift_answers (h : Answers cmp fn) (hj : j ≤ i) : ∃ c',
    sortShift fn false (a.vals i) j (shiftedArr a j i) c =
      .ok (shiftedArr a (place (greater cmp) (a.vals i) a.vals j) i,
        place (greater cmp) (a.vals i) a.vals j, c') := by
  induction j generalizing c with
  | zero => exact ⟨c, rfl⟩
  | succ j ih =>
    have harg : sortArg false (shiftedArr a (j + 1) i) j = a.vals j := by
      show shifted a.vals (j + 1) i j = a.vals j
      exact if_neg (by omega)
    rw [sortShift, harg, h, place]
    dsimp only
    rw [show hpValToInt (.int (cmp (a.vals j) (a.vals i))) = cmp (a.vals j) (a.vals i) from rfl]
    by_cases hg : 0 < cmp (a.vals j) (a.vals i)
    · have hgt : greater cmp (a.vals j) (a.vals i) = true := decide_eq_true hg
      rw [if_pos hg, if_pos hgt, shiftedArr_step hj]
      exact ih (Nat.le_of_succ_le hj)
    · have hle : greater cmp (a.vals j) (a.vals i) = false := decide_eq_false hg
      rw [if_neg hg, if_neg (by rw [hle]; exact Bool.false_ne_true)]
      exact ⟨c + 1, rfl⟩

/-- the order from above -/
abbrev Below (cmp : Val → Val → Int64) (x y : Val) : Prop := greater cmp y x = false

/-- after the rounds the cells are the stable sort of those before, from above -/
theorem rounds_answers (h : Answers cmp fn) (f : Nat → Val) (r : Nat) {n : Nat} (hn : i + r = n)
    (hlow : (cells a.vals i).reverse = (cells f i).reverse.insertionSort (Below cmp))
    (hhigh : ∀ s, i ≤ s → a.vals s = f s) : ∃ b, sortRounds fn false r i a c = .done b ∧
      (cells b.vals n).reverse = (cells f n).reverse.insertionSort (Below cmp) := by
  induction r generalizing i a c with
  | zero =>
    obtain rfl : i = n := hn
    exact ⟨a, rfl, hlow⟩
  | succ r ih =>
    obtain ⟨c', hs⟩ := shift_answers (c := c) h (a := a) (Nat.le_refl i)
    rw [shiftedArr_self] at hs
    rw [sortRounds]
    rw [if_neg Bool.false_ne_true, hs]
    show ∃ b, sortRounds fn false r (i + 1) (putHeld _ _ _ _) c' = _ ∧ _
    rw [putHeld_eq]
    refine ih (by omega) ?_ fun s hs => ?_
    · show (cells (inserted a.vals _ i) (i + 1)).reverse = _
      rw [round_cells, hlow, hhigh i (Nat.le_refl i), cells_succ, List.reverse_append,
        List.reverse_singleton, List.singleton_append, List.insertionSort_cons]
    · show inserted a.vals _ i s = f s
      rw [inserted_above hs (place_le _ i)]
      exact hhigh s (by omega)

/-- the list is sorted, and equal elements stand as they stood -/
structure StableSort (cmp : Val → Val → Int64) (l m : List Val) : Prop where
  perm : m.Perm l
  sorted : m.Pairwise fun x y => cmp x y ≤ 0
  stable : ∀ v, m.filter (same cmp v) = l.filter (same cmp v)

theorem stableSort_reverse (h : Ranks cmp) (l : List Val) :
    StableSort cmp l (l.reverse.insertionSort (Below cmp)).reverse := by
  have hb : ∀ x y, Below cmp x y ↔ cmp y x ≤ 0 := fun x y => greater_false
  have : Std.Total (Below cmp) := ⟨fun x y => by
    rw [hb, hb]
    exact h.total y x⟩
  have : IsTrans Val (Below cmp) := ⟨fun x y z hxy hyz => by
    rw [hb] at hxy hyz ⊢
    exact h.trans z y x hyz hxy⟩
  have hperm := List.perm_insertionSort (Below cmp) l.reverse
  refine ⟨?_, ?_, fun v => ?_⟩
  · exact (List.reverse_perm _).trans (hperm.trans (List.reverse_perm l))
  · rw [List.pairwise_reverse]
    exact (List.pairwise_insertionSort (Below cmp) l.reverse).imp fun h => (hb _ _).mp h
  · -- the elements with the place of `v` are a sublist of the sorted list, of the same length
    have hpair : (l.reverse.filter (same cmp v)).Pairwise (Below cmp) := by
      apply List.pairwise_of_forall_mem_list
      intro x hx y hy
      have hx := of_decide_eq_true (List.mem_filter.mp hx).2
      have hy := of_decide_eq_true (List.mem_filter.mp hy).2
      rw [hb]
      exact h.trans y v x hy.2 hx.1
    have hsub := (List.sublist_insertionSort hpair List.filter_sublist).filter (same cmp v)
    rw [List.filter_filter] at hsub
    simp only [Bool.and_self] at hsub
    have heq := hsub.eq_of_length ((hperm.filter (same cmp v)).length_eq).symm
    rw [List.filter_reverse, ← heq, List.filter_reverse, List.reverse_reverse]

theorem stableSort_short {l : List Val} (h : l.length < 2) : StableSort cmp l l :=
  ⟨.refl l, pairwise_of_short h, fun _ => rfl⟩

theorem sortWithFn_answers {call : Option Addr → Nat → Val → Val → Option Val} {p : Option Addr}
    (hr : Ranks cmp) (h : Answers cmp (call p)) :
    ∃ b, hpSortWithFn call a false (.clo p) = .done b ∧
      StableSort cmp (values a) (cells b.vals a.len) := by
  unfold hpSortWithFn
  dsimp only
  by_cases h2 : a.len < 2
  · rw [if_pos h2]
    refine ⟨a, rfl, stableSort_short (l := values a) ?_⟩
    rwa [values, List.length_map, List.length_range]
  · rw [if_neg h2]
    obtain ⟨b, hb, hs⟩ := rounds_answers (a := a) (c := 0) h a.vals (a.len - 1) (i := 1)
      (n := a.len) (by omega) rfl fun s _ => rfl
    refine ⟨b, hb, ?_⟩
    have hv : cells b.vals a.len =
        ((cells a.vals a.len).reverse.insertionSort (Below cmp)).reverse := by
      rw [← hs, List.reverse_reverse]
    rw [hv]
    exact stableSort_reverse hr (cells a.vals a.len)

/-- **`uksort`** with a preorder sorts the keys. -/
theorem uksort_keys {call : Option Addr → Nat → Val → Val → Option Val} {p : Option Addr}
    (hk : a.keyed = true) (hr : Ranks cmp) (h : Answers cmp (call p)) :
    ∃ b, hpbiUksort call a (.clo p) = .done b ∧
      StableSort cmp (cells (fun s => (a.keys s).val) a.len)
        (cells (fun s => (b.keys s).val) a.len) := by
  obtain ⟨b, hb, hs⟩ := sortWithFn_answers (a := asVals a) hr h
  unfold hpbiUksort
  unfold hpSortWithFn at hb ⊢
  dsimp only at hb ⊢
  rw [show (asVals a).len = a.len from rfl] at hb
  by_cases h2 : a.len < 2
  · rw [if_pos h2] at hb
    cases hb
    rw [if_pos h2]
    exact ⟨a, rfl, hs⟩
  · rw [if_neg h2] at hb
    obtain ⟨d, hd, rfl⟩ := rounds_asVals hk (a.len - 1) hb
    rw [if_neg h2]
    exact ⟨d, hd, hs⟩

/-- the difference, and an exception at the call number `n` -/
def differ (n : Nat) (_ : Option Addr) (c : Nat) (x y : Val) : Option Val :=
  if c = n then none else some (.int (hpValToInt x - hpValToInt y))

end

end Std
end HolyPhp
