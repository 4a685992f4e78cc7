import HolyPhp.Lib.Owners
import HolyPhp.Runtime.Clone

/-!
# Arrays with one owner

A heap with the values that the program holds (`roots`).  An array of the heap is held by a root,
or by an array that it is an element of; `Owned` says that none is held twice.

A lookup in a map goes by the index, where entries of removed elements may be left, so what an
array holds are the elements in all places that its index knows of: `hw` is a bound for these.

* `Touched`        what the operations on one array do to its elements;
* `Owned.modify`   an operation on an array takes in a root;
* `Owned.pack`     a new array takes in roots;
* `Owned.clone`    **a clone is a new root, apart from everything else.**
-/

set_option autoImplicit false

namespace HolyPhp
namespace Held
open Arr hiding hpArrClone
open Clone (cloneVals hpArrClone)
open HolyPhp.Std (Heap)
open Function Owners

/-! ## places that lookups find -/

/-- the entries of the index are of places below `n` -/
def Low (n : Nat) (x : Index) : Prop := ∀ s, x.slots s ≠ 0 → x.slots s ≠ tomb → x.slots s ≤ n

/-- lookups in the array find places below `n` -/
structure Bounded (a : Harr) (n : Nat) : Prop where
  len : a.len ≤ n
  index : ∀ x, a.index = some x → Low n x

section
variable {n m j len : Nat} {x y : Index} {key : Nat → Val} {k : Val} {a b : Harr}

theorem Low.mono (h : Low n x) (hle : n ≤ m) : Low m x :=
  fun s h0 ht => (h s h0 ht).trans hle

theorem Low.store {s e : Nat} (h : Low n x) (he : e ≤ n ∨ e = tomb) : Low n (x.store s e) := by
  intro t h0 ht
  have h0' : update x.slots s e t ≠ 0 := h0
  have ht' : update x.slots s e t ≠ tomb := ht
  show update x.slots s e t ≤ n
  by_cases hs : t = s
  · rw [hs, update_self] at ht' ⊢
    exact he.resolve_right ht'
  · rw [update_of_ne hs] at h0' ht' ⊢
    exact h t h0' ht'

theorem Low.put (h : Low n x) (hj : j < n) (hp : x.put k j = some y) : Low n y := by
  obtain ⟨s, -, rfl⟩ := Option.map_eq_some_iff.mp hp
  exact h.store (.inl ((Nat.mod_le _ _).trans hj))

theorem Low.fill (h : Low n x) (hm : m ≤ n) (hf : Index.fill key x m = some y) : Low n y := by
  induction m generalizing y with
  | zero => exact Option.some.inj hf ▸ h
  | succ m ih =>
    obtain ⟨z, hz, hy⟩ := Option.bind_eq_some_iff.mp hf
    have hlow := ih (Nat.le_of_succ_le hm) hz
    split at hy
    · exact hlow.put hm hy
    · exact Option.some.inj hy ▸ hlow

theorem Low.rebuild {icap : Nat} (hlen : len ≤ n) (hr : Index.rebuild key len icap = some y) :
    Low n y :=
  Low.fill (fun _ h0 => absurd rfl h0) hlen hr

theorem Low.add (h : Low n x) (hlen : len ≤ n) (hj : j < n) (ha : x.add key len j = some y) :
    Low n y := by
  obtain ⟨z, hz, hy⟩ := Option.bind_eq_some_iff.mp ha
  obtain ⟨w, hw, rfl⟩ := Option.map_eq_some_iff.mp hy
  have hlow : Low n z := by
    split at hz
    · exact Low.rebuild hlen hz
    · exact Option.some.inj hz ▸ h
  exact fun s h0 ht => hlow.put hj hw s h0 ht

theorem Low.del (h : Low n x) (hd : x.del k j = some y) : Low n y := by
  obtain ⟨s, -, rfl⟩ := Option.map_eq_some_iff.mp hd
  split
  · exact h
  · exact h.store (.inr rfl)

theorem Bounded.mono (h : Bounded a n) (hle : n ≤ m) : Bounded a m :=
  ⟨h.len.trans hle, fun x hx => (h.index x hx).mono hle⟩

theorem Bounded.indexAdd (h : Bounded a n) (hj : j < n) (ha : hpArrIndexAdd a j = some b) :
    Bounded b n := by
  obtain ⟨o, rfl⟩ := indexAdd_eq ha
  refine ⟨h.len, fun y hy => ?_⟩
  unfold hpArrIndexAdd at ha
  split at ha
  · exact h.index y ((congrArg Harr.index (Option.some.inj ha)).trans hy)
  · split at ha
    · split at ha
      · exact h.index y ((congrArg Harr.index (Option.some.inj ha)).trans hy)
      · obtain ⟨x, hx, ha⟩ := Option.bind_eq_some_iff.mp ha
        obtain ⟨z, hz, ha⟩ := Option.map_eq_some_iff.mp ha
        obtain rfl := Option.some.inj ((congrArg Harr.index ha).trans hy)
        exact (Low.rebuild h.len hx).add h.len hj hz
    · next x hx =>
      obtain ⟨z, hz, ha⟩ := Option.map_eq_some_iff.mp ha
      obtain rfl := Option.some.inj ((congrArg Harr.index ha).trans hy)
      exact (h.index x hx).add h.len hj hz

theorem Bounded.indexDel (h : Bounded a n) (hd : hpArrIndexDel a j = some b) : Bounded b n := by
  obtain ⟨o, rfl⟩ := indexDel_eq hd
  refine ⟨h.len, fun y hy => ?_⟩
  unfold hpArrIndexDel at hd
  split at hd
  · exact h.index y ((congrArg Harr.index (Option.some.inj hd)).trans hy)
  · next x hx =>
    split at hd
    · exact h.index y ((congrArg Harr.index (Option.some.inj hd)).trans hy)
    · obtain ⟨z, hz, hd⟩ := Option.map_eq_some_iff.mp hd
      obtain rfl := Option.some.inj ((congrArg Harr.index hd).trans hy)
      exact (h.index x hx).del hz

/-- **A lookup** finds a place below the bound. -/
theorem Bounded.keyIndex {i : Nat} (h : Bounded a n) (hi : hpKeyIndex a k = some (some i)) :
    i < n := by
  have hfind : ∀ x hash, a.index = some x → x.find a.key hash k = some (some i) → i < n := by
    intro x hash hx hf
    obtain ⟨s, hs, he⟩ := Option.map_eq_some_iff.mp hf
    split at he
    · cases he
    · next h0 =>
      obtain rfl := Option.some.inj he
      have hstop := Probe.search_stop hs
      have ht : x.slots s ≠ tomb := by
        rintro ht
        simp [ht, Index.tomb_ne] at hstop
      have := h.index x hx s h0 ht
      omega
  have hscan : a.scan k = some i → i < n := fun hs =>
    Nat.lt_of_lt_of_le (List.mem_range.1 (List.mem_of_find?_eq_some hs)) h.len
  unfold hpKeyIndex at hi
  split at hi
  · split at hi
    · next x _ hx => exact hfind x _ hx hi
    · next x _ hx => exact hfind x _ hx hi
    · exact hscan (Option.some.inj hi)
  · split at hi
    · cases hi
    · dsimp only at hi
      split at hi
      · cases hi
      · obtain rfl := Option.some.inj (Option.some.inj hi)
        have := h.len
        omega

end

/-! ## the elements after an operation -/

/-- the elements of `b` are elements of `a`, and `v` -/
structure Touched (a b : Harr) (n m : Nat) (v : Val) : Prop where
  bounded : Bounded b m
  le : n ≤ m
  vals : ∀ i < m, b.vals i = v ∨ ∃ j < n, b.vals i = a.vals j

section
variable {n : Nat} {k v : Val} {a b : Harr}

/-- `v` in the place `i` -/
theorem vals_update {i j : Nat} (hj : j ≠ i → j < n) :
    update a.vals i v j = v ∨ ∃ l < n, update a.vals i v j = a.vals l := by
  by_cases e : j = i
  · rw [e, update_self]
    exact .inl rfl
  · rw [update_of_ne e]
    exact .inr ⟨j, hj e, rfl⟩

theorem Bounded.appended {c : Val} (h : Bounded a n) (ha : Appended a b c v) :
    Touched a b n (max n (a.len + 1)) v := by
  refine ⟨⟨ha.len ▸ Nat.le_max_right _ _, fun x hx => ?_⟩, Nat.le_max_left _ _, fun i hi => ?_⟩
  · exact (h.index x (ha.index.symm.trans hx)).mono (Nat.le_max_left _ _)
  · rw [ha.vals]
    refine vals_update fun hne => ?_
    have := h.len
    omega

theorem Bounded.push (h : Bounded a n) (v : Val) :
    Touched a (hpArrPush a v) n (max n (a.len + 1)) v :=
  h.appended (push_spec a v).1

theorem Bounded.set (h : Bounded a n) (hs : hpArrSet a k v = some b) :
    ∃ m, Touched a b n m v := by
  rcases set_cases hs with ⟨-, rfl⟩ | ⟨i, -, -, rfl⟩ | ⟨-, -, c, hc, rfl⟩
  · exact ⟨_, h.push v⟩
  · exact ⟨n, ⟨h.len, h.index⟩, Nat.le_refl n, fun j hj => vals_update fun _ => hj⟩
  · have ht := h.appended (append_spec a k v).1
    obtain ⟨o, rfl⟩ := appended_eq hc
    obtain ⟨next, hnext⟩ := bumpNext_eq { a.append k v with index := o } k
    refine ⟨_, ?_, ht.le, ?_⟩
    · have hb : Bounded { a.append k v with index := o } (max n (a.len + 1)) := by
        split at hc
        · exact ht.bounded.indexAdd (by omega) hc
        · exact Option.some.inj hc ▸ ht.bounded
      rw [hnext]
      exact ⟨hb.len, hb.index⟩
    · rw [hnext]
      exact ht.vals

theorem Bounded.takeKey {i last : Nat} (h : Bounded a n) (ht : a.takeKey i last = some b) :
    Bounded b n := by
  unfold Harr.takeKey at ht
  split at ht
  · obtain ⟨c, hc, ht⟩ := Option.bind_eq_some_iff.mp ht
    obtain ⟨d, hd, rfl⟩ := Option.map_eq_some_iff.mp ht
    have hb := (h.indexDel hc).indexDel hd
    exact ⟨hb.len, hb.index⟩
  · exact Option.some.inj ht ▸ h

theorem Bounded.fillHole {i last : Nat} (h : Bounded a n) (hi : i < n)
    (hf : a.fillHole i last = some b) : Bounded b n := by
  obtain ⟨c, hc, hf⟩ := Option.bind_eq_some_iff.mp hf
  have hb := h.takeKey hc
  have hm : Bounded (c.moveVal i last) n := ⟨hb.len, hb.index⟩
  dsimp only at hf
  split at hf
  · exact hm.indexAdd hi hf
  · exact Option.some.inj hf ▸ hm

/-- what `hp_arr_unset` leaves in places that nothing is in may still be found -/
theorem Bounded.unset (h : Bounded a n) (hu : hpArrUnset a k = some b) :
    Touched a b n n .null := by
  unfold hpArrUnset at hu
  obtain ⟨r, hr, hu⟩ := Option.bind_eq_some_iff.mp hu
  cases r with
  | none =>
    obtain rfl := Option.some.inj hu
    exact ⟨h, Nat.le_refl n, fun i hi => .inr ⟨i, hi, rfl⟩⟩
  | some i =>
    have hin := h.keyIndex hr
    have hlen := h.len
    dsimp only at hu
    split at hu
    · cases hu
    next hpos =>
    obtain ⟨c, hc, rfl⟩ := Option.map_eq_some_iff.mp hu
    have hall : Bounded c n ∧ ∀ j < n, ∃ l < n, c.vals j = a.vals l := by
      split at hc
      · refine ⟨h.fillHole hin hc, fun j hj => ?_⟩
        obtain ⟨ks, o, -, rfl⟩ := fillHole_eq hc
        by_cases e : j = i
        · exact ⟨a.len - 1, by omega, by rw [e]; exact update_self ..⟩
        · exact ⟨j, hj, update_of_ne e ..⟩
      · split at hc
        · refine ⟨h.indexDel hc, fun j hj => ⟨j, hj, ?_⟩⟩
          obtain ⟨o, rfl⟩ := indexDel_eq hc
          rfl
        · exact Option.some.inj hc ▸ ⟨h, fun j hj => ⟨j, hj, rfl⟩⟩
    refine ⟨⟨?_, hall.1.index⟩, Nat.le_refl n, fun j hj => .inr (hall.2 j hj)⟩
    show a.len - 1 ≤ n
    omega

end

/-! ## owners -/

variable {ι κ : Type}

/-- a root is the array, or an array has it as an element in a place below its bound -/
def Holds (h : Heap) (roots : ι → Val) (hw : Addr → Nat) : ι ⊕ Addr → Addr → Prop
  | .inl i, q => roots i = .arr (some q)
  | .inr p, q => ∃ a, h[p]? = some a ∧ ∃ i < hw p, a.vals i = .arr (some q)

structure Owned (h : Heap) (roots : ι → Val) (hw : Addr → Nat) : Prop where
  bounded : ∀ p a, h[p]? = some a → Bounded a (hw p)
  range : ∀ x q, Holds h roots hw x q → q < h.length
  unique : Unique (Holds h roots hw)

section
variable {h h' : Heap} {roots : ι → Val} {hw : Addr → Nat} {p q m n : Nat} {a b : Harr}
  {v w k : Val}

/-- the roots move -/
theorem Owned.move {roots' : κ → Val} (ho : Owned h roots hw) (g : ι → κ)
    (hg : ∀ y q, roots' y = .arr (some q) → ∃ i, roots i = .arr (some q) ∧ g i = y) :
    Owned h roots' hw := by
  have hold : ∀ x q, Holds h roots' hw x q → ∃ y, Holds h roots hw y q ∧ Sum.map g id y = x := by
    intro x q hx
    cases x with
    | inl y =>
      obtain ⟨i, hi, rfl⟩ := hg y q hx
      exact ⟨.inl i, hi, rfl⟩
    | inr p => exact ⟨.inr p, hx, rfl⟩
  refine ⟨ho.bounded, fun x q hx => ?_, ho.unique.map (fun _ => False) (Sum.map g id)
    (fun x q _ => hold x q) (fun _ _ _ hn => hn.elim)⟩
  obtain ⟨y, hy, -⟩ := hold x q hx
  exact ho.range y q hy

/-- an operation on an array takes in the value `v` -/
theorem Owned.modify (ho : Owned h (Sum.elim roots fun _ : Unit => v) hw) (hp : h[p]? = some a)
    (ht : Touched a b (hw p) m v) : Owned (h.set p b) roots (update hw p m) := by
  have hlt := (List.getElem?_eq_some_iff.mp hp).1
  have hold : ∀ x q, Holds (h.set p b) roots (update hw p m) x q →
      ∃ y, Holds h (Sum.elim roots fun _ : Unit => v) hw y q ∧
        Sum.elim (Sum.elim Sum.inl fun _ => Sum.inr p) Sum.inr y = x := by
    intro x q hx
    cases x with
    | inl i => exact ⟨.inl (.inl i), hx, rfl⟩
    | inr z =>
      obtain ⟨c, hc, i, hi, hv⟩ := hx
      by_cases hz : z = p
      · subst hz
        rw [List.getElem?_set_self hlt] at hc
        obtain rfl := Option.some.inj hc
        rw [update_self] at hi
        rcases ht.vals i hi with e | ⟨j, hj, e⟩
        · exact ⟨.inl (.inr ()), e.symm.trans hv, rfl⟩
        · exact ⟨.inr z, ⟨a, hp, j, hj, e.symm.trans hv⟩, rfl⟩
      · rw [List.getElem?_set_ne (Ne.symm hz)] at hc
        rw [update_of_ne hz] at hi
        exact ⟨.inr z, ⟨c, hc, i, hi, hv⟩, rfl⟩
  refine ⟨fun z c hc => ?_, fun x q hx => ?_, ho.unique.map (fun _ => False) _
    (fun x q _ => hold x q) (fun _ _ _ hn => hn.elim)⟩
  · by_cases hz : z = p
    · subst hz
      rw [List.getElem?_set_self hlt] at hc
      rw [update_self, ← Option.some.inj hc]
      exact ht.bounded
    · rw [List.getElem?_set_ne (Ne.symm hz)] at hc
      rw [update_of_ne hz]
      exact ho.bounded z c hc
  · obtain ⟨y, hy, -⟩ := hold x q hx
    rw [List.length_set]
    exact ho.range y q hy

/-- a new array takes in the values `vs`, and is a root -/
theorem Owned.pack {vs : Nat → Val} (ho : Owned h (Sum.elim roots vs) hw) (hb : Bounded b n)
    (hvals : ∀ i < n, b.vals i = vs i) :
    Owned (h ++ [b]) (Sum.elim roots fun _ : Unit => .arr (some h.length))
      (update hw h.length n) := by
  have hnew : (h ++ [b])[h.length]? = some b := by
    rw [List.getElem?_append_right (Nat.le_refl _), Nat.sub_self]
    rfl
  have hat : ∀ z c, (h ++ [b])[z]? = some c → (z = h.length ∧ c = b) ∨
      (z ≠ h.length ∧ h[z]? = some c) := by
    intro z c hc
    by_cases hz : z = h.length
    · subst hz
      exact .inl ⟨rfl, Option.some.inj (hc.symm.trans hnew)⟩
    · have hlt := (List.getElem?_eq_some_iff.mp hc).1
      rw [List.length_append, List.length_singleton] at hlt
      rw [List.getElem?_append_left (by omega)] at hc
      exact .inr ⟨hz, hc⟩
  have hold : ∀ x q, Holds (h ++ [b]) (Sum.elim roots fun _ : Unit => .arr (some h.length))
      (update hw h.length n) x q → (q = h.length ∧ x = .inl (.inr ())) ∨
      ∃ y, Holds h (Sum.elim roots vs) hw y q ∧
        Sum.elim (Sum.elim (Sum.inl ∘ Sum.inl) fun _ => Sum.inr h.length) Sum.inr y = x := by
    intro x q hx
    cases x with
    | inl i =>
      cases i with
      | inl i => exact .inr ⟨.inl (.inl i), hx, rfl⟩
      | inr i => exact .inl ⟨(Option.some.inj (HVal.arr.inj hx)).symm, rfl⟩
    | inr z =>
      obtain ⟨c, hc, i, hi, hv⟩ := hx
      rcases hat z c hc with ⟨rfl, rfl⟩ | ⟨hz, hc⟩
      · rw [update_self] at hi
        exact .inr ⟨.inl (.inr i), (hvals i hi).symm.trans hv, rfl⟩
      · rw [update_of_ne hz] at hi
        exact .inr ⟨.inr z, ⟨c, hc, i, hi, hv⟩, rfl⟩
  refine ⟨fun z c hc => ?_, fun x q hx => ?_, ho.unique.map (· = h.length) _
    (fun x q hq hx => (hold x q hx).resolve_left fun hn => hq hn.1) fun x y q hq hx hy => ?_⟩
  · rcases hat z c hc with ⟨rfl, rfl⟩ | ⟨hz, hc⟩
    · rw [update_self]
      exact hb
    · rw [update_of_ne hz]
      exact ho.bounded z c hc
  · rw [List.length_append]
    rcases hold x q hx with ⟨rfl, -⟩ | ⟨y, hy, -⟩
    · exact Nat.lt_succ_self _
    · exact Nat.lt_add_right _ (ho.range y q hy)
  · have hroot : ∀ x, Holds (h ++ [b]) (Sum.elim roots fun _ : Unit => .arr (some h.length))
        (update hw h.length n) x q → x = .inl (.inr ()) := by
      intro x hx
      rcases hold x q hx with ⟨-, e⟩ | ⟨y, hy, -⟩
      · exact e
      · exact absurd (ho.range y q hy) (hq ▸ Nat.lt_irrefl _)
    rw [hroot x hx, hroot y hy]

/-! ## clones -/

section
variable {junk : Nat → Val}

/-- a function that makes a new root of an array -/
def Roots (clone : Heap → Addr → Option (Addr × Heap)) : Prop :=
  ∀ (ι : Type) (roots : ι → Val) (h h' : Heap) (hw : Addr → Nat) (p q : Addr),
    clone h p = some (q, h') → Owned h roots hw →
      ∃ hw', Owned h' (Sum.elim roots fun _ : Unit => .arr (some q)) hw'

/-- the clones of the first elements are roots -/
theorem Owned.cloneVals {clone : Heap → Addr → Option (Addr × Heap)} (hclone : Roots clone)
    {vs : Nat → Val} (ho : Owned h roots hw)
    (hc : cloneVals junk clone a n h = some (vs, h')) :
    ∃ hw', Owned h' (Sum.elim roots fun i => if i < n then vs i else .null) hw' := by
  induction n generalizing vs h' with
  | zero =>
    cases hc
    refine ⟨hw, ho.move Sum.inl fun y q hy => ?_⟩
    cases y with
    | inl i => exact ⟨i, hy, rfl⟩
    | inr j => cases hy
  | succ n ih =>
    obtain ⟨⟨vs₁, h₁⟩, h1, hc⟩ := Option.bind_eq_some_iff.mp hc
    obtain ⟨hw₁, ho₁⟩ := ih h1
    dsimp only at hc
    split at hc
    · next p hp =>
      obtain ⟨⟨q, h₂⟩, h2, hc⟩ := Option.map_eq_some_iff.mp hc
      cases hc
      obtain ⟨hw₂, ho₂⟩ := hclone _ _ _ _ _ _ _ h2 ho₁
      refine ⟨hw₂, ho₂.move (Sum.elim id fun _ => Sum.inr n) fun y z hy => ?_⟩
      cases y with
      | inl i => exact ⟨.inl (.inl i), hy, rfl⟩
      | inr j =>
        change (if j < n + 1 then update vs₁ n (.arr (some q)) j else .null) = _ at hy
        by_cases e : j = n
        · rw [e, if_pos (Nat.lt_succ_self n), update_self] at hy
          exact ⟨.inr (), hy, by rw [e]; rfl⟩
        · rw [update_of_ne e] at hy
          split at hy
          · exact ⟨.inl (.inr j), (if_pos (by omega)).trans hy, rfl⟩
          · cases hy
    · next hno =>
      cases hc
      refine ⟨hw₁, ho₁.move id fun y z hy => ⟨y, ?_, rfl⟩⟩
      cases y with
      | inl i => exact hy
      | inr j =>
        change (if j < n + 1 then update vs₁ n (a.vals n) j else .null) = _ at hy
        show (if j < n then vs₁ j else .null) = _
        by_cases e : j = n
        · rw [e, if_pos (Nat.lt_succ_self n), update_self] at hy
          exact absurd hy (hno z)
        · rw [update_of_ne e] at hy
          split at hy
          · rwa [if_pos (by omega)]
          · cases hy

/-- **A clone** is a new root. -/
theorem Owned.clone (junk : Nat → Val) (fuel : Nat) : Roots (hpArrClone junk fuel) := by
  induction fuel with
  | zero =>
    intro ι roots h h' hw p q hc
    cases hc
  | succ fuel ih =>
    intro ι roots h h' hw p q hc ho
    obtain ⟨a, ha, hc⟩ := Option.bind_eq_some_iff.mp hc
    obtain ⟨⟨vs, h₁⟩, hvs, hc⟩ := Option.map_eq_some_iff.mp hc
    cases hc
    obtain ⟨hw₁, ho₁⟩ := ho.cloneVals ih hvs
    refine ⟨_, ho₁.pack (n := a.len) ⟨Nat.le_refl _, fun x hx => ?_⟩ fun i hi => (if_pos hi).symm⟩
    have hindex : (Arr.hpArrClone junk id a).index = none := (grow_spec _ a.len).1.index
    cases hindex.symm.trans hx

end

/-! ## reading -/

/-- `hp_arr_get_v` -/
def hpArrGetV (h : Heap) : Val → Val → Option Val
  | .arr (some p), idx => h[p]?.bind fun a => hpArrGet a idx
  | .str s, idx =>
    let i := (hpValToInt idx).toInt
    some (.str (some (if i < 0 then [] else (((s.getD [])[i.toNat]?).toList))))
  | _, _ => some .null

/-- the element that `$x[k₁][k₂]..` is, from the value of `$x` on -/
def read (h : Heap) : Val → List Val → Option Val
  | v, [] => some v
  | v, k :: ks => (hpArrGetV h v k).bind fun w => read h w ks

/-- the array that the value is, if it is one, is reached from the root `i` -/
def From (h : Heap) (roots : ι → Val) (hw : Addr → Nat) (i : ι) (v : Val) : Prop :=
  ∀ q, v = .arr (some q) → Reach (Holds h roots hw) i q

theorem From.root (i : ι) : From h roots hw i (roots i) := fun _ hq => .root hq

/-- an element of a value that is no array is no array -/
theorem getV_other (hno : ∀ p, v ≠ .arr (some p)) (k : Val) :
    ∃ w, (∀ h, hpArrGetV h v k = some w) ∧ ∀ q, w ≠ .arr (some q) := by
  cases v with
  | arr p =>
    cases p with
    | some p => exact absurd rfl (hno p)
    | none => exact ⟨.null, fun _ => rfl, by simp⟩
  | str s => exact ⟨_, fun _ => rfl, by simp⟩
  | null => exact ⟨.null, fun _ => rfl, by simp⟩
  | int i => exact ⟨.null, fun _ => rfl, by simp⟩
  | float f => exact ⟨.null, fun _ => rfl, by simp⟩
  | bool b => exact ⟨.null, fun _ => rfl, by simp⟩
  | obj p => exact ⟨.null, fun _ => rfl, by simp⟩
  | clo c => exact ⟨.null, fun _ => rfl, by simp⟩

theorem From.getV {i : ι} (hf : From h roots hw i v) (ho : Owned h roots hw)
    (hg : hpArrGetV h v k = some w) : From h roots hw i w := by
  intro q hq
  by_cases hv : ∃ p, v = .arr (some p)
  · obtain ⟨p, rfl⟩ := hv
    obtain ⟨a, ha, hg⟩ := Option.bind_eq_some_iff.mp hg
    obtain ⟨o, hi, rfl⟩ := Option.map_eq_some_iff.mp hg
    cases o with
    | none => cases hq
    | some j => exact (hf p rfl).node ⟨a, ha, j, (ho.bounded p a ha).keyIndex hi, hq⟩
  · obtain ⟨u, hu, hno⟩ := getV_other (not_exists.mp hv) k
    exact absurd hq (Option.some.inj ((hu h).symm.trans hg) ▸ hno q)

theorem From.read {i : ι} {ks : List Val} (hf : From h roots hw i v) (ho : Owned h roots hw)
    (hr : read h v ks = some w) : From h roots hw i w := by
  induction ks generalizing v with
  | nil => exact Option.some.inj hr ▸ hf
  | cons k ks ih =>
    obtain ⟨u, hu, hr⟩ := Option.bind_eq_some_iff.mp hr
    exact ih (hf.getV ho hu) hr

/-- **What is read from a root** depends only on the arrays that it reaches. -/
theorem read_congr {i : ι} (ho : Owned h roots hw)
    (hsame : ∀ q, Reach (Holds h roots hw) i q → h'[q]? = h[q]?) (ks : List Val)
    (hf : From h roots hw i v) : read h' v ks = read h v ks := by
  induction ks generalizing v with
  | nil => rfl
  | cons k ks ih =>
    have hget : hpArrGetV h' v k = hpArrGetV h v k := by
      by_cases hv : ∃ p, v = .arr (some p)
      · obtain ⟨p, rfl⟩ := hv
        exact congrArg (Option.bind · fun a => hpArrGet a k) (hsame p (hf p rfl))
      · obtain ⟨u, hu, -⟩ := getV_other (not_exists.mp hv) k
        rw [hu, hu]
    rw [Held.read, Held.read, hget]
    cases hg : hpArrGetV h v k with
    | none => rfl
    | some w => exact ih (hf.getV ho hg)

end

end Held
end HolyPhp
