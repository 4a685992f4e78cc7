import HolyPhp.Runtime.ArrKeys

/-!
# The functions on arrays with their reads of `keys`

`Guarded.hpArrSet` and the others are the functions of `Arr`, which stop at a read of `keys[i]`
in a list, of a cell that was not written, or through NULL.

* `Legal a i`      `keys[i]` may be read;
* `WellKeyed a`    a map whose keys were all written: no function stops there;
* `Unkeyed a`      a list;
* `Spoiled a`      a list that was made a map, and its first key was never written;
* `Stays n m ks`   the keys `ks`, written one after another into a list of `n` elements with the
                   next index `m`, make no map of a list with elements.
-/

set_option autoImplicit false

namespace HolyPhp
namespace Arr
open Function

/-! ## runs -/

/-- what a call comes to: it does not return, it stops at a cell of `keys`, or it returns -/
inductive Access (α : Type) where
  | endless
  | fault
  | ok (a : α)

namespace Access
variable {α β : Type} {x : Access α} {f : α → Access β} {P P' : α → Prop} {Q : β → Prop}

def bind (x : Access α) (f : α → Access β) : Access β :=
  match x with
  | .endless => .endless
  | .fault => .fault
  | .ok a => f a

def ofOption : Option α → Access α
  | none => .endless
  | some a => .ok a

/-- it does not stop, and what it returns is in `P` -/
def Safe (x : Access α) (P : α → Prop) : Prop :=
  match x with
  | .endless => True
  | .fault => False
  | .ok a => P a

/-- what it returns is in `P` -/
def Gives (x : Access α) (P : α → Prop) : Prop := ∀ a, x = .ok a → P a

theorem Safe.bind (h : x.Safe P) (hf : ∀ a, P a → (f a).Safe Q) : (x.bind f).Safe Q := by
  cases x with
  | endless => exact trivial
  | fault => exact h.elim
  | ok a => exact hf a h

theorem Safe.mono (h : x.Safe P) (hp : ∀ a, P a → P' a) : x.Safe P' := by
  cases x with
  | endless => exact trivial
  | fault => exact h.elim
  | ok a => exact hp a h

theorem Safe.ofOption {o : Option α} (h : ∀ a, o = some a → P a) : (Access.ofOption o).Safe P := by
  cases o with
  | none => exact trivial
  | some a => exact h a rfl

theorem Gives.bind (hf : ∀ a, x = .ok a → (f a).Gives Q) : (x.bind f).Gives Q := by
  intro b hb
  cases x with
  | endless => cases hb
  | fault => cases hb
  | ok a => exact hf a rfl b hb

end Access

open Access

/-! ## the functions -/

/-- `keys[i]` may be read -/
def Legal (a : Harr) (i : Nat) : Prop :=
  a.isMap = true ∧ a.keyed = true ∧ (a.keys i).written = true

instance (a : Harr) (i : Nat) : Decidable (Legal a i) := inferInstanceAs (Decidable (_ ∧ _))

/-- every element has a key that may be read -/
def Legible (a : Harr) : Prop := ∀ i < a.len, Legal a i

def readKey (a : Harr) (i : Nat) : Access Val := if Legal a i then .ok (a.key i) else .fault

namespace Guarded

/-- the loop of `hp_key_index` over `keys` -/
def scan (a : Harr) (k : Val) : List Nat → Access (Option Nat)
  | [] => .ok none
  | i :: l => (readKey a i).bind fun key => if hpKeyEq key k then .ok (some i) else scan a k l

/-- the loop of `hp_key_index` over the index -/
def probe (a : Harr) (x : Index) (k : Val) : Nat → Nat → Access (Option Nat)
  | 0, _ => .endless
  | n + 1, s =>
    if x.slots s = 0 then .ok none
    else if x.slots s = tomb then probe a x k n (nextSlot x.icap s)
    else (readKey a (x.slots s - 1)).bind fun key =>
      if hpKeyEq key k then .ok (some (x.slots s - 1)) else probe a x k n (nextSlot x.icap s)

def hpKeyIndex (a : Harr) (k : Val) : Access (Option Nat) :=
  if a.isMap then
    match a.index, k with
    | some x, .int i => probe a x k x.icap (hpHashInt i &&& (x.icap - 1))
    | some x, .str (some s) => probe a x k x.icap (hpStrHash (some s) &&& (x.icap - 1))
    | _, _ => scan a k (List.range a.len)
  else .ofOption (Arr.hpKeyIndex a k)

def fill (a : Harr) (x : Index) : Nat → Access Index
  | 0 => .ok x
  | n + 1 => (fill a x n).bind fun x => (readKey a n).bind fun k =>
    if hashable k then .ofOption (x.put k n) else .ok x

def rebuild (a : Harr) (icap : Nat) : Access Index := fill a ⟨fun _ => 0, icap, icap / 2⟩ a.len

def add (a : Harr) (x : Index) (valslot : Nat) : Access Index :=
  (if x.ibudget = 0 then rebuild a (x.want a.len) else .ok x).bind fun x =>
    (readKey a valslot).bind fun _ => .ofOption (x.insert a.key valslot)

def hpArrIndexAdd (a : Harr) (valslot : Nat) : Access Harr :=
  (readKey a valslot).bind fun k =>
    if !hashable k then .ok a
    else match a.index with
      | none =>
        if a.len < 12 then .ok a
        else (rebuild a 32).bind fun x => (add a x valslot).bind fun x => .ok (a.withIndex x)
      | some x => (add a x valslot).bind fun x => .ok (a.withIndex x)

/-- the key is written through NULL where `hp_arr_grow` has not allocated `keys` -/
def hpArrPush (a : Harr) (v : Val) : Access Harr :=
  if a.isMap = true ∧ (hpArrGrow a (a.len + 1)).keyed = false then .fault else .ok (Arr.hpArrPush a v)

def hpArrSet (a : Harr) (k v : Val) : Access Harr :=
  if k = .null then hpArrPush a v
  else (hpKeyIndex a k).bind fun
    | some i => .ok { a with vals := update a.vals i v }
    | none =>
      (if (a.append k v).isMap then hpArrIndexAdd (a.append k v) a.len else .ok (a.append k v)).bind
        fun c => .ok (bumpNext c k)

def readAll (a : Harr) : List Nat → Access Unit
  | [] => .ok ()
  | i :: l => (readKey a i).bind fun _ => readAll a l

def hpArrClone (junk : Nat → Val) (dup : Addr → Addr) (a : Harr) : Access Harr :=
  (if a.isMap then readAll a (List.range a.len) else .ok ()).bind fun _ =>
    .ok (Arr.hpArrClone junk dup a)

end Guarded

/-! ## maps with all their keys -/

/-- the entries of an index are slots below `n` -/
def Points (n : Nat) (x : Index) : Prop := ∀ s, x.slots s ≠ 0 → x.slots s - 1 < n

structure WellKeyed (a : Harr) : Prop where
  map : a.isMap = true
  legible : Legible a
  keyed : 0 < a.cap → a.keyed = true
  len_le : a.len ≤ a.cap
  points : ∀ x, a.index = some x → Points a.len x

section
variable {a b : Harr} {x y : Index} {k v : Val} {i n : Nat}

theorem readKey_legal (h : Legal a i) : readKey a i = .ok (a.key i) := if_pos h

theorem readKey_fault (h : ¬ Legal a i) : readKey a i = .fault := if_neg h

theorem Points.mono (h : Points i x) (hle : i ≤ n) : Points n x :=
  fun s hs => Nat.lt_of_lt_of_le (h s hs) hle

theorem Points.put (h : Points n x) (hi : i < n) (hp : x.put k i = some y) : Points n y := by
  obtain ⟨r, -, rfl⟩ := Option.map_eq_some_iff.mp hp
  intro s hs
  show update x.slots r (entry i) s - 1 < n
  by_cases hr : s = r
  · rw [hr, update_self]
    have hle : entry i ≤ i + 1 := by
      unfold entry
      apply Nat.mod_le
    exact Nat.lt_of_le_of_lt (Nat.sub_le_sub_right hle 1) hi
  · rw [update_of_ne hr]
    apply h s
    intro h0
    apply hs
    show update x.slots r (entry i) s = 0
    rw [update_of_ne hr, h0]

theorem Points.insert {key : Nat → Val} (h : Points n x) (hi : i < n)
    (hp : x.insert key i = some y) : Points n y := by
  obtain ⟨z, hz, rfl⟩ := Option.map_eq_some_iff.mp hp
  have hput : Points n z := h.put hi hz
  intro s hs
  exact hput s hs

theorem points_empty (n icap budget : Nat) : Points n ⟨fun _ => 0, icap, budget⟩ :=
  fun _ hs => absurd rfl hs

namespace WellKeyed

theorem read (h : WellKeyed a) (hi : i < a.len) : readKey a i = .ok (a.key i) :=
  readKey_legal (h.legible i hi)

theorem scan (h : WellKeyed a) (k : Val) {l : List Nat} (hl : ∀ i ∈ l, i < a.len) :
    (Guarded.scan a k l).Safe fun _ => True := by
  induction l with
  | nil => exact trivial
  | cons i l ih =>
    rw [Guarded.scan, h.read (hl i List.mem_cons_self)]
    show Access.Safe (if hpKeyEq (a.key i) k then _ else _) _
    split
    · exact trivial
    · exact ih fun j hj => hl j (List.mem_cons_of_mem i hj)

theorem probe (h : WellKeyed a) (hx : a.index = some x) (k : Val) (n s : Nat) :
    (Guarded.probe a x k n s).Safe fun _ => True := by
  induction n generalizing s with
  | zero => exact trivial
  | succ n ih =>
    rw [Guarded.probe]
    split
    · exact trivial
    · next h0 =>
      split
      · exact ih _
      · rw [h.read (h.points x hx s h0)]
        show Access.Safe (if hpKeyEq _ k then _ else _) _
        split
        · exact trivial
        · exact ih _

theorem keyIndex (h : WellKeyed a) (k : Val) :
    (Guarded.hpKeyIndex a k).Safe fun _ => True := by
  have hscan := h.scan k (l := List.range a.len) fun i => List.mem_range.mp
  unfold Guarded.hpKeyIndex
  rw [if_pos h.map]
  split
  · next x i hx => exact h.probe hx _ _ _
  · next x s hx => exact h.probe hx _ _ _
  · exact hscan

theorem fill (h : WellKeyed a) (hx : Points a.len x) (hn : n ≤ a.len) :
    (Guarded.fill a x n).Safe (Points a.len) := by
  induction n with
  | zero => exact hx
  | succ n ih =>
    refine (ih (Nat.le_of_succ_le hn)).bind fun y hy => ?_
    rw [h.read hn]
    show Access.Safe (if hashable (a.key n) then _ else _) _
    split
    · exact .ofOption fun z hz => hy.put hn hz
    · exact hy

theorem add (h : WellKeyed a) (hx : Points a.len x) (hi : i < a.len) :
    (Guarded.add a x i).Safe (Points a.len) := by
  refine Safe.bind (P := Points a.len) ?_ fun y hy => ?_
  · split
    · exact h.fill (points_empty _ _ _) (Nat.le_refl _)
    · exact hx
  · rw [h.read hi]
    exact .ofOption fun z hz => hy.insert hi hz

theorem withIndex (h : WellKeyed a) (hx : Points a.len x) : WellKeyed (a.withIndex x) :=
  ⟨h.map, h.legible, h.keyed, h.len_le, fun _ hy => Option.some.inj hy ▸ hx⟩

theorem indexAdd (h : WellKeyed a) (hi : i < a.len) :
    (Guarded.hpArrIndexAdd a i).Safe WellKeyed := by
  unfold Guarded.hpArrIndexAdd
  rw [h.read hi]
  show Access.Safe (if (!hashable (a.key i)) = true then _ else _) _
  split
  · exact h
  · have hadd : ∀ x, Points a.len x →
        ((Guarded.add a x i).bind fun x => .ok (a.withIndex x)).Safe WellKeyed :=
      fun x hx => (h.add hx hi).bind fun _ hy => h.withIndex hy
    cases hx : a.index with
    | none =>
      dsimp only
      split
      · exact h
      · exact (h.fill (points_empty _ _ _) (Nat.le_refl _)).bind hadd
    | some x => exact hadd x (h.points x hx)

theorem appended (h : WellKeyed a) (ha : Appended a b k v) (hm : b.isMap = true) :
    WellKeyed b := by
  have hkeyed := ha.keyed hm h.keyed
  refine ⟨hm, fun i hi => ⟨hm, hkeyed, ?_⟩, fun _ => hkeyed, by rw [ha.len]; exact ha.cap,
    fun x hx => ?_⟩
  · rw [ha.len] at hi
    by_cases he : i = a.len
    · rw [he, ha.last hm]
    · rw [ha.keys_of_lt h.len_le (by omega)]
      exact (h.legible i (by omega)).2.2
  · rw [ha.len]
    rw [ha.index] at hx
    exact (h.points x hx).mono (Nat.le_succ _)

theorem push (h : WellKeyed a) (v : Val) : (Guarded.hpArrPush a v).Safe WellKeyed := by
  obtain ⟨ha, hm, -⟩ := push_spec a v
  have hb := h.appended ha (hm.trans h.map)
  have hkeyed : (hpArrGrow a (a.len + 1)).keyed = true :=
    hb.keyed (Nat.lt_of_lt_of_le (Nat.succ_pos _) ha.cap)
  unfold Guarded.hpArrPush
  rw [if_neg fun hf => by rw [hkeyed] at hf; cases hf.2]
  exact hb

theorem bump (h : WellKeyed a) (k : Val) : WellKeyed (bumpNext a k) := by
  obtain ⟨n, hn⟩ := bumpNext_eq a k
  rw [hn]
  exact ⟨h.map, h.legible, h.keyed, h.len_le, h.points⟩

/-- **A write** into a map with all its keys reads no other cells. -/
theorem set (h : WellKeyed a) (k v : Val) : (Guarded.hpArrSet a k v).Safe WellKeyed := by
  unfold Guarded.hpArrSet
  split
  · exact h.push v
  · refine (h.keyIndex k).bind fun o _ => ?_
    cases o with
    | some i => exact ⟨h.map, h.legible, h.keyed, h.len_le, h.points⟩
    | none =>
      obtain ⟨ha, hm, -⟩ := append_spec a k v
      have hmap : (a.append k v).isMap = true := by rw [hm, h.map]; rfl
      have hb := h.appended ha hmap
      dsimp only
      rw [if_pos hmap]
      refine (hb.indexAdd ?_).bind fun c hc => hc.bump k
      rw [ha.len]
      exact Nat.lt_succ_self _

theorem written (h : WellKeyed a) : WrittenOk a := fun _ i hi => (h.legible i hi).2.2

theorem empty (junk : Nat → Val) : WellKeyed (emptyMap junk) where
  map := rfl
  legible i hi := absurd hi (Nat.not_lt_zero i)
  keyed h0 := absurd h0 (Nat.lt_irrefl 0)
  len_le := Nat.le_refl 0
  points x hx := by cases hx

end WellKeyed

/-! ## lists, and lists that were made maps -/

structure Unkeyed (a : Harr) : Prop where
  list : a.isMap = false
  index : a.index = none
  blank : ∀ i, (a.keys i).written = false
  len_le : a.len ≤ a.cap

structure Spoiled (a : Harr) : Prop where
  map : a.isMap = true
  pos : 0 < a.len
  index : a.index = none
  unwritten : (a.keys 0).written = false
  len_le : a.len ≤ a.cap

theorem Unkeyed.new (junk : Nat → Val) : Unkeyed (hpArrNew junk) :=
  ⟨rfl, rfl, fun _ => rfl, Nat.le_refl 0⟩

theorem Unkeyed.written (h : Unkeyed a) : WrittenOk a := by
  intro hm
  rw [h.list] at hm
  cases hm

namespace Spoiled

theorem not_written (h : Spoiled a) : ¬ WrittenOk a := by
  intro hw
  have h0 := hw h.map 0 h.pos
  rw [h.unwritten] at h0
  cases h0

theorem not_legal (h : Spoiled a) : ¬ Legal a 0 := by
  intro hl
  have h0 := hl.2.2
  rw [h.unwritten] at h0
  cases h0

theorem appended (h : Spoiled a) (ha : Appended a b k v) (hm : b.isMap = true) : Spoiled b := by
  refine ⟨hm, by rw [ha.len]; exact Nat.succ_pos _, ha.index.trans h.index, ?_, by
    rw [ha.len]; exact ha.cap⟩
  rw [ha.keys_of_lt h.len_le h.pos]
  exact h.unwritten

theorem push (h : Spoiled a) (v : Val) : (Guarded.hpArrPush a v).Gives Spoiled := by
  intro b hb
  unfold Guarded.hpArrPush at hb
  split at hb
  · cases hb
  · cases hb
    obtain ⟨ha, hm, -⟩ := push_spec a v
    exact h.appended ha (hm.trans h.map)

/-- every key is compared with the first one -/
theorem set (h : Spoiled a) (k v : Val) : (Guarded.hpArrSet a k v).Gives Spoiled := by
  unfold Guarded.hpArrSet
  split
  · exact h.push v
  · have hscan : Guarded.scan a k (List.range a.len) = .fault := by
      obtain ⟨n, hn⟩ := Nat.exists_eq_succ_of_ne_zero (Nat.ne_of_gt h.pos)
      rw [hn, List.range_succ_eq_map, Guarded.scan, readKey_fault h.not_legal]
      rfl
    have hidx : Guarded.hpKeyIndex a k = .fault := by
      unfold Guarded.hpKeyIndex
      rw [if_pos h.map, h.index]
      exact hscan
    rw [hidx]
    intro b hb
    cases hb

/-- the index is not built -/
theorem indexAdd (h : Spoiled a) (i : Nat) : (Guarded.hpArrIndexAdd a i).Gives Spoiled := by
  have hfill : ∀ x n, 0 < n → ∀ y, Guarded.fill a x n ≠ .ok y := by
    intro x n
    induction n with
    | zero => exact fun hn => absurd hn (Nat.lt_irrefl 0)
    | succ n ih =>
      intro _ y hy
      rw [Guarded.fill] at hy
      rcases Nat.eq_zero_or_pos n with rfl | hn
      · rw [Guarded.fill] at hy
        rw [show (Access.ok x).bind (fun x => (readKey a 0).bind _) = (readKey a 0).bind _ from rfl,
          readKey_fault h.not_legal] at hy
        cases hy
      · cases hf : Guarded.fill a x n with
        | endless =>
          rw [hf] at hy
          cases hy
        | fault =>
          rw [hf] at hy
          cases hy
        | ok z => exact ih hn z hf
  unfold Guarded.hpArrIndexAdd
  refine Gives.bind fun key _ => ?_
  split
  · rintro b hb
    cases hb
    exact h
  · rw [h.index]
    dsimp only
    split
    · rintro b hb
      cases hb
      exact h
    · exact Gives.bind fun x hx => absurd hx (hfill _ _ h.pos x)

theorem bump (h : Spoiled a) (k : Val) : Spoiled (bumpNext a k) := by
  obtain ⟨n, hn⟩ := bumpNext_eq a k
  rw [hn]
  exact ⟨h.map, h.pos, h.index, h.unwritten, h.len_le⟩

end Spoiled

/-! ## keys for a list -/

/-- `hp_key_index` finds the key in a list of `n` elements -/
def listHas (n : Nat) : Val → Bool
  | .str _ => false
  | k => 0 ≤ (hpValToInt k).toInt ∧ (hpValToInt k).toInt < n

/-- a key that is not found makes the list a map; `m` is its next index -/
def turns (m : Int64) : Val → Bool
  | .str _ => true
  | .int i => i != m
  | _ => false

def bumped (m : Int64) : Val → Int64
  | .int i => if m ≤ i then i + 1 else m
  | _ => m

/-- the keys, one after another, turn no list that has elements -/
def Stays : Nat → Int64 → List Val → Prop
  | _, _, [] => True
  | n, m, k :: ks =>
    if k = .null then Stays (n + 1) (m + 1) ks
    else if listHas n k then Stays n m ks
    else if turns m k then n = 0
    else Stays (n + 1) (bumped m k) ks

theorem converts_eq (a : Harr) (k : Val) : a.converts k = turns a.nextIndex k := by
  cases k <;> rfl

theorem bumpNext_next (a : Harr) (k : Val) :
    (bumpNext a k).nextIndex = bumped a.nextIndex k := by
  cases k with
  | int i =>
    unfold bumpNext bumped
    dsimp only
    split <;> rfl
  | null | str | float | bool | arr | obj | clo => rfl

namespace Unkeyed

theorem keyIndex (h : Unkeyed a) (k : Val) : Guarded.hpKeyIndex a k =
    .ok (if listHas a.len k then some (hpValToInt k).toInt.toNat else none) := by
  have hlist : ∀ i : Int, (if i < 0 ∨ (a.len : Int) ≤ i then some none else some (some i.toNat)) =
      some (if decide (0 ≤ i ∧ i < a.len) = true then some i.toNat else none) := by
    intro i
    by_cases hi : 0 ≤ i ∧ i < a.len
    · rw [if_neg (by omega), if_pos (decide_eq_true hi)]
    · rw [if_pos (by omega), if_neg (by rw [decide_eq_true_iff]; exact hi)]
  unfold Guarded.hpKeyIndex Arr.hpKeyIndex
  rw [h.list, if_neg Bool.false_ne_true, if_neg Bool.false_ne_true]
  cases k with
  | str s => rfl
  | null | int | float | bool | arr | obj | clo =>
    show ofOption (if _ ∨ _ then some none else _) = _
    rw [hlist]
    rfl

theorem appended (h : Unkeyed a) (ha : Appended a b k v) (hm : b.isMap = false) : Unkeyed b :=
  ⟨hm, ha.index.trans h.index, fun i => by rw [ha.blank hm]; exact h.blank i, by
    rw [ha.len]; exact ha.cap⟩

theorem push (h : Unkeyed a) (v : Val) : ∃ b, Guarded.hpArrSet a .null v = .ok b ∧ Unkeyed b ∧
    b.len = a.len + 1 ∧ b.nextIndex = a.nextIndex + 1 := by
  obtain ⟨ha, hm, hn⟩ := push_spec a v
  refine ⟨Arr.hpArrPush a v, ?_, h.appended ha (hm.trans h.list), ha.len, hn⟩
  unfold Guarded.hpArrSet Guarded.hpArrPush
  rw [if_pos rfl, if_neg fun hf => by rw [h.list] at hf; cases hf.1]

theorem set_old (h : Unkeyed a) (hk : k ≠ .null) (hl : listHas a.len k = true) (v : Val) :
    ∃ b, Guarded.hpArrSet a k v = .ok b ∧ Unkeyed b ∧ b.len = a.len ∧
      b.nextIndex = a.nextIndex := by
  refine ⟨{ a with vals := update a.vals (hpValToInt k).toInt.toNat v }, ?_,
    ⟨h.list, h.index, h.blank, h.len_le⟩, rfl, rfl⟩
  unfold Guarded.hpArrSet
  rw [if_neg hk, h.keyIndex, if_pos hl]
  rfl

theorem set_new (h : Unkeyed a) (hk : k ≠ .null) (hl : listHas a.len k = false)
    (ht : turns a.nextIndex k = false) (v : Val) :
    ∃ b, Guarded.hpArrSet a k v = .ok b ∧ Unkeyed b ∧ b.len = a.len + 1 ∧
      b.nextIndex = bumped a.nextIndex k := by
  obtain ⟨ha, hm, hn⟩ := append_spec a k v
  have hlist : (a.append k v).isMap = false := by rw [hm, h.list, converts_eq, ht]; rfl
  have hb := h.appended ha hlist
  obtain ⟨n, hbn⟩ := bumpNext_eq (a.append k v) k
  refine ⟨bumpNext (a.append k v) k, ?_, ?_, ?_, ?_⟩
  · unfold Guarded.hpArrSet
    rw [if_neg hk, h.keyIndex, hl, if_neg Bool.false_ne_true]
    show (if (a.append k v).isMap = true then _ else _ : Access Harr).bind _ = _
    rw [if_neg (by rw [hlist]; exact Bool.false_ne_true)]
    rfl
  · rw [hbn]
    exact ⟨hb.list, hb.index, hb.blank, hb.len_le⟩
  · rw [hbn]
    exact ha.len
  · rw [bumpNext_next, hn]

/-- a list becomes a map: well if it is empty -/
theorem set_turn (h : Unkeyed a) (hk : k ≠ .null) (hl : listHas a.len k = false)
    (ht : turns a.nextIndex k = true) (v : Val) :
    (a.len = 0 → (Guarded.hpArrSet a k v).Safe WellKeyed) ∧
    (0 < a.len → (Guarded.hpArrSet a k v).Gives Spoiled) := by
  obtain ⟨ha, hm, -⟩ := append_spec a k v
  have hmap : (a.append k v).isMap = true := by rw [hm, converts_eq, ht, Bool.or_true]
  have hidx : (a.append k v).index = none := ha.index.trans h.index
  have hkeyed : (a.append k v).keyed = true := by
    have hor : (a.append k v).keyed = ((hpArrGrow { a with isMap := a.isMap || a.converts k }
        (a.len + 1)).keyed || (a.append k v).isMap) := rfl
    rw [hor, hmap, Bool.or_true]
  have hset : Guarded.hpArrSet a k v = (Guarded.hpArrIndexAdd (a.append k v) a.len).bind
      fun c => .ok (bumpNext c k) := by
    unfold Guarded.hpArrSet
    rw [if_neg hk, h.keyIndex, hl, if_neg Bool.false_ne_true]
    show (if (a.append k v).isMap = true then _ else _ : Access Harr).bind _ = _
    rw [if_pos hmap]
  rw [hset]
  constructor
  · intro h0
    have hb : WellKeyed (a.append k v) := by
      refine ⟨hmap, fun i hi => ⟨hmap, hkeyed, ?_⟩, fun _ => hkeyed, by
        rw [ha.len]; exact ha.cap, fun x hx => ?_⟩
      · rw [ha.len] at hi
        rw [show i = a.len by omega, ha.last hmap]
      · rw [hidx] at hx
        cases hx
    refine (hb.indexAdd ?_).bind fun c hc => hc.bump k
    rw [ha.len]
    exact Nat.lt_succ_self _
  · intro hpos
    have hb : Spoiled (a.append k v) := by
      refine ⟨hmap, by rw [ha.len]; exact Nat.succ_pos _, hidx, ?_, by rw [ha.len]; exact ha.cap⟩
      rw [ha.keys_of_lt h.len_le hpos]
      exact h.blank 0
    refine Gives.bind fun c hc => ?_
    have hc := hb.indexAdd a.len c hc
    rintro d hd
    cases hd
    exact hc.bump k

end Unkeyed

end

/-! ## many writes -/

/-- `hp_arr_set` for one element after another; each key is read when its turn comes -/
def Guarded.setAll : List (Access Val × Val) → Harr → Access Harr
  | [], out => .ok out
  | (k, v) :: l, out => k.bind fun k => (Guarded.hpArrSet out k v).bind (Guarded.setAll l)

section
variable {a : Harr} {l : List (Access Val × Val)}

theorem Spoiled.setAll (h : Spoiled a) (l : List (Access Val × Val)) :
    (Guarded.setAll l a).Gives Spoiled := by
  induction l generalizing a with
  | nil =>
    rintro b hb
    cases hb
    exact h
  | cons p l ih =>
    rw [Guarded.setAll]
    exact Gives.bind fun k _ => Gives.bind fun b hb => ih (h.set k p.2 b hb)

/-- the visits whose keys are read -/
def visits (kvs : List (Val × Val)) : List (Access Val × Val) := kvs.map fun p => (.ok p.1, p.2)

theorem WellKeyed.setAll (h : WellKeyed a) (kvs : List (Val × Val)) :
    (Guarded.setAll (visits kvs) a).Safe WellKeyed := by
  induction kvs generalizing a with
  | nil => exact h
  | cons p kvs ih => exact (h.set p.1 p.2).bind fun b hb => ih hb

/-- **Writes into a list**: the keys of what comes out were all written just if no list with
elements has become a map. -/
theorem Unkeyed.setAll (h : Unkeyed a) (kvs : List (Val × Val)) :
    (Stays a.len a.nextIndex (kvs.map Prod.fst) →
      (Guarded.setAll (visits kvs) a).Safe WrittenOk) ∧
    (¬ Stays a.len a.nextIndex (kvs.map Prod.fst) →
      (Guarded.setAll (visits kvs) a).Gives fun b => ¬ WrittenOk b) := by
  induction kvs generalizing a with
  | nil => exact ⟨fun _ => h.written, fun hn => absurd trivial hn⟩
  | cons p kvs ih =>
    obtain ⟨k, v⟩ := p
    have hbind : Guarded.setAll (visits ((k, v) :: kvs)) a =
        (Guarded.hpArrSet a k v).bind (Guarded.setAll (visits kvs)) := rfl
    have hall : ∀ b, Guarded.hpArrSet a k v = .ok b →
        Guarded.setAll (visits ((k, v) :: kvs)) a = Guarded.setAll (visits kvs) b := by
      intro b hb
      rw [hbind, hb]
      rfl
    rw [List.map_cons, Stays]
    by_cases hk : k = .null
    · subst hk
      obtain ⟨b, hb, hu, hlen, hn⟩ := h.push v
      rw [if_pos rfl, hall b hb, ← hlen, ← hn]
      exact ih hu
    rw [if_neg hk]
    by_cases hl : listHas a.len k = true
    · obtain ⟨b, hb, hu, hlen, hn⟩ := h.set_old hk hl v
      rw [if_pos hl, hall b hb, ← hlen, ← hn]
      exact ih hu
    rw [if_neg hl]
    have hl := eq_false_of_ne_true hl
    by_cases ht : turns a.nextIndex k = true
    · obtain ⟨hzero, hpos⟩ := h.set_turn hk hl ht v
      rw [if_pos ht, hbind]
      constructor
      · intro h0
        refine (hzero h0).bind fun b hb => (hb.setAll kvs).mono fun c hc => hc.written
      · intro h0
        refine Gives.bind fun b hb => ?_
        intro c hc
        exact ((hpos (by omega) b hb).setAll _ c hc).not_written
    · obtain ⟨b, hb, hu, hlen, hn⟩ := h.set_new hk hl (eq_false_of_ne_true ht) v
      rw [if_neg ht, hall b hb, ← hlen, ← hn]
      exact ih hu

end

/-! ## the clone -/

section
variable {a : Harr} {junk : Nat → Val} {dup : Addr → Addr}

end

end Arr
end HolyPhp
