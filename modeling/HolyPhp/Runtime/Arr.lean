import HolyPhp.Lib.Probe
import HolyPhp.Lib.Runs
import HolyPhp.Runtime.Value

/-!
# Arrays (`harr`): lists and keyed maps with a hash index

The memory behind `vals` and `keys` is a function of the slot; a cell of `keys` says whether it
was ever written (`Key.written`, not in the code), and what an unwritten cell holds is arbitrary
(`junk`).  Strings are taken by their bytes.  `hp_arr_cow` returns its argument, since no `rc` is
ever above 1.

A loop over the index that meets no place to stop in a whole lap never ends; a function that
contains such a loop returns an `Option`, and `none` means that it does not return.

* `hpKeyIndex a k`      the slot of a key: by the index when there is one, else by a scan;
* `hpArrIndexAdd`, `hpArrIndexDel`, `Index.rebuild`  the upkeep of the index;
* `hpArrSet`, `hpArrPush`, `hpArrUnset`, `hpArrPop`, `hpArrShift`, `hpArrUnshift`, `hpArrClone`,
  `hpArrMerge`, `hpArrSlice`, `hpArrKeys`  the operations.
-/

set_option linter.unusedVariables false

namespace HolyPhp
namespace Arr
open Function

abbrev Val := HVal Bytes

structure Key where
  val : Val
  written : Bool

/-- `index`, `icap`, `ibudget` -/
structure Index where
  slots : Nat → Nat
  icap : Nat
  ibudget : Nat

structure Harr where
  len : Nat
  cap : Nat
  isMap : Bool
  nextIndex : Int64
  vals : Nat → Val
  keys : Nat → Key
  /-- `keys` is not NULL -/
  keyed : Bool
  index : Option Index

/-- `keys[i]` -/
def Harr.key (a : Harr) (i : Nat) : Val := (a.keys i).val

def Harr.withIndex (a : Harr) (x : Index) : Harr := { a with index := some x }

/-! ## keys -/

def hpKeyEq : Val → Val → Bool
  | .int a, .int b => a == b
  | .str a, .str b => a == b
  | _, _ => false

def hpHashInt (k : Int64) : Nat := ((k.toUInt64 * 0x9E3779B97F4A7C15) >>> 32).toNat

/-- FNV-1a -/
def hpStrHash : Option Bytes → Nat
  | none => 0
  | some s =>
    let h := s.foldl (fun h c => (h ^^^ c.toUInt32) * 16777619) (2166136261 : UInt32)
    if h = 0 then 1 else h.toNat

def hpHashStr (s : Option Bytes) : Nat := if hpStrHash s = 0 then 1 else hpStrHash s

/-- the keys that go into the index -/
def hashable : Val → Bool
  | .int _ | .str _ => true
  | _ => false

def keyHash : Val → Nat
  | .int i => hpHashInt i
  | .str s => hpHashStr s
  | _ => 0

/-! ## the index -/

/-- `0xFFFFFFFFu`, a deleted slot -/
def tomb : Nat := 0xFFFFFFFF

/-- `(uint32_t)valslot + 1` -/
def entry (valslot : Nat) : Nat := (valslot + 1) % 2 ^ 32

/-- `(slot + 1) & (icap - 1)` -/
def nextSlot (icap slot : Nat) : Nat := (slot + 1) &&& (icap - 1)

/-- a loop over the slots from `h & (icap - 1)` on -/
def probe (icap : Nat) (stop : Nat → Bool) (h : Nat) : Option Nat :=
  Probe.search (nextSlot icap) stop icap (h &&& (icap - 1))

namespace Index

/-- `index[slot] = e` -/
def store (x : Index) (slot e : Nat) : Index := { x with slots := update x.slots slot e }

/-- into the first slot that is empty or deleted -/
def put (x : Index) (k : Val) (valslot : Nat) : Option Index :=
  (probe x.icap (fun s => x.slots s == 0 || x.slots s == tomb) (keyHash k)).map fun s =>
    x.store s (entry valslot)

/-- the first entry with the key `k` -/
def find (x : Index) (key : Nat → Val) (h : Nat) (k : Val) : Option (Option Nat) :=
  (probe x.icap (fun s => x.slots s == 0 ||
      (x.slots s != tomb && hpKeyEq (key (x.slots s - 1)) k)) h).map fun s =>
    if x.slots s = 0 then none else some (x.slots s - 1)

/-- a tombstone for the first entry of `valslot` -/
def del (x : Index) (k : Val) (valslot : Nat) : Option Index :=
  (probe x.icap (fun s => x.slots s == 0 || x.slots s == entry valslot) (keyHash k)).map fun s =>
    if x.slots s = 0 then x else x.store s tomb

/-- the loop of `hp_arr_index_rebuild` over `keys[0..n)` -/
def fill (key : Nat → Val) (x : Index) : Nat → Option Index
  | 0 => some x
  | n + 1 => (fill key x n).bind fun x =>
    if hashable (key n) then x.put (key n) n else some x

/-- `hp_arr_index_rebuild` -/
def rebuild (key : Nat → Val) (len icap : Nat) : Option Index :=
  fill key ⟨fun _ => 0, icap, icap / 2⟩ len

/-- the size of the table when the budget is used up -/
def want (x : Index) (len : Nat) : Nat := if x.icap ≤ len * 2 then x.icap * 2 % 2 ^ 32 else x.icap

/-- a new entry, on the budget -/
def insert (x : Index) (key : Nat → Val) (valslot : Nat) : Option Index :=
  (x.put (key valslot) valslot).map fun x =>
    { x with ibudget := (x.ibudget + (2 ^ 32 - 1)) % 2 ^ 32 }

/-- the part of `hp_arr_index_add` with an index -/
def add (x : Index) (key : Nat → Val) (len valslot : Nat) : Option Index :=
  (if x.ibudget = 0 then rebuild key len (x.want len) else some x).bind fun x =>
    x.insert key valslot

end Index

def hpArrIndexAdd (a : Harr) (valslot : Nat) : Option Harr :=
  if !hashable (a.key valslot) then some a
  else match a.index with
    | none =>
      if a.len < 12 then some a
      else (Index.rebuild a.key a.len 32).bind fun x =>
        (x.add a.key a.len valslot).map a.withIndex
    | some x => (x.add a.key a.len valslot).map a.withIndex

def hpArrIndexDel (a : Harr) (valslot : Nat) : Option Harr :=
  match a.index with
  | none => some a
  | some x =>
    if !hashable (a.key valslot) then some a
    else (x.del (a.key valslot) valslot).map a.withIndex

/-! ## lookup -/

/-- the linear scan of `keys[0..len)` -/
def Harr.scan (a : Harr) (k : Val) : Option Nat :=
  (List.range a.len).find? fun i => hpKeyEq (a.key i) k

/-- `none` inside is -1 -/
def hpKeyIndex (a : Harr) (k : Val) : Option (Option Nat) :=
  if a.isMap then
    match a.index, k with
    | some x, .int i => x.find a.key (hpHashInt i) k
    | some x, .str (some s) => x.find a.key (hpStrHash (some s)) k
    | _, _ => some (a.scan k)
  else match k with
    | .str _ => some none
    | _ =>
      let i := (hpValToInt k).toInt
      if i < 0 ∨ (a.len : Int) ≤ i then some none else some (some i.toNat)

def hpArrHas (a : Harr) (k : Val) : Option Bool := (hpKeyIndex a k).map Option.isSome

def hpArrGet (a : Harr) (k : Val) : Option Val :=
  (hpKeyIndex a k).map fun i => (i.map a.vals).getD .null

/-! ## memory -/

/-- `memmove(f, f + 1, n)` -/
def moveDown {α : Type} (f : Nat → α) (n : Nat) : Nat → α := fun i => if i < n then f (i + 1) else f i

/-- `memmove(f + 1, f, n)` -/
def moveUp {α : Type} (f : Nat → α) (n : Nat) : Nat → α :=
  fun i => if 0 < i ∧ i ≤ n then f (i - 1) else f i

/-- memory full of nulls -/
def blank : Nat → Val := fun _ => .null

def hpArrNew (junk : Nat → Val) : Harr where
  len := 0
  cap := 0
  isMap := false
  nextIndex := 0
  vals := junk
  keys := fun i => ⟨junk i, false⟩
  keyed := false
  index := none

/-- `while (cap < need) cap *= 2` -/
def doubled (need : Nat) : Nat → Nat → Nat
  | 0, cap => cap
  | n + 1, cap => if cap < need then doubled need n (cap * 2) else cap

/-- `need` rounds are enough -/
theorem le_doubled {need n cap : Nat} (hc : 0 < cap) (hn : need ≤ cap + n) :
    need ≤ doubled need n cap := by
  induction n generalizing cap with
  | zero => exact hn
  | succ n ih =>
    rw [doubled]
    split
    · exact ih (by omega) (by omega)
    · omega

/-- new cells of `keys` are null -/
def hpArrGrow (a : Harr) (need : Nat) : Harr :=
  if need ≤ a.cap then a
  else
    let cap := doubled need need (if a.cap = 0 then 8 else a.cap)
    { a with
      cap := cap
      keyed := a.keyed || a.isMap
      keys := fun i => if a.isMap ∧ a.cap ≤ i ∧ i < cap then ⟨.null, true⟩ else a.keys i }

/-- a nested array is cloned: `dup` is the address of its clone -/
def dupVal (dup : Addr → Addr) : Val → Val
  | .arr (some p) => .arr (some (dup p))
  | v => v

def hpArrClone (junk : Nat → Val) (dup : Addr → Addr) (a : Harr) : Harr :=
  let r := { hpArrNew junk with isMap := a.isMap, nextIndex := a.nextIndex }
  let r := hpArrGrow r a.len
  { r with
    vals := fun i => if i < a.len then dupVal dup (a.vals i) else r.vals i
    keys := fun i => if r.isMap ∧ i < a.len then a.keys i else r.keys i
    len := a.len }

/-! ## the operations -/

def hpArrPush (a : Harr) (v : Val) : Harr :=
  let a := hpArrGrow a (a.len + 1)
  { a with
    vals := update a.vals a.len v
    keys := if a.isMap then update a.keys a.len ⟨.int a.nextIndex, true⟩ else a.keys
    len := a.len + 1
    nextIndex := a.nextIndex + 1 }

def hpArrPop (a : Harr) : Harr × Val :=
  if a.len = 0 then (a, .null) else ({ a with len := a.len - 1 }, a.vals (a.len - 1))

def hpArrShift (a : Harr) : Harr × Val :=
  if a.len = 0 then (a, .null)
  else
    ({ a with
      vals := moveDown a.vals (a.len - 1)
      keys := if a.isMap then moveDown a.keys (a.len - 1) else a.keys
      len := a.len - 1 }, a.vals 0)

def hpArrUnshift (a : Harr) (v : Val) : Harr :=
  let a := hpArrGrow a (a.len + 1)
  { a with
    vals := update (moveUp a.vals a.len) 0 v
    keys :=
      if a.isMap then update (moveUp a.keys a.len) 0 ⟨.int a.nextIndex, true⟩ else a.keys
    nextIndex := if a.isMap then a.nextIndex + 1 else a.nextIndex
    len := a.len + 1 }

/-- a string key, or an int key that does not continue the sequence, makes a list a map -/
def Harr.converts (a : Harr) : Val → Bool
  | .str _ => true
  | .int i => i != a.nextIndex
  | _ => false

/-- the tail of `hp_arr_set` -/
def bumpNext (a : Harr) : Val → Harr
  | .int i => if a.nextIndex ≤ i then { a with nextIndex := i + 1 } else a
  | _ => a

/-- a new key behind the others -/
def Harr.append (a : Harr) (k v : Val) : Harr :=
  let a := { a with isMap := a.isMap || a.converts k }
  let a := hpArrGrow a (a.len + 1)
  { a with
    keyed := a.keyed || a.isMap
    keys := if a.isMap then update a.keys a.len ⟨k, true⟩ else a.keys
    vals := update a.vals a.len v
    len := a.len + 1 }

def hpArrSet (a : Harr) (k v : Val) : Option Harr :=
  if k = .null then some (hpArrPush a v)
  else (hpKeyIndex a k).bind fun
    | some i => some { a with vals := update a.vals i v }
    | none =>
      let b := a.append k v
      (if b.isMap then hpArrIndexAdd b a.len else some b).map (bumpNext · k)

/-- `keys[i] = keys[last]` -/
def Harr.moveKey (a : Harr) (i last : Nat) : Harr := { a with keys := update a.keys i (a.keys last) }

/-- `vals[i] = vals[last]` -/
def Harr.moveVal (a : Harr) (i last : Nat) : Harr := { a with vals := update a.vals i (a.vals last) }

/-- the key of the last element goes into the slot `i`, without index entries for the two -/
def Harr.takeKey (a : Harr) (i last : Nat) : Option Harr :=
  if a.isMap && a.keyed then
    (hpArrIndexDel a i).bind fun a => (hpArrIndexDel a last).map (·.moveKey i last)
  else some a

/-- the last element goes into the slot `i` -/
def Harr.fillHole (a : Harr) (i last : Nat) : Option Harr :=
  (a.takeKey i last).bind fun a =>
    let a := a.moveVal i last
    if a.isMap && a.index.isSome then hpArrIndexAdd a i else some a

def hpArrUnset (a : Harr) (k : Val) : Option Harr :=
  (hpKeyIndex a k).bind fun
    | none => some a
    | some i =>
      -- a stale entry of an empty array: `last` is SIZE_MAX and `keys[last]` faults
      if a.len = 0 then none
      else
        let last := a.len - 1
        (if i ≠ last then a.fillHole i last
          else if a.isMap then hpArrIndexDel a i else some a).map ({ · with len := last })

/-- `hp_map_of` before its first `hp_arr_set` -/
def emptyMap (junk : Nat → Val) : Harr := { hpArrNew junk with isMap := true }

def hpMapOf (junk : Nat → Val) (kvs : List (Val × Val)) : Option Harr :=
  kvs.foldlM (fun a kv => hpArrSet a kv.1 kv.2) (emptyMap junk)

/-- `b->is_map && b->keys[i].tag == HV_STR`: the element goes into a merge under its key -/
def TakesKey (b : Harr) (i : Nat) : Prop := b.isMap = true ∧ (b.key i).tag = .str

instance (b : Harr) (i : Nat) : Decidable (TakesKey b i) := inferInstanceAs (Decidable (_ ∧ _))

/-- the body of the loop of `hp_arr_merge`: element `i` of `b` goes into `r` -/
def mergeStep (b r : Harr) (i : Nat) : Option Harr :=
  if TakesKey b i then hpArrSet r (b.key i) (b.vals i)
  else some (hpArrPush r (b.vals i))

def hpArrMerge (junk : Nat → Val) (dup : Addr → Addr) (a b : Harr) : Option Harr :=
  (List.range b.len).foldlM (mergeStep b) (hpArrClone junk dup a)

def normIndex (i : Int64) (len : Nat) : Int64 :=
  let i := if i < 0 then i + Int64.ofNat len else i
  if i < 0 then 0 else if len < i.toUInt64.toNat then Int64.ofNat len else i

/-- `(size_t)end > a->len`, also for an `end` that is still negative -/
def sliceEnd (e : Int64) (len : Nat) : Int64 :=
  let e := if e < 0 then e + Int64.ofNat len else e
  if len < e.toUInt64.toNat then Int64.ofNat len else e

def hpArrSlice (junk : Nat → Val) (a : Harr) (start e : Int64) : Harr :=
  let s := (normIndex start a.len).toInt.toNat
  let n := ((sliceEnd e a.len).toInt - s).toNat
  (List.range n).foldl (fun r i => hpArrPush r (a.vals (s + i))) (hpArrNew junk)

def hpArrKeys (junk : Nat → Val) (a : Harr) : Harr :=
  (List.range a.len).foldl (fun r i =>
    hpArrPush r (if a.isMap then a.key i else .int (Int64.ofNat i))) (hpArrNew junk)

/-! ## what the operations leave alone -/

section
variable {a b : Harr} {k v : Val} {n : Nat}

theorem indexAdd_eq (h : hpArrIndexAdd a n = some b) : ∃ o, b = { a with index := o } := by
  unfold hpArrIndexAdd at h
  split at h
  · exact ⟨a.index, (Option.some.inj h).symm⟩
  · split at h
    · split at h
      · exact ⟨a.index, (Option.some.inj h).symm⟩
      · obtain ⟨x, -, hx⟩ := Option.bind_eq_some_iff.mp h
        obtain ⟨y, -, rfl⟩ := Option.map_eq_some_iff.mp hx
        exact ⟨some y, rfl⟩
    · obtain ⟨y, -, rfl⟩ := Option.map_eq_some_iff.mp h
      exact ⟨some y, rfl⟩

theorem indexDel_eq (h : hpArrIndexDel a n = some b) : ∃ o, b = { a with index := o } := by
  unfold hpArrIndexDel at h
  split at h
  · exact ⟨a.index, (Option.some.inj h).symm⟩
  · split at h
    · exact ⟨a.index, (Option.some.inj h).symm⟩
    · obtain ⟨y, -, rfl⟩ := Option.map_eq_some_iff.mp h
      exact ⟨some y, rfl⟩

/-- a new capacity, and null cells in new memory -/
structure Grown (a b : Harr) : Prop where
  len : b.len = a.len
  isMap : b.isMap = a.isMap
  nextIndex : b.nextIndex = a.nextIndex
  vals : b.vals = a.vals
  index : b.index = a.index
  keyed : a.keyed = true → b.keyed = true
  cap : a.cap ≤ b.cap
  new : a.cap < b.cap → a.isMap = true → b.keyed = true
  keys : ∀ i, b.keys i = a.keys i ∨ (a.isMap = true ∧ a.cap ≤ i ∧ b.keys i = ⟨.null, true⟩)

theorem grow_spec (a : Harr) (n : Nat) : Grown a (hpArrGrow a n) ∧ n ≤ (hpArrGrow a n).cap := by
  unfold hpArrGrow
  by_cases hn : n ≤ a.cap
  · rw [if_pos hn]
    exact ⟨⟨rfl, rfl, rfl, rfl, rfl, id, Nat.le_refl _, fun h => absurd h (Nat.lt_irrefl _),
      fun i => .inl rfl⟩, hn⟩
  · rw [if_neg hn]
    have hcap : n ≤ doubled n n (if a.cap = 0 then 8 else a.cap) := by
      apply le_doubled
      · split <;> omega
      · omega
    refine ⟨⟨rfl, rfl, rfl, rfl, rfl, fun h => by simp [h], by dsimp only; omega,
      fun _ h => by simp [h], fun i => ?_⟩, hcap⟩
    by_cases hi : a.isMap = true ∧ a.cap ≤ i ∧ i < doubled n n (if a.cap = 0 then 8 else a.cap)
    · exact .inr ⟨hi.1, hi.2.1, if_pos hi⟩
    · exact .inl (if_neg hi)

/-- one more element behind the others, under the key `k` in a map -/
structure Appended (a b : Harr) (k v : Val) : Prop where
  len : b.len = a.len + 1
  cap : a.len + 1 ≤ b.cap
  vals : b.vals = update a.vals a.len v
  index : b.index = a.index
  last : b.isMap = true → b.keys a.len = ⟨k, true⟩
  keys : ∀ i, i ≠ a.len → b.keys i = a.keys i ∨ (a.cap ≤ i ∧ (b.keys i).written = true)
  blank : b.isMap = false → b.keys = a.keys
  keyed : b.isMap = true → (0 < a.cap → a.keyed = true) → b.keyed = true

/-- the keys of a map are allocated with its elements -/
theorem Grown.keyed_of_pos (hg : Grown a b) (hm : a.isMap = true) (hb : 0 < b.cap)
    (ha : 0 < a.cap → a.keyed = true) : b.keyed = true := by
  rcases Nat.lt_or_eq_of_le hg.cap with hlt | heq
  · exact hg.new hlt hm
  · exact hg.keyed (ha (by omega))

theorem Appended.of_grown {c : Harr} (hg : Grown { a with isMap := c.isMap } c)
    (hcap : a.len + 1 ≤ c.cap) (hkeyed : c.keyed = true → b.keyed = true)
    (hlen : b.len = c.len + 1) (hbc : b.cap = c.cap) (hm : b.isMap = c.isMap)
    (hi : b.index = c.index) (hv : b.vals = update c.vals c.len v)
    (hk : b.keys = if c.isMap then update c.keys c.len ⟨k, true⟩ else c.keys) :
    Appended a b k v := by
  have hl : c.len = a.len := hg.len
  have hold : ∀ i, c.keys i = a.keys i ∨ (c.isMap = true ∧ a.cap ≤ i ∧ c.keys i = ⟨.null, true⟩) :=
    hg.keys
  refine ⟨by rw [hlen, hl], by rw [hbc]; exact hcap, by rw [hv, hl, hg.vals], hi.trans hg.index,
    fun h => ?_, fun i hne => ?_, fun h => ?_, fun h ha =>
      hkeyed (hg.keyed_of_pos (hm ▸ h) (by omega) ha)⟩
  · rw [hk, if_pos (hm ▸ h), hl, update_self]
  · have hki : b.keys i = c.keys i := by
      rw [hk]
      split
      · rw [hl, update_of_ne hne]
      · rfl
    rw [hki]
    rcases hold i with e | ⟨-, hcap, e⟩
    · exact .inl e
    · exact .inr ⟨hcap, by rw [e]⟩
  · have hcm : c.isMap = false := hm ▸ h
    rw [hk, hcm]
    funext i
    rcases hold i with e | ⟨hmap, -⟩
    · exact e
    · rw [hcm] at hmap
      cases hmap

theorem push_spec (a : Harr) (v : Val) : Appended a (hpArrPush a v) (.int a.nextIndex) v ∧
    (hpArrPush a v).isMap = a.isMap ∧ (hpArrPush a v).nextIndex = a.nextIndex + 1 := by
  obtain ⟨hg, hcap⟩ := grow_spec a (a.len + 1)
  have hm := hg.isMap
  refine ⟨.of_grown (c := hpArrGrow a (a.len + 1)) (by rw [hm]; exact hg) hcap id rfl rfl rfl rfl
    rfl ?_, hm, by rw [hpArrPush, hg.nextIndex]⟩
  rw [hpArrPush, hg.nextIndex]

/-- a new list with the elements `f 0 .. f (n - 1)` -/
theorem pushes_spec (junk f : Nat → Val) (n : Nat) :
    let a := (List.range n).foldl (fun a i => hpArrPush a (f i)) (hpArrNew junk)
    a.isMap = false ∧ a.len = n ∧ ∀ i, i < n → a.vals i = f i := by
  induction n with
  | zero => exact ⟨rfl, rfl, fun i hi => absurd hi (Nat.not_lt_zero i)⟩
  | succ n ih =>
    rw [List.range_succ, List.foldl_append, List.foldl_cons, List.foldl_nil]
    obtain ⟨hmap, hlen, hvals⟩ := ih
    generalize List.foldl _ (hpArrNew junk) (List.range n) = a at hmap hlen hvals
    obtain ⟨happ, hm, -⟩ := push_spec a (f n)
    refine ⟨hm.trans hmap, by rw [happ.len, hlen], fun i hi => ?_⟩
    rw [happ.vals, hlen]
    by_cases e : i = n
    · rw [e, update_self]
    · rw [update_of_ne e]
      exact hvals i (by omega)

theorem append_spec (a : Harr) (k v : Val) : Appended a (a.append k v) k v ∧
    (a.append k v).isMap = (a.isMap || a.converts k) ∧
    (a.append k v).nextIndex = a.nextIndex := by
  obtain ⟨hg, hcap⟩ := grow_spec { a with isMap := a.isMap || a.converts k } (a.len + 1)
  have hm := hg.isMap
  refine ⟨.of_grown (by rw [hm]; exact hg) hcap (fun h => ?_) rfl rfl rfl rfl rfl rfl, hm,
    hg.nextIndex⟩
  simp only [Harr.append, h, Bool.true_or]

theorem Appended.keys_of_lt (h : Appended a b k v) (hcap : a.len ≤ a.cap) {i : Nat}
    (hi : i < a.len) : b.keys i = a.keys i := by
  rcases h.keys i (by omega) with e | ⟨hle, -⟩
  · exact e
  · omega

theorem unshift_spec (hcap : a.len ≤ a.cap) (v : Val) :
    (hpArrUnshift a v).len = a.len + 1 ∧ (hpArrUnshift a v).isMap = a.isMap ∧
    (hpArrUnshift a v).index = a.index ∧ a.len + 1 ≤ (hpArrUnshift a v).cap ∧
    (hpArrUnshift a v).nextIndex = (if a.isMap then a.nextIndex + 1 else a.nextIndex) ∧
    (a.isMap = true → (hpArrUnshift a v).keys 0 = ⟨.int a.nextIndex, true⟩ ∧
      ∀ i < a.len, (hpArrUnshift a v).keys (i + 1) = a.keys i) ∧
    (a.isMap = false → (hpArrUnshift a v).keys = a.keys) ∧
    (a.isMap = true → (0 < a.cap → a.keyed = true) → (hpArrUnshift a v).keyed = true) := by
  obtain ⟨hg, hgcap⟩ := grow_spec a (a.len + 1)
  have hlen := hg.len
  have hm := hg.isMap
  have hn := hg.nextIndex
  refine ⟨by rw [hpArrUnshift, hlen], hm, hg.index, hgcap, by simp only [hpArrUnshift, hm, hn],
    fun h => ⟨?_, fun i hi => ?_⟩, fun h => ?_, fun h ha => hg.keyed_of_pos h (by omega) ha⟩
  · simp only [hpArrUnshift, hm, h, if_true, update_self, hn]
  · simp only [hpArrUnshift, hm, h, if_true, hlen]
    rw [update_of_ne (Nat.succ_ne_zero i), moveUp, if_pos (by omega), Nat.succ_sub_one]
    rcases hg.keys i with e | ⟨-, hle, -⟩
    · exact e
    · omega
  · simp only [hpArrUnshift, hm, h, Bool.false_eq_true, if_false]
    funext i
    rcases hg.keys i with e | ⟨hmap, -⟩
    · exact e
    · rw [h] at hmap
      cases hmap

theorem bumpNext_eq (a : Harr) (k : Val) : ∃ n, bumpNext a k = { a with nextIndex := n } := by
  unfold bumpNext
  split
  · split
    · exact ⟨_, rfl⟩
    · exact ⟨a.nextIndex, rfl⟩
  · exact ⟨a.nextIndex, rfl⟩

/-- what `hp_arr_set` does -/
theorem set_cases (h : hpArrSet a k v = some b) :
    (k = .null ∧ b = hpArrPush a v) ∨
    (∃ i, k ≠ .null ∧ hpKeyIndex a k = some (some i) ∧ b = { a with vals := update a.vals i v }) ∨
    (k ≠ .null ∧ hpKeyIndex a k = some none ∧
      ∃ c, (if (a.append k v).isMap then hpArrIndexAdd (a.append k v) a.len
        else some (a.append k v)) = some c ∧ b = bumpNext c k) := by
  unfold hpArrSet at h
  by_cases hk : k = .null
  · rw [if_pos hk] at h
    exact .inl ⟨hk, (Option.some.inj h).symm⟩
  · rw [if_neg hk] at h
    obtain ⟨o, ho, h⟩ := Option.bind_eq_some_iff.mp h
    cases o with
    | some i => exact .inr (.inl ⟨i, hk, ho, (Option.some.inj h).symm⟩)
    | none =>
      obtain ⟨c, hc, rfl⟩ := Option.map_eq_some_iff.mp h
      exact .inr (.inr ⟨hk, ho, c, hc, rfl⟩)

theorem appended_eq {c : Harr} (hadd : (if (a.append k v).isMap then
      hpArrIndexAdd (a.append k v) a.len else some (a.append k v)) = some c) :
    ∃ o, c = { a.append k v with index := o } := by
  split at hadd
  · exact indexAdd_eq hadd
  · exact ⟨_, (Option.some.inj hadd).symm⟩

/-- a new key: the element behind the others, and a new index and `next_index` -/
theorem set_new {c : Harr} (hadd : (if (a.append k v).isMap then hpArrIndexAdd (a.append k v) a.len
      else some (a.append k v)) = some c) :
    ∃ o n, bumpNext c k = { a.append k v with index := o, nextIndex := n } := by
  obtain ⟨n, hn⟩ := bumpNext_eq c k
  obtain ⟨o, rfl⟩ := appended_eq hadd
  exact ⟨o, n, hn⟩

theorem keyIndex_list_str (hm : a.isMap = false) (s : Option Bytes) :
    hpKeyIndex a (.str s) = some none := by
  unfold hpKeyIndex
  rw [hm]
  rfl

theorem takeKey_eq {i last : Nat} (h : a.takeKey i last = some b) :
    ∃ ks o, (ks = a.keys ∨ ks = update a.keys i (a.keys last)) ∧
      b = { a with keys := ks, index := o } := by
  unfold Harr.takeKey at h
  split at h
  · obtain ⟨d, hd, h⟩ := Option.bind_eq_some_iff.mp h
    obtain ⟨e, he, rfl⟩ := Option.map_eq_some_iff.mp h
    obtain ⟨o, rfl⟩ := indexDel_eq hd
    obtain ⟨o', rfl⟩ := indexDel_eq he
    exact ⟨_, o', .inr rfl, rfl⟩
  · exact ⟨a.keys, a.index, .inl rfl, (Option.some.inj h).symm⟩

theorem fillHole_eq {i last : Nat} (h : a.fillHole i last = some b) :
    ∃ ks o, (ks = a.keys ∨ ks = update a.keys i (a.keys last)) ∧
      b = { a with keys := ks, vals := update a.vals i (a.vals last), index := o } := by
  unfold Harr.fillHole at h
  obtain ⟨c, hc, h⟩ := Option.bind_eq_some_iff.mp h
  obtain ⟨ks, o, hks, rfl⟩ := takeKey_eq hc
  dsimp only at h
  split at h
  · obtain ⟨o', rfl⟩ := indexAdd_eq h
    exact ⟨ks, o', hks, rfl⟩
  · exact ⟨ks, o, hks, (Option.some.inj h).symm⟩

/-- what `hp_arr_unset` does -/
theorem unset_cases (h : hpArrUnset a k = some b) :
    (hpKeyIndex a k = some none ∧ b = a) ∨
    ∃ i ks vs o, hpKeyIndex a k = some (some i) ∧
      (ks = a.keys ∨ ks = update a.keys i (a.keys (a.len - 1))) ∧
      b = { a with len := a.len - 1, keys := ks, vals := vs, index := o } := by
  unfold hpArrUnset at h
  obtain ⟨r, hr, h⟩ := Option.bind_eq_some_iff.mp h
  cases r with
  | none => exact .inl ⟨hr, (Option.some.inj h).symm⟩
  | some i =>
    refine .inr ?_
    dsimp only at h
    split at h
    · cases h
    obtain ⟨c, hc, rfl⟩ := Option.map_eq_some_iff.mp h
    split at hc
    · obtain ⟨ks, o, hks, rfl⟩ := fillHole_eq hc
      exact ⟨i, ks, _, o, hr, hks, rfl⟩
    · split at hc
      · obtain ⟨o, rfl⟩ := indexDel_eq hc
        exact ⟨i, a.keys, a.vals, o, hr, .inl rfl, rfl⟩
      · obtain rfl := Option.some.inj hc
        exact ⟨i, a.keys, a.vals, a.index, hr, .inl rfl, rfl⟩

end

end Arr
end HolyPhp
