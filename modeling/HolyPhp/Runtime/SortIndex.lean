import HolyPhp.Runtime.Usort
import Mathlib.Logic.Equiv.Basic

/-!
# Sorting a map, and its index

A sort moves keys and values together.  The hash index keeps its slot numbers.

* `SortsTo a b`     `b` is what one of the sorts makes of `a`;
* `Answering a b`   every lookup gives the same in the two maps;
* `Finds x b`       the index leads from each key to the slot that it has now;
* `Crossed x a`     it leads from each key to each slot;
* `sort_entries`    the entries are the same, and the lookups just if the index leads to them.
-/

set_option autoImplicit false

namespace HolyPhp
namespace Std
open Sorting Insertion Arr Arr.Index Function Probe

/-! ## lookups by entries -/

section
variable {a b : Harr} {k v : Val} {i j : Nat} {x : Index}

/-- keys that a scan tells apart -/
structure Distinct (a : Harr) : Prop where
  hashed : ∀ i < a.len, hashable (a.key i) = true
  inj : ∀ i j, i < a.len → j < a.len → a.key i = a.key j → i = j

theorem Distinct.of_perm (h : Distinct a) (hp : b.entries.Perm a.entries) :
    Distinct b := by
  have hkeys : (b.entries.map Prod.fst).Perm (a.entries.map Prod.fst) := hp.map _
  have hnd : (a.entries.map Prod.fst).Nodup := by
    apply List.nodup_iff_injective_get.mpr
    intro s t hst
    have hs := s.2
    have ht := t.2
    simp only [List.length_map, length_entries] at hs ht
    simp only [List.get_eq_getElem, List.getElem_map, getElem_entries] at hst
    exact Fin.ext (h.inj s t hs ht hst)
  refine ⟨fun i hi => ?_, fun i j hi hj he => ?_⟩
  · have hm : (b.key i, b.vals i) ∈ b.entries := List.mem_map.mpr ⟨i, List.mem_range.mpr hi, rfl⟩
    obtain ⟨s, hs, he⟩ := List.mem_map.mp (hp.mem_iff.mp hm)
    have hfst : a.key s = b.key i := congrArg Prod.fst he
    rw [← hfst]
    exact h.hashed s (List.mem_range.mp hs)
  · have hnd' := hkeys.nodup_iff.mpr hnd
    have hi' : i < (b.entries.map Prod.fst).length := by rwa [List.length_map, length_entries]
    have hj' : j < (b.entries.map Prod.fst).length := by rwa [List.length_map, length_entries]
    have heq : (b.entries.map Prod.fst).get ⟨i, hi'⟩ = (b.entries.map Prod.fst).get ⟨j, hj'⟩ := by
      rw [List.get_eq_getElem, List.get_eq_getElem, List.getElem_map, List.getElem_map,
        getElem_entries, getElem_entries]
      exact he
    exact congrArg Fin.val (List.nodup_iff_injective_get.mp hnd' heq)

theorem scan_of_key (h : Distinct a) (hi : i < a.len) (hk : a.key i = k) : a.scan k = some i := by
  subst hk
  cases hs : a.scan (a.key i) with
  | none =>
    have := List.find?_eq_none.mp hs i (List.mem_range.mpr hi)
    exact absurd (keyEq_iff.mpr ⟨rfl, h.hashed i hi⟩) this
  | some j =>
    obtain ⟨hj, hkey⟩ := scan_some hs
    rw [h.inj j i hj hi hkey]

/-- a scan reads the entry of the key -/
theorem scan_iff (h : Distinct a) : (a.scan k).map a.vals = some v ↔ (k, v) ∈ a.entries := by
  constructor
  · intro hs
    obtain ⟨i, hi, rfl⟩ := Option.map_eq_some_iff.mp hs
    obtain ⟨hlt, rfl⟩ := scan_some hi
    exact List.mem_map.mpr ⟨i, List.mem_range.mpr hlt, rfl⟩
  · intro hm
    obtain ⟨i, hi, he⟩ := List.mem_map.mp hm
    cases he
    rw [scan_of_key h (List.mem_range.mp hi) rfl, Option.map_some]

theorem scan_perm (h : Distinct a) (hp : b.entries.Perm a.entries) (k : Val) :
    (b.scan k).map b.vals = (a.scan k).map a.vals := by
  apply Option.ext
  intro v
  rw [scan_iff (h.of_perm hp), scan_iff h]
  exact hp.mem_iff

/-- lookups that scan -/
def Scans (a : Harr) : Prop := ∀ k, hpKeyIndex a k = some (a.scan k)

/-- every lookup gives the same -/
def Answering (a b : Harr) : Prop :=
  ∀ k, hpArrGet b k = hpArrGet a k ∧ hpArrHas b k = hpArrHas a k

theorem Scans.answering (ha : Scans a) (hb : Scans b)
    (h : ∀ k, (b.scan k).map b.vals = (a.scan k).map a.vals) : Answering a b := by
  intro k
  unfold hpArrGet hpArrHas
  rw [ha k, hb k, Option.map_some, Option.map_some, Option.map_some, Option.map_some, h k]
  refine ⟨rfl, ?_⟩
  have := congrArg Option.isSome (h k)
  rw [Option.isSome_map, Option.isSome_map] at this
  rw [this]

/-! ## what the index leads to -/

/-- the entry of each slot is on the path of the key that stands there; a NULL string is never
looked up by the index -/
def Finds (x : Index) (b : Harr) : Prop :=
  Covers b.key (fun i => i < b.len ∧ b.key i ≠ .str none) x

/-- the index of a map that is sound but for the order of its entries -/
structure Probed (b : Harr) (x : Index) : Prop where
  distinct : Distinct b
  loaded : x.Loaded
  live : Live b.len x
  small : b.len ≤ maxLen

theorem Probed.find_iff (h : Probed b x) (hi : i < b.len) (hk : b.key i = k) :
    x.find b.key (keyHash k) k = some (some i) ↔
      ∃ s, Path x.slots x.icap (keyHash k % x.icap) s ∧ x.slots s = i + 1 := by
  have hkh : hashable k = true := hk ▸ h.distinct.hashed i hi
  constructor
  · intro hf
    obtain ⟨e, -, -, he⟩ := h.loaded.pow
    obtain ⟨r, hr, -, -, hpath⟩ := probe_spec he h.loaded.exists_empty
      (fun s => x.slots s == 0 || (x.slots s != tomb && hpKeyEq (b.key (x.slots s - 1)) k))
      (fun s hs => by simp [hs]) (keyHash k)
    rw [find, hr, Option.map_some] at hf
    have hf := Option.some.inj hf
    split at hf
    · cases hf
    · next h0 =>
      have := Option.some.inj hf
      exact ⟨r, hpath, by omega⟩
  · intro hp
    obtain ⟨s, hs, hsi⟩ := hp
    obtain ⟨o, ho, hfound, hmiss⟩ := find_spec h.loaded b.key (keyHash k) k
    have hne : o ≠ none := by
      apply hmiss s hs
      · rw [hsi]
        exact Nat.succ_ne_zero i
      · have := h.small
        unfold maxLen at this
        rw [hsi]
        unfold tomb
        omega
      · rw [hsi, Nat.add_sub_cancel]
        exact keyEq_iff.mpr ⟨hk, hkh⟩
    obtain ⟨j, rfl⟩ := Option.ne_none_iff_exists'.mp hne
    obtain ⟨hkj, t, ht, h0, htomb, htj⟩ := hfound j rfl
    have hlt : j < b.len := by
      have := h.live t ht h0 htomb
      omega
    rw [ho, h.distinct.inj j i hlt hi ((keyEq_iff.mp hkj).1.trans hk.symm)]

/-- a key that is not there -/
theorem Probed.find_none (h : Probed b x) (hno : ∀ i < b.len, b.key i ≠ k) :
    x.find b.key (keyHash k) k = some none := by
  obtain ⟨o, ho, hfound, -⟩ := find_spec h.loaded b.key (keyHash k) k
  cases o with
  | none => exact ho
  | some j =>
    obtain ⟨hkj, t, ht, h0, htomb, htj⟩ := hfound j rfl
    have hlt : j < b.len := by
      have := h.live t ht h0 htomb
      omega
    exact absurd (keyEq_iff.mp hkj).1 (hno j hlt)

theorem Probed.find_scan (h : Probed b x) (hc : Finds x b) (hk : k ≠ .str none) :
    x.find b.key (keyHash k) k = some (b.scan k) := by
  cases hs : b.scan k with
  | none =>
    apply h.find_none
    intro i hi he
    rw [scan_of_key h.distinct hi he] at hs
    cases hs
  | some i =>
    obtain ⟨hi, rfl⟩ := scan_some hs
    exact (h.find_iff hi rfl).mpr (hc i ⟨hi, hk⟩ (h.distinct.hashed i hi))

/-- a lookup by an index is a search for ints and strings -/
theorem keyIndex_find (hm : b.isMap = true) (hx : b.index = some x) (hk : hashable k = true)
    (hn : k ≠ .str none) : hpKeyIndex b k = x.find b.key (keyHash k) k := by
  unfold hpKeyIndex
  rw [hm, if_pos rfl, hx]
  cases k with
  | int n => rfl
  | str s =>
    cases s with
    | none => exact absurd rfl hn
    | some s =>
      show x.find b.key (hpStrHash (some s)) _ = x.find b.key (hpHashStr (some s)) _
      rw [hashStr_some]
  | null | float | bool | arr | obj | clo => cases hk

/-- and a scan for all else -/
theorem keyIndex_scan (hm : b.isMap = true) (hk : hashable k = false ∨ k = .str none) :
    hpKeyIndex b k = some (b.scan k) := by
  unfold hpKeyIndex
  rw [hm, if_pos rfl]
  rcases hk with hk | rfl
  · cases k with
    | int n => cases hk
    | str s => cases hk
    | null | float | bool | arr | obj | clo =>
      cases b.index <;> rfl
  · cases b.index <;> rfl

theorem Probed.scans (h : Probed b x) (hm : b.isMap = true) (hx : b.index = some x)
    (hc : Finds x b) : Scans b := by
  intro k
  by_cases hk : hashable k = true ∧ k ≠ .str none
  · rw [keyIndex_find hm hx hk.1 hk.2]
    exact h.find_scan hc hk.2
  · apply keyIndex_scan hm
    by_cases hh : hashable k = true
    · exact .inr (not_not.mp fun hn => hk ⟨hh, hn⟩)
    · exact .inl (eq_false_of_ne_true hh)

/-- the same entries in another order, with the index as it was -/
structure Shuffled (a b : Harr) : Prop where
  len : b.len = a.len
  isMap : b.isMap = a.isMap
  index : b.index = a.index
  entries : b.entries.Perm a.entries

theorem distinct_of_sound (h : Sound a) (hm : a.isMap = true) : Distinct a :=
  ⟨(h.keys hm).hashed, (h.keys hm).distinct⟩

theorem probed_of_sound (h : Sound a) (hm : a.isMap = true) (hs : Shuffled a b)
    (hx : a.index = some x) : Probed b x := by
  obtain ⟨-, hl⟩ := h.covered x hx
  refine ⟨(distinct_of_sound h hm).of_perm hs.entries, h.steady.loaded x hx, ?_, ?_⟩
  · rw [hs.len]
    exact hl
  · rw [hs.len]
    exact h.small

/-- **The lookups are the same just if the index leads to the entries.** -/
theorem answering_iff (h : Sound a) (hm : a.isMap = true) (hs : Shuffled a b) :
    Answering a b ↔ ∀ x, a.index = some x → Finds x b := by
  have hd := distinct_of_sound h hm
  have hbm : b.isMap = true := hs.isMap.trans hm
  have ha : Scans a := keyIndex_eq_scan h hm
  constructor
  · intro hans x hx i hi hk
    have hp := probed_of_sound h hm hs hx
    apply (hp.find_iff hi.1 rfl).mp
    -- the key is found before, so after; and what is found has the key
    have hsome : (b.scan (b.key i)).map b.vals = some (b.vals i) := by
      rw [scan_of_key hp.distinct hi.1 rfl, Option.map_some]
    rw [scan_perm hd hs.entries] at hsome
    have hhas := (hans (b.key i)).2
    unfold hpArrHas at hhas
    rw [ha, Option.map_some] at hhas
    obtain ⟨o, ho, -⟩ := Option.map_eq_some_iff.mp hsome
    rw [ho, keyIndex_find hbm (hs.index.trans hx) hk hi.2] at hhas
    obtain ⟨r, hr, hrs⟩ := Option.map_eq_some_iff.mp hhas
    obtain ⟨j, rfl⟩ := Option.isSome_iff_exists.mp hrs
    obtain ⟨q, hq, hfound, -⟩ := find_spec hp.loaded b.key (keyHash (b.key i)) (b.key i)
    rw [hr] at hq
    cases hq
    obtain ⟨hkj, t, ht, h0, htomb, htj⟩ := hfound j rfl
    have hlt : j < b.len := by
      have := hp.live t ht h0 htomb
      omega
    rw [hr, hp.distinct.inj j i hlt hi.1 (keyEq_iff.mp hkj).1]
  · intro hc
    refine ha.answering ?_ (scan_perm hd hs.entries)
    cases hx : a.index with
    | none =>
      intro k
      unfold hpKeyIndex
      rw [hbm, if_pos rfl, hs.index, hx]
    | some x =>
      exact (probed_of_sound h hm hs hx).scans hbm (hs.index.trans hx) (hc x hx)

/-! ## the sorts -/

section
variable {strtod : Bytes → Double} {qsort : (α : Type) → (α → α → Int) → List α → List α}

/-- `hp_sort_pairs` on a map -/
theorem sortPairs_shuffled (hs : Sorts qsort) (hm : a.isMap = true)
    (hk : 0 < a.len → a.keyed = true) (byKey desc : Bool) :
    Shuffled a (hpSortPairs strtod qsort a byKey desc) := by
  unfold hpSortPairs
  by_cases h2 : a.len < 2
  · rw [if_pos h2]
    exact ⟨rfl, rfl, rfl, .refl _⟩
  · have hcond : ¬ (!(a.isMap && a.keyed)) = true := by
      rw [hm, hk (by omega), Bool.and_self, Bool.not_true]
      exact Bool.false_ne_true
    rw [if_neg h2, if_neg hcond]
    generalize hmode : (if byKey = true then (if desc = true then SortMode.keyDesc else .keyAsc)
      else (if desc = true then .valDesc else .valAsc)) = mode
    have hp := hs.perm HpKv (hpKvCmp strtod mode) (pairs a)
    have hlen := hp.length_eq
    rw [length_pairs] at hlen
    refine ⟨rfl, rfl, rfl, ?_⟩
    have hent : ∀ l : List HpKv, l.length = a.len →
        ({ a with
          keys := fun i => (l[i]?.map HpKv.k).getD (a.keys i)
          vals := fun i => (l[i]?.map HpKv.v).getD (a.vals i) } : Harr).entries =
        l.map fun p => (p.k.val, p.v) := by
      intro l hl
      apply List.ext_getElem
      · rw [length_entries, List.length_map, hl]
      · intro i h1 h2
        rw [getElem_entries, List.getElem_map]
        rw [List.length_map] at h2
        simp only [Harr.key, List.getElem?_eq_getElem h2, Option.map_some, Option.getD_some]
    rw [hent _ hlen, ← map_pairs]
    exact hp.map _

end

/-- the entries of an array that was reordered -/
theorem Reordered.shuffled (h : Reordered a b) (hk : 0 < a.len → a.keyed = true) :
    Shuffled a b := by
  obtain ⟨⟨ks, vs, rfl⟩, -, hp⟩ := h
  refine ⟨rfl, rfl, rfl, ?_⟩
  rcases Nat.eq_zero_or_pos a.len with h0 | hpos
  · have h1 : a.entries = [] := List.length_eq_zero_iff.mp ((length_entries a).trans h0)
    have h2 : ({ a with keys := ks, vals := vs } : Harr).entries = [] :=
      List.length_eq_zero_iff.mp ((length_entries _).trans h0)
    rw [h1, h2]
  · have hp := (hp (hk hpos)).map fun p : Key × Val => (p.1.val, p.2)
    rw [map_cells, map_cells] at hp
    exact hp

/-- what the sorts make of an array, for comparators that return -/
inductive SortsTo (strtod : Bytes → Double) (qsort : (α : Type) → (α → α → Int) → List α → List α)
    (call : Option Addr → Nat → Val → Val → Option Val) (a : Harr) : Harr → Prop
  | sort : SortsTo strtod qsort call a (hpbiSort strtod qsort a)
  | rsort : SortsTo strtod qsort call a (hpbiRsort strtod qsort a)
  | ksort : SortsTo strtod qsort call a (hpbiKsort strtod qsort a)
  | krsort : SortsTo strtod qsort call a (hpbiKrsort strtod qsort a)
  | asort : SortsTo strtod qsort call a (hpbiAsort strtod qsort a)
  | uasort {fn : Val} {b : Harr} : hpbiUasort call a fn = .done b → SortsTo strtod qsort call a b
  | uksort {fn : Val} {b : Harr} : hpbiUksort call a fn = .done b → SortsTo strtod qsort call a b

section
variable {strtod : Bytes → Double} {qsort : (α : Type) → (α → α → Int) → List α → List α}
  {call : Option Addr → Nat → Val → Val → Option Val}

theorem SortsTo.shuffled (h : SortsTo strtod qsort call a b) (hs : Sorts qsort)
    (hm : a.isMap = true) (hk : 0 < a.len → a.keyed = true) : Shuffled a b := by
  cases h with
  | sort => exact sortPairs_shuffled hs hm hk false false
  | rsort => exact sortPairs_shuffled hs hm hk false true
  | ksort => exact sortPairs_shuffled hs hm hk true false
  | krsort => exact sortPairs_shuffled hs hm hk true true
  | asort => exact sortPairs_shuffled hs hm hk false false
  | uasort hb => exact (sortWithFn_spec.1 b hb).shuffled hk
  | uksort hb => exact (sortWithFn_spec.1 b hb).shuffled hk

end

/-! ## maps that are built -/

/-- the maps that `hp_arr_set` builds out of nothing; the next int key does not overflow -/
inductive Built : Harr → Prop
  | map (junk : Nat → Val) : Built (emptyMap junk)
  | first {junk : Nat → Val} {b : Harr} {k v : Val} : (hpArrNew junk).converts k = true →
      k ≠ .int Int64.maxValue → hpArrSet (hpArrNew junk) k v = some b → Built b
  | set {a b : Harr} {k v : Val} : Built a → hashable k = true → k ≠ .int Int64.maxValue →
      hpArrSet a k v = some b → Built b

/-- the first key makes a map of an empty list -/
theorem filled_first {junk : Nat → Val} (hconv : (hpArrNew junk).converts k = true)
    (hmax : k ≠ .int Int64.maxValue) (hset : hpArrSet (hpArrNew junk) k v = some b) :
    Filled b := by
  have hs : Sound (hpArrNew junk) := .reach (.init ⟨junk, .inl rfl⟩)
  have hk : hashable k = true := by
    cases k with
    | int n => rfl
    | str s => rfl
    | null | float | bool | arr | obj | clo => cases hconv
  have ht : Tidy (hpArrNew junk) (.set k v) := fun _ =>
    ⟨Nat.succ_pos _, hmax, fun hm => (by cases hm), fun _ _ => rfl⟩
  have hb := hs.set hk ht hset
  rcases set_cases hset with ⟨rfl, -⟩ | ⟨i, -, hi, -⟩ | ⟨-, -, c, hc, rfl⟩
  · cases hk
  · -- there is no key yet
    rw [keyIndex_eq_slotOf hs k] at hi
    have := Sound.slotOf_lt (Option.some.inj hi)
    exact absurd this (Nat.not_lt_zero i)
  · obtain ⟨ha, hmap, -⟩ := append_spec (hpArrNew junk) k v
    obtain ⟨o, n, hn⟩ := set_new hc
    have hm : ((hpArrNew junk).append k v).isMap = true := by
      rw [hmap, hconv, Bool.or_true]
    have hidx : ((hpArrNew junk).append k v).index = none := ha.index
    have hlen : ((hpArrNew junk).append k v).len = 1 := ha.len
    have hcn : c.index = none := by
      rw [if_pos hm] at hc
      unfold hpArrIndexAdd at hc
      rw [hidx, hlen] at hc
      split at hc
      · rw [← Option.some.inj hc]
        exact hidx
      · rw [← Option.some.inj hc]
        exact hidx
    obtain ⟨m, hcm⟩ := bumpNext_eq c k
    have hbn : (bumpNext c k).index = none := by
      rw [hcm]
      exact hcn
    refine ⟨hb, by rw [hn]; exact hm, fun _ => ?_, fun x hx => ?_⟩
    · rw [hn]
      show ((hpArrNew junk).append k v).len < 12
      omega
    · rw [hbn] at hx
      cases hx

/-- the table bounds the number of entries -/
theorem filled_lt (h : Filled a) : a.len < full := by
  unfold full
  cases hx : a.index with
  | none =>
    have := h.small hx
    omega
  | some x =>
    obtain ⟨e, -, h31, -, hbud, -⟩ := h.table x hx
    have : 2 ^ e ≤ 2 ^ 31 := Nat.pow_le_pow_right (by decide) h31
    omega

theorem Built.filled (h : Built a) : Filled a := by
  induction h with
  | map junk => exact emptyMap_filled junk
  | first hconv hmax hset => exact filled_first hconv hmax hset
  | @set a b k v _ hk hmax hset ih =>
    have hlen : a.scan k = none → a.len + 1 < full := by
      intro hs
      have hlt := filled_lt ih
      by_contra hge
      rw [ih.set_full hk hs (by omega)] at hset
      cases hset
    obtain ⟨b', hb', hfb, -⟩ := ih.set (v := v) hk hmax hlen
    rw [hset] at hb'
    cases hb'
    exact hfb

theorem Built.fold {kvs : List (Val × Val)}
    (hkv : ∀ kv ∈ kvs, hashable kv.1 = true ∧ kv.1 ≠ .int Int64.maxValue) (ha : Built a)
    (hb : kvs.foldlM (fun a kv => hpArrSet a kv.1 kv.2) a = some b) : Built b := by
  induction kvs generalizing a with
  | nil =>
    cases hb
    exact ha
  | cons kv kvs ih =>
    rw [List.foldlM_cons] at hb
    obtain ⟨c, hc, hb⟩ := Option.bind_eq_some_iff.mp hb
    obtain ⟨hk, hmax⟩ := hkv kv List.mem_cons_self
    exact ih (fun kv hm => hkv kv (List.mem_cons_of_mem _ hm)) (ha.set hk hmax hc) hb

/-- `hp_map_of` -/
theorem built_mapOf {junk : Nat → Val} {kvs : List (Val × Val)}
    (hkv : ∀ kv ∈ kvs, hashable kv.1 = true ∧ kv.1 ≠ .int Int64.maxValue)
    (hb : hpMapOf junk kvs = some b) : Built b :=
  (Built.map junk).fold hkv hb

/-! ## every sort -/

/-- the probe from each key comes to the entry of each slot -/
def Crossed (x : Index) (a : Harr) : Prop :=
  ∀ i j, i < a.len → j < a.len → a.key i ≠ .str none →
    ∃ s, Path x.slots x.icap (keyHash (a.key i) % x.icap) s ∧ x.slots s = j + 1

/-- the place of a key when the slots `i` and `j` are swapped -/
def swapRank (a : Harr) (i j : Nat) (k : Val) : Nat := ((a.scan k).map (Equiv.swap i j)).getD 0

/-- the comparator of a rank -/
def rankCmp (rank : Val → Nat) (x y : Val) : Int64 := if rank x ≤ rank y then 0 else 1

theorem rankCmp_le {rank : Val → Nat} {x y : Val} : rankCmp rank x y ≤ 0 ↔ rank x ≤ rank y := by
  unfold rankCmp
  by_cases h : rank x ≤ rank y
  · rw [if_pos h]
    exact iff_of_true (Int64.le_refl 0) h
  · rw [if_neg h]
    exact iff_of_false (by decide) h

theorem ranks_rankCmp (rank : Val → Nat) : Ranks (rankCmp rank) where
  total x y := by
    rw [rankCmp_le, rankCmp_le]
    exact Nat.le_total _ _
  trans x y z h h' := by
    rw [rankCmp_le] at h h' ⊢
    exact Nat.le_trans h h'

theorem map_swap_range {n : Nat} (hi : i < n) (hj : j < n) :
    ((List.range n).map (Equiv.swap i j)).Perm (List.range n) := by
  rw [List.perm_ext_iff_of_nodup (List.nodup_range.map (Equiv.swap i j).injective) List.nodup_range]
  intro m
  have hlt : ∀ m, m < n → Equiv.swap i j m < n := by
    intro m hm
    rw [Equiv.swap_apply_def]
    split
    · exact hj
    · split
      · exact hi
      · exact hm
  rw [List.mem_map, List.mem_range]
  constructor
  · intro h
    obtain ⟨t, ht, rfl⟩ := h
    exact hlt t (List.mem_range.mp ht)
  · intro h
    exact ⟨Equiv.swap i j m, List.mem_range.mpr (hlt m h), Equiv.swap_apply_self i j m⟩

/-- a comparator can bring each key to each slot -/
theorem exists_uksort (hd : Distinct a) (hk : a.keyed = true) (hi : i < a.len) (hj : j < a.len) :
    ∃ call fn b, hpbiUksort call a fn = .done b ∧ b.len = a.len ∧ b.key j = a.key i := by
  obtain ⟨b, hb, hs⟩ : ∃ b, hpbiUksort (fun _ _ x y => some (.int (rankCmp (swapRank a i j) x y)))
      a (.clo none) = .done b ∧ _ :=
    uksort_keys hk (ranks_rankCmp (swapRank a i j)) fun c x y => rfl
  obtain ⟨⟨ks, vs, rfl⟩, -, -⟩ := sortWithFn_spec.1 b hb
  have hrank : ∀ m < a.len, swapRank a i j (a.key m) = Equiv.swap i j m := by
    intro m hm
    rw [swapRank, scan_of_key hd hm rfl, Option.map_some, Option.getD_some]
  have hkeys : (cells (fun s => (a.keys s).val) a.len).map (swapRank a i j) =
      (List.range a.len).map (Equiv.swap i j) := by
    rw [cells, List.map_map]
    exact List.map_congr_left fun m hm => hrank m (List.mem_range.mp hm)
  -- the ranks after the sort are the slots
  have hsorted : (cells (fun s => (ks s).val) a.len).map (swapRank a i j) = List.range a.len := by
    have hle : ((cells (fun s => (ks s).val) a.len).map (swapRank a i j)).Pairwise (· ≤ ·) := by
      rw [List.pairwise_map]
      exact hs.sorted.imp rankCmp_le.mp
    have hp := (hs.perm.map (swapRank a i j)).trans (hkeys ▸ map_swap_range hi hj)
    exact hp.eq_of_pairwise' hle List.pairwise_le_range
  have hat : swapRank a i j (ks j).val = j := by
    have h1 : ((cells (fun s => (ks s).val) a.len).map (swapRank a i j))[j]? = some j := by
      rw [hsorted, List.getElem?_range hj]
    rw [cells, List.map_map, List.getElem?_map, List.getElem?_range hj] at h1
    exact Option.some.inj h1
  have hmem : (ks j).val ∈ cells (fun s => (ks s).val) a.len :=
    List.mem_map.mpr ⟨j, List.mem_range.mpr hj, rfl⟩
  obtain ⟨m, hm, hkm⟩ := List.mem_map.mp (hs.perm.mem_iff.mp hmem)
  have hm := List.mem_range.mp hm
  have hkm : a.key m = (ks j).val := hkm
  rw [← hkm, hrank m hm] at hat
  have hmi : m = i := by
    rw [← Equiv.swap_apply_self i j m, hat, Equiv.swap_apply_right]
  refine ⟨_, _, _, hb, rfl, ?_⟩
  show (ks j).val = a.key i
  rw [← hkm, hmi]

/-- **Sorting a map** keeps its entries.  The lookups stay the same for a sort just if the index
leads to the new places of the entries; for all of them, just if every probe comes to every
slot. -/
theorem sort_entries (ha : Built a) :
    (∀ strtod qsort call b, Sorts qsort → SortsTo strtod qsort call a b →
      b.entries.Perm a.entries ∧ (Answering a b ↔ ∀ x, a.index = some x → Finds x b)) ∧
    ((∀ strtod qsort call b, Sorts qsort → SortsTo strtod qsort call a b → Answering a b) ↔
      ∀ x, a.index = some x → Crossed x a) := by
  have hsound := ha.filled.sound
  have hm := ha.filled.map
  have hk : 0 < a.len → a.keyed = true := fun h =>
    hsound.keyed hm (Nat.lt_of_lt_of_le h hsound.steady.len_le)
  have hd := distinct_of_sound hsound hm
  refine ⟨fun strtod qsort call b hs hb => ?_, fun hall x hx i j hi hj hn => ?_,
    fun hc strtod qsort call b hs hb => ?_⟩
  · have hsh := hb.shuffled hs hm hk
    exact ⟨hsh.entries, answering_iff hsound hm hsh⟩
  · obtain ⟨call, fn, b, hb, hlen, hkey⟩ := exists_uksort hd (hk (by omega)) hi hj
    have hto : SortsTo (fun _ => Double.ofInt64 0) mergeSort call a b := .uksort hb
    have hsh := hto.shuffled mergeSort_sorts hm hk
    have hl := (answering_iff hsound hm hsh).mp (hall _ _ _ b mergeSort_sorts hto) x hx
    rw [← hkey]
    apply hl j ⟨by omega, by rwa [hkey]⟩
    rw [hkey]
    exact hd.hashed i hi
  · have hsh := hb.shuffled hs hm hk
    apply (answering_iff hsound hm hsh).mpr
    intro x hx j hj _
    obtain ⟨hj, hn⟩ := hj
    have hmem : (b.key j, b.vals j) ∈ b.entries :=
      List.mem_map.mpr ⟨j, List.mem_range.mpr hj, rfl⟩
    obtain ⟨i, hi, he⟩ := List.mem_map.mp (hsh.entries.mem_iff.mp hmem)
    have hkey : a.key i = b.key j := congrArg Prod.fst he
    rw [hsh.len] at hj
    rw [← hkey] at hn ⊢
    exact hc x hx i j (List.mem_range.mp hi) hj hn

end

/-! ## twelve entries -/

/-- the keys `1, …, 10, 12, 11` -/
def twelve : List (Val × Val) :=
  [1, 2, 3, 4, 5, 6, 7, 8, 9, 10, 12, 11].map fun n => (.int n, .int n)

theorem built_twelve {a : Harr} (h : hpMapOf blank twelve = some a) : Built a :=
  built_mapOf (by decide) h

theorem sort_entries_twelve : ∃ a, hpMapOf blank twelve = some a ∧ ∀ call b,
    SortsTo (fun _ => Double.ofInt64 0) mergeSort call a b → b.entries.Perm a.entries := by
  have hsome : (hpMapOf blank twelve).isSome = true := by decide +kernel
  obtain ⟨a, ha⟩ := Option.isSome_iff_exists.mp hsome
  refine ⟨a, ha, fun call b hb => ?_⟩
  exact ((sort_entries (built_twelve ha)).1 _ _ call b mergeSort_sorts hb).1

/-- `uksort` swaps the last two entries, and the index does not find the key 12 -/
theorem sort_loses : ¬ ∀ a, Built a → ∀ strtod qsort call b, Sorts qsort →
    SortsTo strtod qsort call a b → Answering a b := by
  intro h
  have hcase : ∃ a, hpMapOf blank twelve = some a ∧ ∃ b,
      hpbiUksort (differ 100) a (.clo none) = .done b ∧
      hpArrHas a (.int 12) = some true ∧ hpArrHas b (.int 12) = some false := by
    have hany : (hpMapOf blank twelve).any (fun a =>
        match hpbiUksort (differ 100) a (.clo none) with
        | .done b => decide (hpArrHas a (.int 12) = some true ∧ hpArrHas b (.int 12) = some false)
        | _ => false) = true := by decide +kernel
    cases ha : hpMapOf blank twelve with
    | none =>
      rw [ha] at hany
      cases hany
    | some a =>
      rw [ha, Option.any_some] at hany
      refine ⟨a, rfl, ?_⟩
      cases hb : hpbiUksort (differ 100) a (.clo none) with
      | done b =>
        rw [hb] at hany
        exact ⟨b, rfl, of_decide_eq_true hany⟩
      | thrown b i j tv =>
        rw [hb] at hany
        cases hany
  obtain ⟨a, ha, b, hb, hold, hnew⟩ := hcase
  have hans := h a (built_twelve ha) (fun _ => Double.ofInt64 0) mergeSort (differ 100) b
    mergeSort_sorts (.uksort hb) (.int 12)
  rw [hold, hnew] at hans
  cases hans.2

end Std
end HolyPhp
