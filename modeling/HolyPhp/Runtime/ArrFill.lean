import HolyPhp.Lib.Assoc
import HolyPhp.Runtime.ArrScan

/-!
# Maps that are only ever set

`Filled a` is the invariant of a map that `hp_arr_set` alone has filled: its table of `2^e` slots
was built at `2^(e-1) - 4` keys and takes `2^(e-1) - 1` more.  So every key finds its slot as long
as there are fewer than `2^31 - 4` of them; for that key the size of the table wraps to 0.
-/

set_option linter.unusedVariables false

namespace HolyPhp
namespace Arr
open Function Index Assoc

/-! ## entries -/

/-- the keys and values, in order -/
def Harr.entries (a : Harr) : List (Val × Val) := (List.range a.len).map fun i => (a.key i, a.vals i)

section
variable {a b : Harr} {k v : Val} {i n : Nat} {x y : Index} {key : Nat → Val}

theorem length_entries (a : Harr) : a.entries.length = a.len := by
  simp [Harr.entries]

theorem getElem_entries (hi : i < a.entries.length) :
    a.entries[i] = (a.key i, a.vals i) := by
  simp [Harr.entries]

/-- a new element behind the others -/
theorem entries_append (hlen : b.len = a.len + 1) (hkey : b.key a.len = k) (hval : b.vals a.len = v)
    (hold : ∀ i < a.len, b.key i = a.key i ∧ b.vals i = a.vals i) :
    b.entries = a.entries ++ [(k, v)] := by
  unfold Harr.entries
  rw [hlen, List.range_succ, List.map_append, List.map_singleton, hkey, hval]
  congr 1
  apply List.map_congr_left
  intro i hi
  obtain ⟨h1, h2⟩ := hold i (List.mem_range.mp hi)
  rw [h1, h2]

theorem entries_update (hi : i < a.len) :
    ({ a with vals := update a.vals i v } : Harr).entries = a.entries.set i (a.key i, v) := by
  apply List.ext_getElem
  · rw [List.length_set, length_entries, length_entries]
  · intro j h1 h2
    rw [List.getElem_set, getElem_entries]
    show (a.key j, update a.vals i v j) = _
    by_cases e : j = i
    · rw [if_pos e.symm, e, update_self]
    · rw [if_neg fun h => e h.symm, getElem_entries, update_of_ne e]

/-! ## the table -/

theorem Index.put_eq (h : x.put k n = some y) : y.icap = x.icap ∧ y.ibudget = x.ibudget := by
  obtain ⟨s, -, rfl⟩ := Option.map_eq_some_iff.mp h
  exact ⟨rfl, rfl⟩

theorem Index.fill_eq (h : Index.fill key x n = some y) :
    y.icap = x.icap ∧ y.ibudget = x.ibudget := by
  induction n generalizing y with
  | zero => exact Option.some.inj h ▸ ⟨rfl, rfl⟩
  | succ n ih =>
    obtain ⟨z, hz, hy⟩ := Option.bind_eq_some_iff.mp h
    obtain ⟨h1, h2⟩ := ih hz
    split at hy
    · obtain ⟨h3, h4⟩ := put_eq hy
      exact ⟨h3.trans h1, h4.trans h2⟩
    · exact Option.some.inj hy ▸ ⟨h1, h2⟩

theorem Index.insert_eq (h : x.insert key n = some y) :
    y.icap = x.icap ∧ y.ibudget = (x.ibudget + (2 ^ 32 - 1)) % 2 ^ 32 := by
  obtain ⟨z, hz, rfl⟩ := Option.map_eq_some_iff.mp h
  obtain ⟨h1, h2⟩ := put_eq hz
  exact ⟨h1, congrArg (fun b => (b + (2 ^ 32 - 1)) % 2 ^ 32) h2⟩

theorem Index.add_eq {len : Nat} (h : x.add key len n = some y) :
    (x.ibudget = 0 → y.icap = x.want len ∧
      y.ibudget = (x.want len / 2 + (2 ^ 32 - 1)) % 2 ^ 32) ∧
    (x.ibudget ≠ 0 → y.icap = x.icap ∧ y.ibudget = (x.ibudget + (2 ^ 32 - 1)) % 2 ^ 32) := by
  obtain ⟨z, hz, hy⟩ := Option.bind_eq_some_iff.mp h
  obtain ⟨h1, h2⟩ := insert_eq hy
  constructor
  · intro h0
    rw [if_pos h0] at hz
    obtain ⟨h3, h4⟩ := fill_eq hz
    exact ⟨h1.trans h3, by rw [h2, h4]⟩
  · intro h0
    rw [if_neg h0] at hz
    obtain rfl := Option.some.inj hz
    exact ⟨h1, h2⟩

/-- the table of a map with `len` keys -/
def Table (x : Index) (len : Nat) : Prop :=
  ∃ e, 5 ≤ e ∧ e ≤ 31 ∧ x.icap = 2 ^ e ∧ x.ibudget + len + 5 = 2 ^ e ∧ 2 ^ e ≤ 2 * (len + 4)

/-- the first size of the table, and the sizes after it -/
theorem Table.of_size {e len : Nat} (h5 : 5 ≤ e) (h31 : e ≤ 31) (hcap : x.icap = 2 ^ e)
    (hbud : x.ibudget = (2 ^ e / 2 + (2 ^ 32 - 1)) % 2 ^ 32) (hlen : 2 * (len + 4) = 2 ^ e) :
    Table x len := by
  have hle : 2 ^ e ≤ 2 ^ 31 := Nat.pow_le_pow_right (by decide) h31
  have hge : 2 ^ 5 ≤ 2 ^ e := Nat.pow_le_pow_right (by decide) h5
  exact ⟨e, h5, h31, hcap, by omega, by omega⟩

/-- the size at which the next key finds no budget -/
theorem Table.want_eq {len e : Nat} (h0 : x.ibudget = 0) (h5 : 5 ≤ e) (hcap : x.icap = 2 ^ e)
    (hlen : x.ibudget + len + 5 = 2 ^ e) : x.want (len + 1) = 2 ^ (e + 1) % 2 ^ 32 := by
  have hge : 2 ^ 5 ≤ 2 ^ e := Nat.pow_le_pow_right (by decide) h5
  rw [want, if_pos (by omega), hcap, ← Nat.pow_succ]

structure Filled (a : Harr) : Prop where
  sound : Sound a
  map : a.isMap = true
  small : a.index = none → a.len < 12
  table : ∀ x, a.index = some x → Table x a.len

/-- the number of keys that a map cannot take -/
def full : Nat := 2 ^ 31 - 4

theorem emptyMap_filled (junk : Nat → Val) : Filled (emptyMap junk) where
  sound := .reach (.init ⟨junk, .inr rfl⟩)
  map := rfl
  small _ := Nat.succ_pos 11
  table x hx := by cases hx

theorem Filled.tidy (h : Filled a) (hmax : k ≠ .int Int64.maxValue)
    (hlen : a.scan k = none → a.len + 1 < full) : Tidy a (.set k v) := by
  intro hs
  have hlt := hlen (by rwa [Harr.slotOf, h.map, if_pos rfl] at hs)
  unfold full at hlt
  refine ⟨by unfold maxLen; omega, hmax, fun _ W hW => ?_, fun hm => ?_⟩
  · cases hx : a.index with
    | none =>
      obtain ⟨-, rfl⟩ := (builds_none hx).mp hW
      have := h.small hx
      omega
    | some x =>
      obtain ⟨h0, rfl⟩ := (builds_some hx).mp hW
      obtain ⟨e, h5, h31, hcap, hbud, -⟩ := h.table x hx
      have he : e < 31 := by
        by_contra hge
        have : e = 31 := by omega
        rw [this] at hbud
        omega
      have hpow : 2 ^ (e + 1) < 2 ^ 32 := Nat.pow_lt_pow_right (by decide) (by omega)
      rw [Table.want_eq h0 h5 hcap hbud, Nat.mod_eq_of_lt hpow, Nat.pow_succ]
      omega
  · rw [h.map] at hm
    cases hm

/-- the index after a new key -/
theorem Filled.table_append (h : Filled a) (hk : hashable k = true) (hlt : a.len + 1 < full)
    {o : Option Index}
    (hc : hpArrIndexAdd (a.append k v) a.len = some { a.append k v with index := o }) :
    (o = none → a.len + 1 < 12) ∧ ∀ x, o = some x → Table x (a.len + 1) := by
  obtain ⟨ha, hm, -⟩ := append_spec a k v
  have hmap : (a.append k v).isMap = true := by rw [hm, h.map]; rfl
  have hkey : (a.append k v).key a.len = k := congrArg Key.val (ha.last hmap)
  unfold hpArrIndexAdd at hc
  rw [hkey, hk] at hc
  simp only [Bool.not_true, Bool.false_eq_true, if_false] at hc
  rw [ha.index, ha.len] at hc
  cases hx : a.index with
  | none =>
    rw [hx] at hc
    dsimp only at hc
    by_cases h12 : a.len + 1 < 12
    · rw [if_pos h12] at hc
      have ho : o = none := by
        have := congrArg Harr.index (Option.some.inj hc)
        rw [← show ({ a.append k v with index := o } : Harr).index = o from rfl, ← this, ha.index, hx]
      exact ⟨fun _ => h12, fun x hx' => by rw [ho] at hx'; cases hx'⟩
    · rw [if_neg h12] at hc
      obtain ⟨y, hy, hc⟩ := Option.bind_eq_some_iff.mp hc
      obtain ⟨z, hz, hc⟩ := Option.map_eq_some_iff.mp hc
      have ho : o = some z := (congrArg Harr.index hc).symm
      obtain ⟨h1, h2⟩ := fill_eq hy
      obtain ⟨-, hne⟩ := add_eq hz
      have h2' : y.ibudget = 16 := h2
      obtain ⟨h3, h4⟩ := hne (by rw [h2']; decide)
      have := h.small hx
      refine ⟨fun h => (by rw [ho] at h; cases h), fun x hx' => ?_⟩
      obtain rfl := Option.some.inj (ho.symm.trans hx')
      exact .of_size (e := 5) (by decide) (by decide) (h3.trans h1) (by rw [h4, h2']; rfl) (by omega)
  | some x =>
    rw [hx] at hc
    obtain ⟨z, hz, hc⟩ := Option.map_eq_some_iff.mp hc
    have ho : o = some z := (congrArg Harr.index hc).symm
    obtain ⟨hzero, hne⟩ := add_eq hz
    obtain ⟨e, h5, h31, hcap, hbud, hhalf⟩ := h.table x hx
    refine ⟨fun h => (by rw [ho] at h; cases h), fun x' hx' => ?_⟩
    obtain rfl := Option.some.inj (ho.symm.trans hx')
    unfold full at hlt
    have hle : 2 ^ e ≤ 2 ^ 31 := Nat.pow_le_pow_right (by decide) h31
    by_cases h0 : x.ibudget = 0
    · have he : e < 31 := by
        by_contra hge
        have : e = 31 := by omega
        rw [this] at hbud
        omega
      have hpow : 2 ^ (e + 1) < 2 ^ 32 := Nat.pow_lt_pow_right (by decide) (by omega)
      obtain ⟨h3, h4⟩ := hzero h0
      rw [Table.want_eq h0 h5 hcap hbud, Nat.mod_eq_of_lt hpow] at h3 h4
      refine .of_size (e := e + 1) (by omega) he h3 h4 ?_
      rw [Nat.pow_succ]
      omega
    · obtain ⟨h3, h4⟩ := hne h0
      exact ⟨e, h5, h31, h3.trans hcap, by omega, by omega⟩

/-- **A write**: the entries are those of the abstract write. -/
theorem Filled.set (h : Filled a) (hk : hashable k = true) (hmax : k ≠ .int Int64.maxValue)
    (hlen : a.scan k = none → a.len + 1 < full) :
    ∃ b, hpArrSet a k v = some b ∧ Filled b ∧ b.entries = assign a.entries k v := by
  have ht := h.tidy (v := v) hmax hlen
  obtain ⟨b, hb, hst⟩ := h.sound.steady.set (h.sound.roomy_set ht)
  have hsound := h.sound.set hk ht hb
  have hidx := keyIndex_eq_scan h.sound h.map k
  refine ⟨b, hb, ?_⟩
  rcases set_cases hb with ⟨rfl, -⟩ | ⟨i, -, hi, rfl⟩ | ⟨-, hnone, c, hc, rfl⟩
  · cases hk
  · obtain ⟨hlt, hki⟩ := scan_some (Option.some.inj (hidx.symm.trans hi))
    refine ⟨⟨hsound, h.map, h.small, h.table⟩, ?_⟩
    have hlt' : i < a.entries.length := by rw [length_entries]; exact hlt
    rw [entries_update hlt, hki, assign_old hlt' (by rw [getElem_entries]; exact hki)]
    intro j hj he
    rw [List.get_eq_getElem, getElem_entries] at he
    have := (h.sound.keys h.map).distinct j i (by omega) hlt (he.trans hki.symm)
    omega
  · have hs : a.scan k = none := Option.some.inj (hidx.symm.trans hnone)
    obtain ⟨ha, hm, -⟩ := append_spec a k v
    have hmap : (a.append k v).isMap = true := by rw [hm, h.map]; rfl
    rw [if_pos hmap] at hc
    obtain ⟨o, rfl⟩ := indexAdd_eq hc
    obtain ⟨n, hn⟩ := bumpNext_eq { a.append k v with index := o } k
    obtain ⟨hsmall, htable⟩ := h.table_append hk (hlen hs) hc
    have hlen' : (bumpNext { a.append k v with index := o } k).len = a.len + 1 := by
      rw [hn]
      exact ha.len
    refine ⟨⟨hsound, by rw [hn]; exact hmap, ?_, ?_⟩, ?_⟩
    · intro hx
      rw [hlen']
      rw [hn] at hx
      exact hsmall hx
    · intro x hx
      rw [hlen']
      rw [hn] at hx
      exact htable x hx
    · have hne : ∀ p ∈ a.entries, p.1 ≠ k := by
        intro p hp he
        obtain ⟨i, hi, rfl⟩ := List.mem_map.mp hp
        exact List.find?_eq_none.mp hs i hi (keyEq_iff.mpr ⟨he, hk⟩)
      rw [assign_new hne, hn]
      refine entries_append ha.len (congrArg Key.val (ha.last hmap)) ?_ fun i hi => ⟨?_, ?_⟩
      · show (a.append k v).vals a.len = v
        rw [ha.vals, update_self]
      · exact congrArg Key.val (ha.keys_of_lt h.sound.steady.len_le hi)
      · show (a.append k v).vals i = a.vals i
        rw [ha.vals, update_of_ne (Nat.ne_of_lt hi)]

/-- the size of the table wraps to 0 for this key, and no slot is found -/
theorem Filled.set_full (h : Filled a) (hk : hashable k = true) (hs : a.scan k = none)
    (hlen : a.len + 1 = full) : hpArrSet a k v = none := by
  obtain ⟨ha, hm, -⟩ := append_spec a k v
  have hmap : (a.append k v).isMap = true := by rw [hm, h.map]; rfl
  have hkey : (a.append k v).key a.len = k := congrArg Key.val (ha.last hmap)
  have hkeys := h.sound.keys h.map
  have hne : k ≠ .null := by
    rintro rfl
    cases hk
  cases hx : a.index with
  | none =>
    have := h.small hx
    unfold full at hlen
    omega
  | some x =>
    obtain ⟨e, h5, h31, hcap, hbud, hhalf⟩ := h.table x hx
    have he : e = 31 := by
      unfold full at hlen
      by_contra hne
      have : 2 ^ e ≤ 2 ^ 30 := Nat.pow_le_pow_right (by decide) (by omega)
      omega
    have h0 : x.ibudget = 0 := by
      rw [he] at hbud
      unfold full at hlen
      omega
    have hwant : x.want (a.len + 1) = 0 := by
      rw [Table.want_eq h0 h5 hcap hbud, he]
      rfl
    have hzero : ∀ n, 0 < n → n ≤ a.len →
        Index.fill (a.append k v).key ⟨fun _ => 0, 0, 0⟩ n = none := by
      intro n
      induction n with
      | zero => exact fun h => absurd h (Nat.lt_irrefl 0)
      | succ n ih =>
        intro _ hn
        rw [Index.fill]
        cases n with
        | zero =>
          have hk0 : (a.append k v).key 0 = a.key 0 :=
            congrArg Key.val (ha.keys_of_lt h.sound.steady.len_le hn)
          rw [Index.fill, Option.bind_some, hk0, if_pos (hkeys.hashed 0 hn)]
          rfl
        | succ n => rw [ih (Nat.succ_pos n) (by omega), Option.bind_none]
    have hreb : Index.rebuild (a.append k v).key (a.len + 1) 0 = none := by
      show Index.fill _ ⟨fun _ => 0, 0, 0⟩ (a.len + 1) = none
      rw [Index.fill, hzero a.len (by unfold full at hlen; omega) (Nat.le_refl _)]
      rfl
    unfold hpArrSet
    rw [if_neg hne, keyIndex_eq_scan h.sound h.map k, hs, Option.bind_some]
    show (if (a.append k v).isMap then hpArrIndexAdd (a.append k v) a.len else _).map _ = none
    rw [if_pos hmap, hpArrIndexAdd, hkey, hk]
    simp only [Bool.not_true, Bool.false_eq_true, if_false]
    rw [ha.index, hx, ha.len]
    show ((Index.add x (a.append k v).key (a.len + 1) a.len).map _).map _ = none
    rw [Index.add, if_pos h0, hwant, hreb]
    rfl

end

end Arr
end HolyPhp
