import Mathlib.Data.Nat.Bitwise
import HolyPhp.Runtime.Arr

/-!
# Probing over the hash index ends

* `Index.Loaded x`       the table has a power of two slots, and the slots in use and the inserts
                         that are left until the next rebuild are together fewer than its slots;
* `Index.Covers key P x` each key `key i` with `P i` has the entry of `i` on its path;
* `Index.Live n x`       entries are those of slots below `n`;
* `hashed key n`         the number of int and string keys among `key 0, .., key (n - 1)`.

One lemma for each function of the index (`put_spec`, `fill_spec`, `rebuild_spec`, `add_spec`,
`del_spec`, `find_spec`) says that it returns and what it keeps.  A table that is built with less
than half of its slots in use stays loaded until the next one is built: `probing_ends`.
-/

set_option linter.unusedVariables false

namespace HolyPhp
namespace Arr
open Function Runs Probe

/-! ## the loop over the slots -/

theorem nextSlot_pow (k : Nat) : nextSlot (2 ^ k) = cyc (2 ^ k) := by
  funext s
  exact Nat.and_two_pow_sub_one_eq_mod ..

theorem probe_pow (k : Nat) (stop : Nat → Bool) (h : Nat) :
    probe (2 ^ k) stop h = search (cyc (2 ^ k)) stop (2 ^ k) (h % 2 ^ k) := by
  unfold probe
  rw [nextSlot_pow, Nat.and_two_pow_sub_one_eq_mod]

/-- what `none` stands for: no round of the loop stops -/
theorem probe_none {k : Nat} {stop : Nat → Bool} {h : Nat} (hp : probe (2 ^ k) stop h = none)
    (m : Nat) : stop ((nextSlot (2 ^ k))^[m] (h &&& (2 ^ k - 1))) = false := by
  have hlt : h % 2 ^ k < 2 ^ k := Nat.mod_lt _ (Nat.two_pow_pos k)
  rw [probe_pow] at hp
  rw [nextSlot_pow, Nat.and_two_pow_sub_one_eq_mod]
  have hm : ∀ m, (cyc (2 ^ k))^[m] (h % 2 ^ k) = slot (2 ^ k) (h % 2 ^ k) m := by
    intro m
    induction m with
    | zero => exact (slot_zero hlt).symm
    | succ m ih =>
      rw [Function.iterate_succ_apply', ih, cyc, slot, slot, Nat.mod_add_mod, Nat.add_assoc]
  rw [hm]
  exact search_none hlt hp m

def hashed (key : Nat → Val) : Nat → Nat
  | 0 => 0
  | n + 1 => hashed key n + if hashable (key n) then 1 else 0

theorem hashed_le (key : Nat → Val) (n : Nat) : hashed key n ≤ n := by
  induction n with
  | zero => exact Nat.le_refl 0
  | succ n ih =>
    rw [hashed]
    split <;> omega

theorem hashed_mono {key key' : Nat → Val} {n : Nat}
    (h : ∀ i < n, hashable (key' i) = true → hashable (key i) = true) :
    hashed key' n ≤ hashed key n := by
  induction n with
  | zero => exact Nat.le_refl _
  | succ n ih =>
    have := ih fun i hi => h i (by omega)
    have hn := h n (Nat.lt_succ_self n)
    rw [hashed, hashed]
    split
    · rename_i hk
      rw [if_pos (hn hk)]
      omega
    · omega

namespace Index

structure Loaded (x : Index) : Prop where
  pow : ∃ k, 1 ≤ k ∧ k ≤ 31 ∧ x.icap = 2 ^ k
  load : used x.slots x.icap + x.ibudget < x.icap

/-- the entry of every `i` with `P i` and a hashed key is on the path of that key -/
def Covers (key : Nat → Val) (P : Nat → Prop) (x : Index) : Prop :=
  ∀ i, P i → hashable (key i) = true →
    ∃ s, Path x.slots x.icap (keyHash (key i) % x.icap) s ∧ x.slots s = i + 1

def Live (n : Nat) (x : Index) : Prop :=
  ∀ s < x.icap, x.slots s ≠ 0 → x.slots s ≠ tomb → x.slots s ≤ n

/-- slots below this have entries of their own, other than 0 and `tomb` -/
def maxLen : Nat := 2 ^ 32 - 2

theorem entry_eq {n : Nat} (hn : n < maxLen) : entry n = n + 1 := by
  unfold maxLen at hn
  exact Nat.mod_eq_of_lt (by omega)

theorem tomb_ne : tomb ≠ 0 := by decide

variable {x y : Index} {key : Nat → Val} {k : Val} {n len : Nat} {P : Nat → Prop}

theorem Loaded.pos (h : x.Loaded) : 0 < x.icap := Nat.lt_of_le_of_lt (Nat.zero_le _) h.load

theorem Loaded.exists_empty (h : x.Loaded) : ∃ s < x.icap, x.slots s = 0 :=
  Probe.exists_empty (Nat.lt_of_le_of_lt (Nat.le_add_right _ _) h.load)

/-- a loop that may stop at empty slots ends -/
theorem probe_spec {e : Nat} (hW : x.icap = 2 ^ e) (hempty : ∃ s < x.icap, x.slots s = 0)
    (stop : Nat → Bool) (hstop : ∀ s, x.slots s = 0 → stop s = true) (h : Nat) :
    ∃ r, probe x.icap stop h = some r ∧
      search (cyc x.icap) stop x.icap (h % x.icap) = some r ∧ stop r = true ∧
      Path x.slots x.icap (h % x.icap) r := by
  obtain ⟨s, hs, hz⟩ := hempty
  have hlt : h % x.icap < x.icap := Nat.mod_lt _ (by omega)
  obtain ⟨r, hr⟩ := search_isSome hlt hs (hstop s hz)
  refine ⟨r, ?_, hr, (search_some hlt hr).1, path_of_search hlt hr hstop⟩
  rw [← hr, hW, probe_pow]

/-! ## `put` -/

/-- an entry goes into a free slot on the path of its key -/
theorem put_spec {e : Nat} (hW : x.icap = 2 ^ e) (hempty : used x.slots x.icap < x.icap) (k : Val)
    (n : Nat) : ∃ r, x.put k n = some (x.store r (entry n)) ∧
      (x.slots r = 0 ∨ x.slots r = tomb) ∧ Path x.slots x.icap (keyHash k % x.icap) r := by
  obtain ⟨r, hr, -, hstop, hpath⟩ := probe_spec hW (Probe.exists_empty hempty)
    (fun s => x.slots s == 0 || x.slots s == tomb) (fun s hs => by simp [hs]) (keyHash k)
  refine ⟨r, ?_, by simpa using hstop, hpath⟩
  unfold put
  rw [hr]
  rfl

theorem Covers.put {r e : Nat} (h : Covers key P x) (hr : x.slots r = 0 ∨ x.slots r = tomb)
    (hP : ∀ i, P i → i < maxLen) (he : e ≠ 0) :
    Covers key P (x.store r e) := by
  intro i hi hk
  obtain ⟨s, hs, hsi⟩ := h i hi hk
  refine ⟨s, hs.update he, ?_⟩
  have hne : s ≠ r := by
    intro he
    subst he
    have := hP i hi
    unfold maxLen at this
    unfold tomb at hr
    omega
  show update x.slots r e s = _
  rw [update_of_ne hne, hsi]

theorem covers_put_self {r : Nat} (hn : n < maxLen)
    (hp : Path x.slots x.icap (keyHash (key n) % x.icap) r) :
    Covers key (· = n) (x.store r (entry n)) := by
  rintro i rfl -
  rw [entry_eq hn]
  exact ⟨r, hp.update (Nat.succ_ne_zero i), update_self ..⟩

theorem Covers.or {Q : Nat → Prop} (h : Covers key P x) (h' : Covers key Q x) :
    Covers key (fun i => P i ∨ Q i) x :=
  fun i hi hk => hi.elim (h i · hk) (h' i · hk)

theorem Covers.mono {Q : Nat → Prop} (h : Covers key P x) (hPQ : ∀ i, Q i → P i) :
    Covers key Q x :=
  fun i hi hk => h i (hPQ i hi) hk

theorem Covers.congr {key' : Nat → Val} (h : Covers key P x) (hk : ∀ i, P i → key' i = key i) :
    Covers key' P x := by
  intro i hi hki
  rw [hk i hi] at hki ⊢
  exact h i hi hki

theorem Live.mono (h : Live n x) (hn : n ≤ len) : Live len x :=
  fun s hs h0 ht => (h s hs h0 ht).trans hn

theorem Live.put {r e : Nat} (h : Live len x) (he : e ≤ len) :
    Live len (x.store r e) := by
  intro s hs h0 ht
  have h0' : update x.slots r e s ≠ 0 := h0
  have ht' : update x.slots r e s ≠ tomb := ht
  show update x.slots r e s ≤ len
  by_cases hr : s = r
  · rwa [hr, update_self]
  · rw [update_of_ne hr] at h0' ht' ⊢
    exact h s hs h0' ht'

/-! ## building a table -/

/-- `n` rounds of the loop of `hp_arr_index_rebuild` -/
theorem fill_spec {e : Nat} (hW : x.icap = 2 ^ e) (hx : x.slots = fun _ => 0)
    (hn : hashed key n < x.icap) : ∃ y, fill key x n = some y ∧ y.icap = x.icap ∧
      y.ibudget = x.ibudget ∧ used y.slots y.icap ≤ hashed key n ∧
      (n ≤ maxLen → Covers key (· < n) y ∧ Live n y) := by
  induction n with
  | zero =>
    have hused : used x.slots x.icap ≤ 0 := by rw [hx, used_empty]
    refine ⟨x, rfl, rfl, rfl, hused, fun _ => ⟨fun i hi => ?_, fun s _ h0 => ?_⟩⟩
    · exact absurd hi (Nat.not_lt_zero i)
    · exact absurd (congrFun hx s) h0
  | succ n ih =>
    rw [hashed] at hn
    obtain ⟨y, hy, hcap, hbud, hused, hcov⟩ := ih (by omega)
    by_cases hk : hashable (key n)
    · rw [if_pos hk] at hn
      obtain ⟨r, hput, hfree, hpath⟩ := put_spec (hcap.trans hW) (by omega) (key n) n
      refine ⟨y.store r (entry n), ?_, hcap, hbud, ?_, fun hle => ?_⟩
      · rw [fill, hy, Option.bind_some, if_pos hk]
        exact hput
      · rw [hashed, if_pos hk]
        exact (used_update_le ..).trans (Nat.succ_le_succ hused)
      · have hlt : n < maxLen := hle
        obtain ⟨hc, hl⟩ := hcov hlt.le
        have he : entry n ≠ 0 := by rw [entry_eq hlt]; exact Nat.succ_ne_zero n
        refine ⟨?_, ?_⟩
        · refine ((hc.put hfree (fun i hi => hi.trans hlt) he).or
            (covers_put_self hlt hpath)).mono fun i hi => ?_
          exact Nat.lt_succ_iff_lt_or_eq.mp hi
        · exact (hl.mono (Nat.le_succ n)).put (by rw [entry_eq hlt])
    · refine ⟨y, ?_, hcap, hbud, by rw [hashed, if_neg hk]; exact hused, fun hle => ?_⟩
      · rw [fill, hy, Option.bind_some, if_neg hk]
      · obtain ⟨hc, hl⟩ := hcov (Nat.le_of_succ_le hle)
        refine ⟨fun i hi hki => ?_, hl.mono (Nat.le_succ n)⟩
        rcases Nat.lt_succ_iff_lt_or_eq.mp hi with hlt | rfl
        · exact hc i hlt hki
        · exact absurd hki hk

/-- a table with less than half of its slots in use -/
theorem rebuild_spec {e : Nat} (h1 : 1 ≤ e) (h31 : e ≤ 31) (hn : 2 * hashed key len < 2 ^ e) :
    ∃ y, rebuild key len (2 ^ e) = some y ∧ y.Loaded ∧ 0 < y.ibudget ∧
      (len ≤ maxLen → Covers key (· < len) y ∧ Live len y) := by
  obtain ⟨y, hy, hcap, hbud, hused, hcov⟩ := fill_spec (x := ⟨fun _ => 0, 2 ^ e, 2 ^ e / 2⟩)
    rfl rfl (show hashed key len < 2 ^ e by omega)
  have hhalf : 2 ^ e = 2 * 2 ^ (e - 1) := by
    rw [← Nat.pow_succ', Nat.succ_eq_add_one, Nat.sub_add_cancel h1]
  have hpos := Nat.two_pow_pos (e - 1)
  have hb : y.ibudget = 2 ^ (e - 1) := by
    rw [hbud]
    show 2 ^ e / 2 = _
    omega
  refine ⟨y, hy, ⟨⟨e, h1, h31, hcap⟩, ?_⟩, by omega, hcov⟩
  have hc : y.icap = 2 ^ e := hcap
  omega

/-! ## `add`, `del`, `find` -/

theorem want_pow (h : x.Loaded) (hlen : 0 < x.want len) :
    ∃ e, 1 ≤ e ∧ e ≤ 31 ∧ x.want len = 2 ^ e := by
  obtain ⟨e, h1, h31, he⟩ := h.pow
  unfold want at hlen ⊢
  split
  · rename_i hle
    rw [if_pos hle] at hlen
    rcases Nat.lt_or_eq_of_le h31 with hlt | rfl
    · refine ⟨e + 1, by omega, hlt, ?_⟩
      have : 2 ^ (e + 1) < 2 ^ 32 := Nat.pow_lt_pow_right (by decide) (by omega)
      rw [he, ← Nat.pow_succ, Nat.mod_eq_of_lt this]
    · rw [he] at hlen
      exact absurd hlen (by decide)
  · exact ⟨e, h1, h31, he⟩

/-- the budget is used up: the table is built anew -/
theorem budget_spec (h : x.Loaded) (hb : x.ibudget = 0 → 2 * hashed key len < x.want len) :
    ∃ y, (if x.ibudget = 0 then rebuild key len (x.want len) else some x) = some y ∧ y.Loaded ∧
      0 < y.ibudget ∧ (len ≤ maxLen → Covers key P x → (∀ i, P i → i < len) → Live len x →
        Covers key P y ∧ Live len y) := by
  by_cases h0 : x.ibudget = 0
  · obtain ⟨e, h1, h31, he⟩ := want_pow h (Nat.lt_of_le_of_lt (Nat.zero_le _) (hb h0))
    obtain ⟨y, hy, hload, hbud, hcov⟩ := rebuild_spec h1 h31 (he ▸ hb h0)
    refine ⟨y, by rw [if_pos h0, he, hy], hload, hbud, fun hle _ hP _ => ?_⟩
    exact ⟨(hcov hle).1.mono hP, (hcov hle).2⟩
  · exact ⟨x, if_neg h0, h, Nat.pos_of_ne_zero h0, fun _ hc _ hl => ⟨hc, hl⟩⟩

/-- an entry is added, and every other key keeps its own -/
theorem insert_spec (h : x.Loaded) (hb : 0 < x.ibudget) (n : Nat) :
    ∃ y, x.insert key n = some y ∧ y.Loaded ∧ ∀ m P, m ≤ maxLen → n < m → (∀ i, P i → i < maxLen) →
      Covers key P x → Live m x → Covers key (fun i => P i ∨ i = n) y ∧ Live m y := by
  obtain ⟨e, h1, h31, he⟩ := h.pow
  have hlt := h.load
  obtain ⟨r, hput, hfree, hpath⟩ := put_spec he (Nat.lt_of_le_of_lt (Nat.le_add_right _ _) hlt)
    (key n) n
  have hdec : (x.ibudget + (2 ^ 32 - 1)) % 2 ^ 32 = x.ibudget - 1 := by
    have : 2 ^ e ≤ 2 ^ 31 := Nat.pow_le_pow_right (by decide) h31
    omega
  refine ⟨{ x.store r (entry n) with ibudget := x.ibudget - 1 }, ?_, ⟨⟨e, h1, h31, he⟩, ?_⟩,
    fun m P hm hn hP hc hl => ?_⟩
  · unfold insert
    rw [hput, Option.map_some]
    exact congrArg (fun b => some { x.store r (entry n) with ibudget := b }) hdec
  · have hup := used_update_le x.slots x.icap r (entry n)
    show used (update x.slots r (entry n)) x.icap + (x.ibudget - 1) < x.icap
    omega
  · have hn' : n < maxLen := Nat.lt_of_lt_of_le hn hm
    have hne : entry n ≠ 0 := by
      rw [entry_eq hn']
      exact Nat.succ_ne_zero n
    exact ⟨(hc.put hfree hP hne).or (covers_put_self hn' hpath),
      hl.put (by rw [entry_eq hn']; exact hn)⟩

theorem add_spec (h : x.Loaded) (hb : x.ibudget = 0 → 2 * hashed key len < x.want len) (n : Nat) :
    ∃ y, x.add key len n = some y ∧ y.Loaded ∧
      (len ≤ maxLen → n < len → Covers key (fun i => i < len ∧ i ≠ n) x → Live len x →
        Covers key (· < len) y ∧ Live len y) := by
  obtain ⟨y, hy, hload, hbud, hcov⟩ := budget_spec (P := fun i => i < len ∧ i ≠ n) h hb
  obtain ⟨z, hz, hload', hcov'⟩ := @insert_spec y key hload hbud n
  refine ⟨z, by rw [add, hy, Option.bind_some, hz], hload', fun hle hn hc hl => ?_⟩
  obtain ⟨hc', hl'⟩ := hcov hle hc (fun i hi => hi.1) hl
  obtain ⟨hc'', hl''⟩ := hcov' len _ hle hn (fun i hi => Nat.lt_of_lt_of_le hi.1 hle) hc' hl'
  refine ⟨hc''.mono fun i hi => ?_, hl''⟩
  by_cases e : i = n
  · exact .inr e
  · exact .inl ⟨hi, e⟩

/-- a tombstone takes the place of the entry of `n`, if the path meets one -/
theorem del_spec (h : x.Loaded) (k : Val) (n : Nat) : ∃ y, x.del k n = some y ∧ y.Loaded ∧
    y.ibudget = x.ibudget ∧ y.icap = x.icap ∧
    (y = x ∧ (∀ s, Path x.slots x.icap (keyHash k % x.icap) s → x.slots s = entry n →
        entry n = 0) ∨
      ∃ r, y = x.store r tomb ∧ x.slots r = entry n ∧ x.slots r ≠ 0 ∧ r < x.icap) := by
  obtain ⟨e, h1, h31, he⟩ := h.pow
  obtain ⟨r, hr, hsearch, hstop, hpath⟩ := probe_spec he h.exists_empty
    (fun s => x.slots s == 0 || x.slots s == entry n) (fun s hs => by simp [hs]) (keyHash k)
  have hlt : keyHash k % x.icap < x.icap := Nat.mod_lt _ h.pos
  by_cases h0 : x.slots r = 0
  · refine ⟨x, by rw [del, hr, Option.map_some, if_pos h0], h, rfl, rfl, .inl ⟨rfl, ?_⟩⟩
    intro s hs hse
    by_contra hne
    exact search_hit hlt hsearch hs (by simp [hse]) (by rw [hse]; exact hne) h0
  · refine ⟨x.store r tomb, by rw [del, hr, Option.map_some, if_neg h0], ⟨⟨e, h1, h31, he⟩, ?_⟩,
      rfl, rfl, .inr ⟨r, rfl, ?_, h0, hpath.lt⟩⟩
    · have hup := used_update_of_ne (W := x.icap) (e := tomb) h0
      have := h.load
      show used (update x.slots r tomb) x.icap + x.ibudget < x.icap
      omega
    · simpa [h0] using hstop

/-- a lookup ends at an entry with the key, if one is on its path -/
theorem find_spec (hl : x.Loaded) (key : Nat → Val) (h : Nat) (k : Val) :
    ∃ o, x.find key h k = some o ∧
      (∀ i, o = some i → hpKeyEq (key i) k = true ∧
        ∃ s < x.icap, x.slots s ≠ 0 ∧ x.slots s ≠ tomb ∧ x.slots s = i + 1) ∧
      (∀ s, Path x.slots x.icap (h % x.icap) s → x.slots s ≠ 0 → x.slots s ≠ tomb →
        hpKeyEq (key (x.slots s - 1)) k = true → o ≠ none) := by
  obtain ⟨e, h1, h31, he⟩ := hl.pow
  obtain ⟨r, hr, hsearch, hstop, hpath⟩ := probe_spec he hl.exists_empty
    (fun s => x.slots s == 0 || (x.slots s != tomb && hpKeyEq (key (x.slots s - 1)) k))
    (fun s hs => by simp [hs]) h
  have hlt : h % x.icap < x.icap := Nat.mod_lt _ hl.pos
  refine ⟨if x.slots r = 0 then none else some (x.slots r - 1), ?_, fun i hi => ?_, ?_⟩
  · rw [find, hr, Option.map_some]
  · split at hi
    · cases hi
    · rename_i h0
      obtain rfl := Option.some.inj hi
      have hstop' : x.slots r ≠ tomb ∧ hpKeyEq (key (x.slots r - 1)) k = true := by
        simpa [h0] using hstop
      exact ⟨hstop'.2, r, hpath.lt, h0, hstop'.1, by omega⟩
  · intro s hs h0 ht hk
    have := search_hit hlt hsearch hs (by simp [ht, hk]) h0
    rw [if_neg this]
    simp

end Index

/-! ## arrays -/

inductive Op where
  | set (k v : Val)
  | push (v : Val)
  | unshift (v : Val)
  | unset (k : Val)
  | pop
  | shift
  | clone (junk : Nat → Val) (dup : Addr → Addr)

def step (a : Harr) : Op → Option Harr
  | .set k v => hpArrSet a k v
  | .push v => some (hpArrPush a v)
  | .unshift v => some (hpArrUnshift a v)
  | .unset k => hpArrUnset a k
  | .pop => some (hpArrPop a).1
  | .shift => some (hpArrShift a).1
  | .clone junk dup => some (hpArrClone junk dup a)

/-- one array, from `hp_arr_new` or from `hp_map_of` before its first `hp_arr_set` -/
def arrays : Sys Harr Op := ⟨fun a => ∃ junk, a = hpArrNew junk ∨ a = emptyMap junk, step⟩

/-- `hp_map_of` is a run -/
theorem mapOf_run (junk : Nat → Val) (kvs : List (Val × Val)) :
    hpMapOf junk kvs = arrays.run (emptyMap junk) (kvs.map fun kv => .set kv.1 kv.2) := by
  unfold hpMapOf
  generalize emptyMap junk = a
  induction kvs generalizing a with
  | nil => rfl
  | cons kv kvs ih =>
    rw [List.foldlM_cons, List.map_cons]
    exact congrArg _ (funext fun b => ih b)

/-- with `len` elements, `hp_arr_index_add` builds a table of `W` slots -/
def Harr.Builds (a : Harr) (len W : Nat) : Prop :=
  match a.index with
  | none => 12 ≤ len ∧ W = 32
  | some x => x.ibudget = 0 ∧ W = x.want len

/-- a table that the step builds is more than twice as large as the number of its keys, and no
unset finds the key of a removed element in the index of an empty array -/
def Roomy (a : Harr) : Op → Prop
  | .set k _ => hashable k = true → (a.isMap || a.converts k) = true →
      hpKeyIndex a k = some none → ∀ W, a.Builds (a.len + 1) W → 2 * (hashed a.key a.len + 1) < W
  | .unset k => ∀ i, hpKeyIndex a k = some (some i) → 0 < a.len ∧
      (i + 1 ≠ a.len → ∀ x, a.index = some x → x.ibudget = 0 →
        2 * hashed a.key a.len < x.want a.len)
  | _ => True

section
variable {a b : Harr} {k v : Val} {n i : Nat} {o : Option Index}

/-- the index of an array covers its keys with `P` -/
def Harr.Covered (a : Harr) (P : Nat → Prop) : Prop :=
  ∀ x, a.index = some x → Index.Covers a.key P x ∧ Index.Live a.len x

def Harr.Loaded (a : Harr) : Prop := ∀ x, a.index = some x → x.Loaded

theorem builds_none {len W : Nat} (hx : a.index = none) :
    a.Builds len W ↔ 12 ≤ len ∧ W = 32 := by
  rw [Harr.Builds, hx]

theorem builds_some {len W : Nat} {x : Index} (hx : a.index = some x) :
    a.Builds len W ↔ x.ibudget = 0 ∧ W = x.want len := by
  rw [Harr.Builds, hx]

theorem indexAdd_spec (hl : a.Loaded)
    (hb : hashable (a.key n) = true → ∀ W, a.Builds a.len W → 2 * hashed a.key a.len < W) :
    ∃ o, hpArrIndexAdd a n = some { a with index := o } ∧ { a with index := o }.Loaded ∧
      (a.len ≤ Index.maxLen → n < a.len → a.Covered (fun i => i < a.len ∧ i ≠ n) →
        { a with index := o }.Covered (· < a.len)) := by
  unfold hpArrIndexAdd
  by_cases hk : hashable (a.key n) = true
  · rw [hk]
    cases hx : a.index with
    | none =>
      by_cases hlen : a.len < 12
      · exact ⟨none, by simp [hlen, ← hx], by simp [Harr.Loaded],
          fun _ _ _ x hx' => by cases hx'⟩
      · obtain ⟨y, hy, hload, hbud, hcov⟩ := Index.rebuild_spec (e := 5) (by decide) (by decide)
          (hb hk 32 ((builds_none hx).mpr ⟨Nat.le_of_not_lt hlen, rfl⟩))
        obtain ⟨z, hz, hload', hcov'⟩ := Index.add_spec hload
          (fun h0 => absurd h0 (Nat.pos_iff_ne_zero.mp hbud)) n
        refine ⟨some z, ?_, ?_, fun hle hn _ => ?_⟩
        · simp only [Bool.not_true, Bool.false_eq_true, if_false, if_neg hlen]
          rw [show Index.rebuild a.key a.len 32 = some y from hy, Option.bind_some, hz]
          rfl
        · exact fun x hx' => Option.some.inj hx' ▸ hload'
        · obtain ⟨hc, hlive⟩ := hcov hle
          exact fun x hx' => Option.some.inj hx' ▸ hcov' hle hn (hc.mono fun i hi => hi.1) hlive
    | some x =>
      obtain ⟨z, hz, hload, hcov⟩ := Index.add_spec (hl x hx)
        (fun h0 => hb hk _ ((builds_some hx).mpr ⟨h0, rfl⟩)) n
      refine ⟨some z, ?_, ?_, fun hle hn hc => ?_⟩
      · simp only [Bool.not_true, Bool.false_eq_true, if_false]
        rw [hz]
        rfl
      · exact fun x hx' => Option.some.inj hx' ▸ hload
      · exact fun x' hx' => Option.some.inj hx' ▸ hcov hle hn (hc x hx).1 (hc x hx).2
  · refine ⟨a.index, by simp [hk], hl, fun _ _ hc x hx => ⟨fun i hi hki => ?_, (hc x hx).2⟩⟩
    exact (hc x hx).1 i ⟨hi, fun e => hk (e ▸ hki)⟩ hki

theorem indexDel_spec (hl : a.Loaded) (n : Nat) :
    ∃ o, hpArrIndexDel a n = some { a with index := o } ∧ { a with index := o }.Loaded ∧
      (∀ y, o = some y → ∃ x, a.index = some x ∧ y.ibudget = x.ibudget ∧ y.icap = x.icap) := by
  unfold hpArrIndexDel
  cases hx : a.index with
  | none => exact ⟨none, by simp [← hx], by simp [Harr.Loaded], by simp⟩
  | some x =>
    by_cases hk : hashable (a.key n) = true
    · obtain ⟨y, hy, hload, hbud, hcap, -⟩ := Index.del_spec (hl x hx) (a.key n) n
      refine ⟨some y, by simp [hk, hy, Harr.withIndex], ?_, fun z hz => ?_⟩
      · exact fun z hz => Option.some.inj hz ▸ hload
      · exact ⟨x, rfl, Option.some.inj hz ▸ ⟨hbud, hcap⟩⟩
    · exact ⟨some x, by simp [hk, ← hx], fun z hz => hl z (hx.trans hz), fun z hz =>
        ⟨x, rfl, Option.some.inj hz ▸ ⟨rfl, rfl⟩⟩⟩

/-! ## what every run keeps -/

structure Steady (a : Harr) : Prop where
  loaded : a.Loaded
  list : a.isMap = false → a.index = none
  len_le : a.len ≤ a.cap

namespace Steady

/-- a lookup returns, and in a map what it finds has the key -/
theorem keyIndex (h : Steady a) (k : Val) : ∃ o, hpKeyIndex a k = some o ∧
    ∀ i, o = some i → a.isMap = true → hpKeyEq (a.key i) k = true := by
  have hscan : ∀ i, a.scan k = some i → a.isMap = true → hpKeyEq (a.key i) k = true := by
    intro i hi _
    have := List.find?_some hi
    exact this
  unfold hpKeyIndex
  cases hm : a.isMap with
  | false =>
    simp only [Bool.false_eq_true, if_false]
    cases k with
    | str s => exact ⟨none, rfl, fun i hi => by cases hi⟩
    | null | int j | float f | bool c | arr p | obj p | clo p =>
      exact ⟨_, (apply_ite some ..).symm, fun i _ hf => absurd hf (by simp)⟩
  | true =>
    simp only [if_true]
    rw [hm] at hscan
    split
    · rename_i x j hx
      obtain ⟨o, ho, hkey, -⟩ := Index.find_spec (h.loaded x hx) a.key (hpHashInt j) (.int j)
      exact ⟨o, ho, fun i hi _ => (hkey i hi).1⟩
    · rename_i x t hx
      obtain ⟨o, ho, hkey, -⟩ := Index.find_spec (h.loaded x hx) a.key (hpStrHash (some t))
        (.str (some t))
      exact ⟨o, ho, fun i hi _ => (hkey i hi).1⟩
    · exact ⟨_, rfl, fun i hi _ => hscan i hi rfl⟩

theorem hashable_of_eq {j k : Val} (h : hpKeyEq j k = true) :
    hashable j = true ∧ hashable k = true := by
  cases j <;> cases k <;> simp_all [hpKeyEq, hashable]

/-- an operation that leaves the index alone -/
theorem of_index (h : Steady a) (hi : b.index = a.index) (hm : b.isMap = false → a.isMap = false)
    (hc : b.len ≤ b.cap) : Steady b :=
  ⟨fun x hx => h.loaded x (hi ▸ hx), fun hb => hi.trans (h.list (hm hb)), hc⟩

theorem push (h : Steady a) (v : Val) : Steady (hpArrPush a v) := by
  obtain ⟨ha, hm, -⟩ := push_spec a v
  exact h.of_index ha.index (fun hb => hm ▸ hb) (by rw [ha.len]; exact ha.cap)

theorem unshift (h : Steady a) (v : Val) : Steady (hpArrUnshift a v) := by
  obtain ⟨hlen, hm, hi, hcap, -⟩ := unshift_spec h.len_le v
  exact h.of_index hi (fun hb => hm ▸ hb) (by rw [hlen]; exact hcap)

theorem pop (h : Steady a) : Steady (hpArrPop a).1 := by
  have := h.len_le
  unfold hpArrPop
  split
  · exact h
  · exact h.of_index rfl id (by dsimp only; omega)

theorem shift (h : Steady a) : Steady (hpArrShift a).1 := by
  have := h.len_le
  unfold hpArrShift
  split
  · exact h
  · exact h.of_index rfl id (by dsimp only; omega)

theorem clone (junk : Nat → Val) (dup : Addr → Addr) (a : Harr) :
    Steady (hpArrClone junk dup a) := by
  obtain ⟨hg, hcap⟩ :=
    grow_spec { hpArrNew junk with isMap := a.isMap, nextIndex := a.nextIndex } a.len
  have hi : (hpArrClone junk dup a).index = none := hg.index
  refine ⟨fun x hx => ?_, fun _ => hi, hcap⟩
  rw [hi] at hx
  cases hx

theorem hashed_append (h : Steady a) (k v : Val) (hm : (a.append k v).isMap = true) :
    hashed (a.append k v).key (a.len + 1) ≤ hashed a.key a.len + 1 := by
  obtain ⟨ha, -⟩ := append_spec a k v
  have hold : hashed (a.append k v).key a.len ≤ hashed a.key a.len := by
    apply hashed_mono
    intro i hi hk
    rwa [Harr.key, ha.keys_of_lt h.len_le hi] at hk
  rw [hashed]
  split <;> omega

theorem set (h : Steady a) (hr : Roomy a (.set k v)) :
    ∃ b, hpArrSet a k v = some b ∧ Steady b := by
  unfold hpArrSet
  by_cases hk : k = .null
  · exact ⟨_, if_pos hk, h.push v⟩
  · rw [if_neg hk]
    obtain ⟨o, ho, -⟩ := h.keyIndex k
    rw [ho, Option.bind_some]
    cases o with
    | some i => exact ⟨_, rfl, h.of_index rfl id h.len_le⟩
    | none =>
      obtain ⟨ha, hm, -⟩ := append_spec a k v
      have hcap : (a.append k v).len ≤ (a.append k v).cap := by rw [ha.len]; exact ha.cap
      have hlist : (a.append k v).isMap = false → a.isMap = false := fun hb =>
        (Bool.or_eq_false_iff.mp (hm ▸ hb)).1
      have hst := h.of_index ha.index hlist hcap
      have hbump : ∀ c : Harr, Steady c → Steady (bumpNext c k) := by
        intro c hc
        obtain ⟨n, e⟩ := bumpNext_eq c k
        rw [e]
        exact hc.of_index rfl id hc.len_le
      dsimp only
      cases hmap : (a.append k v).isMap with
      | false => exact ⟨_, rfl, hbump _ hst⟩
      | true =>
        have hkey : (a.append k v).key a.len = k := by rw [Harr.key, ha.last hmap]
        obtain ⟨o', ho', hload, -⟩ := indexAdd_spec (n := a.len) hst.loaded fun hh W hW => by
          rw [hkey] at hh
          rw [ha.len] at hW ⊢
          have hW' : a.Builds (a.len + 1) W := by
            unfold Harr.Builds at hW ⊢
            rwa [ha.index] at hW
          have := hr hh (hm.symm.trans hmap) ho W hW'
          have := h.hashed_append k v hmap
          omega
        rw [if_pos rfl, ho', Option.map_some]
        refine ⟨_, rfl, hbump _ ⟨hload, fun hb => ?_, hst.len_le⟩⟩
        rw [show (a.append k v).isMap = false from hb] at hmap
        cases hmap

theorem takeKey (h : Steady a) (hi : hashable (a.key i) = true ∨ a.isMap = false) (last : Nat) :
    ∃ c, a.takeKey i last = some c ∧ Steady c ∧ c.isMap = a.isMap ∧ c.len = a.len ∧
      hashed c.key a.len ≤ hashed a.key a.len ∧
      ∀ y, c.index = some y → ∃ x, a.index = some x ∧ y.ibudget = x.ibudget ∧ y.icap = x.icap := by
  unfold Harr.takeKey
  by_cases hm : (a.isMap && a.keyed) = true
  · obtain ⟨o, ho, hload, hx⟩ := indexDel_spec h.loaded i
    obtain ⟨o', ho', hload', hx'⟩ := indexDel_spec hload last
    have hmap : a.isMap = true := (Bool.and_eq_true_iff.mp hm).1
    refine ⟨Harr.moveKey { a with index := o' } i last, ?_, ⟨hload', fun hb => ?_, h.len_le⟩, rfl,
      rfl, ?_, fun y hy => ?_⟩
    · rw [if_pos hm, ho, Option.bind_some, ho', Option.map_some]
    · rw [show a.isMap = false from hb] at hmap
      cases hmap
    · apply hashed_mono
      intro j _ hj
      by_cases e : j = i
      · rw [e]
        exact hi.resolve_right fun hf => by rw [hmap] at hf; cases hf
      · rwa [show (Harr.moveKey { a with index := o' } i last).key j = a.key j from
          congrArg Key.val (update_of_ne e ..)] at hj
    · obtain ⟨x, hx1, hb1, hc1⟩ := hx' y hy
      obtain ⟨w, hx2, hb2, hc2⟩ := hx x hx1
      exact ⟨w, hx2, hb1.trans hb2, hc1.trans hc2⟩
  · exact ⟨a, if_neg hm, h, rfl, rfl, Nat.le_refl _, fun y hy => ⟨y, hy, rfl, rfl⟩⟩

theorem fillHole (h : Steady a) (hi : hashable (a.key i) = true ∨ a.isMap = false)
    (hb : ∀ x, a.index = some x → x.ibudget = 0 → 2 * hashed a.key a.len < x.want a.len)
    (last : Nat) : ∃ b, a.fillHole i last = some b ∧ Steady b := by
  obtain ⟨c, hc, hst, hm, hlen, hcount, hx⟩ := h.takeKey hi last
  have hmv : Steady (c.moveVal i last) := hst.of_index rfl id hst.len_le
  unfold Harr.fillHole
  rw [hc, Option.bind_some]
  by_cases hadd : ((c.moveVal i last).isMap && (c.moveVal i last).index.isSome) = true
  · obtain ⟨hmap, hsome⟩ := Bool.and_eq_true_iff.mp hadd
    obtain ⟨y, hy⟩ := Option.isSome_iff_exists.mp hsome
    obtain ⟨o, ho, hload, -⟩ := indexAdd_spec (n := i) hmv.loaded fun _ W hW => by
      obtain ⟨hbud, rfl⟩ := (builds_some hy).mp hW
      obtain ⟨x, hx1, hb1, hc1⟩ := hx y hy
      have hlt := hb x hx1 (hb1 ▸ hbud)
      have hl : (c.moveVal i last).len = a.len := hlen
      rw [hl, show y.want a.len = x.want a.len by rw [Index.want, Index.want, hc1]]
      have : hashed (c.moveVal i last).key a.len ≤ hashed a.key a.len := hcount
      omega
    refine ⟨_, (if_pos hadd).trans ho, hload, fun hf => ?_, hst.len_le⟩
    rw [show (c.moveVal i last).isMap = false from hf] at hmap
    cases hmap
  · exact ⟨_, if_neg hadd, hmv⟩

theorem unset (h : Steady a) (hr : Roomy a (.unset k)) :
    ∃ b, hpArrUnset a k = some b ∧ Steady b := by
  obtain ⟨o, ho, hkey⟩ := h.keyIndex k
  have hlen := h.len_le
  have hshort : ∀ c : Harr, Steady c → c.len = a.len → Steady { c with len := a.len - 1 } :=
    fun c hc hl => hc.of_index rfl id (by have := hc.len_le; dsimp only; omega)
  unfold hpArrUnset
  rw [ho, Option.bind_some]
  cases o with
  | none => exact ⟨a, rfl, h⟩
  | some i =>
    obtain ⟨hpos, hbud⟩ := hr i ho
    have hi : hashable (a.key i) = true ∨ a.isMap = false := by
      cases hm : a.isMap with
      | false => exact .inr rfl
      | true => exact .inl (hashable_of_eq (hkey i rfl hm)).1
    dsimp only
    rw [if_neg (by omega)]
    by_cases hlast : i ≠ a.len - 1
    · obtain ⟨b, hb, hst⟩ := h.fillHole hi (hbud (by omega)) (a.len - 1)
      obtain ⟨ks, o, -, e⟩ := fillHole_eq hb
      rw [if_pos hlast, hb, Option.map_some]
      exact ⟨_, rfl, hshort b hst (by rw [e])⟩
    · rw [if_neg hlast]
      by_cases hm : a.isMap = true
      · obtain ⟨o, hdel, hload, -⟩ := indexDel_spec h.loaded i
        rw [if_pos hm, hdel, Option.map_some]
        refine ⟨_, rfl, hshort _ ⟨hload, fun hf => ?_, h.len_le⟩ rfl⟩
        rw [show a.isMap = false from hf] at hm
        cases hm
      · rw [if_neg hm]
        exact ⟨_, rfl, hshort a h rfl⟩

theorem step (h : Steady a) {op : Op} (hr : Roomy a op) :
    ∃ b, Arr.step a op = some b ∧ Steady b := by
  cases op with
  | set k v => exact h.set hr
  | push v => exact ⟨_, rfl, h.push v⟩
  | unshift v => exact ⟨_, rfl, h.unshift v⟩
  | unset k => exact h.unset hr
  | pop => exact ⟨_, rfl, h.pop⟩
  | shift => exact ⟨_, rfl, h.shift⟩
  | clone junk dup => exact ⟨_, rfl, clone junk dup a⟩

theorem reach (ha : arrays.ReachIf Roomy a) : Steady a := by
  refine ha.inv ?_ fun a op b h hr hn => ?_
  · rintro a ⟨junk, rfl | rfl⟩
    · exact ⟨by simp [Harr.Loaded, hpArrNew], fun _ => rfl, Nat.le_refl 0⟩
    · exact ⟨by simp [Harr.Loaded, emptyMap, hpArrNew], fun _ => rfl, Nat.le_refl 0⟩
  · obtain ⟨c, hc, hst⟩ := h.step hr
    rw [show c = b from Option.some.inj (hc.symm.trans hn)] at hst
    exact hst

end Steady

end

end Arr
end HolyPhp
