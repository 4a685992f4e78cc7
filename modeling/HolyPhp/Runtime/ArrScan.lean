import HolyPhp.Runtime.ArrIndex

/-!
# The hash index agrees with the linear scan

* `KeysOk a`   the keys of a map: all hashed, no key twice, int keys below `next_index`;
* `Sound a`    `KeysOk`, and every key has its entry in the index (`Harr.Covered`);
* `Agrees a`   what a lookup has to say: the value of the slot that holds the key, or nothing;
* `Tidy a op`  the steps that keep the index in order.

`agrees_of_sound`: in a sound map a lookup is a scan.  One lemma for each operation says that it
keeps `Sound`, on the condition of `Tidy`.
-/

set_option linter.unusedVariables false

namespace HolyPhp
namespace Arr
open Function Runs Probe Index

/-! ## the index loses an entry -/

namespace Index
variable {x : Index} {key : Nat → Val} {P : Nat → Prop} {last : Nat}

/-- the entry of the last slot stands in one place only -/
def Once (x : Index) (len : Nat) : Prop :=
  ∀ s s', s < x.icap → s' < x.icap → x.slots s = len → x.slots s' = len → s = s'

theorem del_covered (hl : x.Loaded) (hc : Covers key P x) (hP : ∀ i, P i → i < maxLen) (hn : P n)
    (hk : hashable (key n) = true) : ∃ r, x.del (key n) n = some (x.store r tomb) ∧
      (x.store r tomb).Loaded ∧ r < x.icap ∧ x.slots r = n + 1 ∧
      Covers key (fun i => P i ∧ i ≠ n) (x.store r tomb) := by
  have he := entry_eq (hP n hn)
  obtain ⟨y, hy, hload, -, -, ⟨rfl, hno⟩ | ⟨r, rfl, hr, -, hlt⟩⟩ := del_spec hl (key n) n
  · obtain ⟨s, hpath, hs⟩ := hc n hn hk
    have := hno s hpath (hs.trans he.symm)
    omega
  · refine ⟨r, hy, hload, hlt, hr.trans he, fun i hi hki => ?_⟩
    obtain ⟨hi, hne⟩ := hi
    obtain ⟨s, hpath, hs⟩ := hc i hi hki
    refine ⟨s, hpath.update tomb_ne, ?_⟩
    have hsr : s ≠ r := by
      intro he
      subst he
      omega
    exact (update_of_ne hsr ..).trans hs

theorem store_tomb {r s m : Nat} (hm : m ≠ tomb) (h : (x.store r tomb).slots s = m) :
    x.slots s = m := by
  by_cases e : s = r
  · rw [e] at h
    exact absurd ((update_self ..).symm.trans h).symm hm
  · exact (update_of_ne e ..).symm.trans h

theorem Live.forget {r n : Nat} (h : Live n x) : Live n (x.store r tomb) := by
  intro s hs h0 ht
  have e := store_tomb ht rfl
  rw [← e] at h0 ht ⊢
  exact h s hs h0 ht

/-- without its only entry the last slot is gone -/
theorem Live.shrink {r : Nat} (h : Live (last + 1) x) (ho : x.Once (last + 1)) (hr : r < x.icap)
    (hx : x.slots r = last + 1) : Live last (x.store r tomb) := by
  intro s hs h0 ht
  have hle := h.forget s hs h0 ht
  by_contra hgt
  have hs' : (x.store r tomb).slots s = last + 1 := by omega
  rw [← hs'] at hx
  have e : s = r := ho s r hs hr ((store_tomb ht rfl).trans hs') (hx.trans hs')
  exact ht (e ▸ update_self ..)

/-- the last key takes the slot `i` -/
theorem swap_spec {i : Nat} (hl : x.Loaded) (hb : x.ibudget ≠ 0) (hc : Covers key (· < last + 1) x)
    (hlive : Live (last + 1) x) (ho : x.Once (last + 1)) (hlen : last < maxLen) (hi : i < last)
    (hki : hashable (key i) = true) (hkl : hashable (key last) = true) :
    ∃ y z w, x.del (key i) i = some y ∧ y.del (key last) last = some z ∧ z.ibudget ≠ 0 ∧
      z.insert (update key i (key last)) i = some w ∧
      Covers (update key i (key last)) (· < last) w ∧ Live last w := by
  obtain ⟨r, hy, hloady, hr, hxr, hcy⟩ := del_covered (P := (· < last + 1)) hl hc
    (fun j hj => by omega) (Nat.lt_succ_of_lt hi) hki
  have hty : last + 1 ≠ tomb := by
    unfold maxLen at hlen
    unfold tomb
    omega
  have hoy : (x.store r tomb).Once (last + 1) := fun s s' hs hs' e e' =>
    ho s s' hs hs' (store_tomb hty e) (store_tomb hty e')
  obtain ⟨t, hz, hloadz, ht, hyt, hcz⟩ := del_covered (n := last) hloady hcy
    (fun j hj => by omega) ⟨Nat.lt_succ_self last, by omega⟩ hkl
  have hlz := hlive.forget.shrink hoy ht hyt
  obtain ⟨w, hw, -, hcw⟩ := @insert_spec _ (update key i (key last)) hloadz
    (Nat.pos_of_ne_zero hb) i
  obtain ⟨hcw, hlw⟩ := hcw last (fun j => j < last ∧ j ≠ i) hlen.le hi (fun j hj => by omega)
    ((hcz.mono fun j hj => ⟨⟨by omega, hj.2⟩, by omega⟩).congr fun j hj => update_of_ne hj.2 ..) hlz
  refine ⟨_, _, w, hy, hz, hb, hw, hcw.mono fun j hj => ?_, hlw⟩
  by_cases e : j = i
  · exact .inr e
  · exact .inl ⟨hj, e⟩

end Index

/-! ## sound maps -/

structure KeysOk (a : Harr) : Prop where
  hashed : ∀ i < a.len, hashable (a.key i) = true
  distinct : ∀ i j, i < a.len → j < a.len → a.key i = a.key j → i = j
  below : ∀ i < a.len, ∀ n, a.key i = .int n → n < a.nextIndex

structure Sound (a : Harr) : Prop where
  steady : Steady a
  covered : a.Covered (· < a.len)
  small : a.len ≤ maxLen
  keyed : a.isMap = true → 0 < a.cap → a.keyed = true
  keys : a.isMap = true → KeysOk a

/-- a lookup in a map says what a scan of `keys[0..len)` says -/
def Agrees (a : Harr) : Prop := a.isMap = true → ∀ k, hashable k = true →
  (∀ i < a.len, hpKeyEq (a.key i) k = true →
    hpArrHas a k = some true ∧ hpArrGet a k = some (a.vals i)) ∧
  ((∀ i < a.len, hpKeyEq (a.key i) k = false) →
    hpArrHas a k = some false ∧ hpArrGet a k = some .null)

/-- keys are ints and strings -/
def KeyOp : Op → Prop
  | .set k _ => hashable k = true
  | .unset k => hashable k = true
  | _ => True

/-- the slot of a key, without the index -/
def Harr.slotOf (a : Harr) (k : Val) : Option Nat :=
  if a.isMap then a.scan k else (hpKeyIndex a k).getD none

/-- a pushed element is not in the index, and takes a new key -/
def Pushable (a : Harr) : Prop :=
  a.index = none ∧ a.len < maxLen ∧ (a.isMap = true → a.nextIndex ≠ Int64.maxValue)

/-- the steps that keep the index in order -/
def Tidy (a : Harr) : Op → Prop
  | .push _ | .unshift _ => Pushable a
  | .pop | .shift => a.index = none ∨ a.len = 0
  | .set k _ => a.slotOf k = none → a.len < maxLen ∧ k ≠ .int Int64.maxValue ∧
      (a.isMap = true → ∀ W, a.Builds (a.len + 1) W → 2 * (a.len + 1) < W) ∧
      (a.isMap = false → a.converts k = true → a.len = 0)
  | .unset k => ∀ i, a.slotOf k = some i → ∀ x, a.index = some x →
      (i + 1 ≠ a.len → x.ibudget ≠ 0) ∧ x.Once a.len
  | .clone _ _ => True

section
variable {a b : Harr} {k v : Val} {i n : Nat}

/-! ## lookup -/

theorem keyEq_iff {j k : Val} : hpKeyEq j k = true ↔ j = k ∧ hashable k = true := by
  cases j <;> cases k <;> simp [hpKeyEq, hashable]

theorem hashStr_some (s : Bytes) : hpStrHash (some s) = hpHashStr (some s) := by
  have hne : hpStrHash (some s) ≠ 0 := by
    unfold hpStrHash
    dsimp only
    split
    · exact Nat.one_ne_zero
    · rename_i h
      exact fun h0 => h (UInt32.toNat_inj.mp h0)
  rw [hpHashStr, if_neg hne]

theorem scan_of_eq (h : KeysOk a) (hi : i < a.len) (hk : hpKeyEq (a.key i) k = true) :
    a.scan k = some i := by
  cases hs : a.scan k with
  | none =>
    have := List.find?_eq_none.mp hs i (List.mem_range.mpr hi)
    exact absurd hk this
  | some j =>
    have hj : hpKeyEq (a.key j) k = true := by
      have := List.find?_some hs
      exact this
    have hlt := List.mem_range.mp (List.mem_of_find?_eq_some hs)
    rw [h.distinct j i hlt hi ((keyEq_iff.mp hj).1.trans (keyEq_iff.mp hk).1.symm)]

theorem scan_some (hs : a.scan k = some i) : i < a.len ∧ a.key i = k := by
  have hk : hpKeyEq (a.key i) k = true := by
    have := List.find?_some hs
    exact this
  exact ⟨List.mem_range.mp (List.mem_of_find?_eq_some hs), (keyEq_iff.mp hk).1⟩

/-- a probe along the path of a key finds its slot -/
theorem find_eq_scan (h : Sound a) (hm : a.isMap = true) {x : Index} (hx : a.index = some x)
    {hash : Nat} (hhash : hash = keyHash k) (hk : hashable k = true) :
    x.find a.key hash k = some (a.scan k) := by
  obtain ⟨hc, hl⟩ := h.covered x hx
  obtain ⟨o, ho, hfound, hmiss⟩ := find_spec (h.steady.loaded x hx) a.key hash k
  rw [ho]
  cases o with
  | some i =>
    obtain ⟨hki, s, hs, h0, ht, hsi⟩ := hfound i rfl
    have hlt : i < a.len := by
      have := hl s hs h0 ht
      omega
    rw [scan_of_eq (h.keys hm) hlt hki]
  | none =>
    cases hs : a.scan k with
    | none => rfl
    | some i =>
      obtain ⟨hlt, hki⟩ := scan_some hs
      obtain ⟨s, hpath, hsi⟩ := hc i hlt (hki ▸ hk)
      refine absurd rfl (hmiss s ?_ ?_ ?_ ?_)
      · rw [hhash, ← hki]
        exact hpath
      · rw [hsi]
        exact Nat.succ_ne_zero i
      · have := h.small
        unfold maxLen at this
        rw [hsi]
        unfold tomb
        omega
      · rw [hsi, Nat.add_sub_cancel]
        exact keyEq_iff.mpr ⟨hki, hk⟩

/-- **In a sound map a lookup is a scan.** -/
theorem keyIndex_eq_scan (h : Sound a) (hm : a.isMap = true) (k : Val) :
    hpKeyIndex a k = some (a.scan k) := by
  unfold hpKeyIndex
  rw [hm, if_pos rfl]
  split
  · rename_i x j hx
    exact find_eq_scan h hm hx rfl rfl
  · rename_i x s hx
    exact find_eq_scan h hm hx (hashStr_some s) rfl
  · rfl

theorem keyIndex_eq_slotOf (h : Sound a) (k : Val) : hpKeyIndex a k = some (a.slotOf k) := by
  unfold Harr.slotOf
  cases hm : a.isMap with
  | true => exact keyIndex_eq_scan h hm k
  | false =>
    obtain ⟨o, ho, -⟩ := h.steady.keyIndex k
    rw [ho]
    rfl

theorem KeysOk.congr (h : KeysOk a) (hl : b.len = a.len) (hk : ∀ i < a.len, b.key i = a.key i)
    (hn : b.nextIndex = a.nextIndex) : KeysOk b := by
  refine ⟨fun i hi => ?_, fun i j hi hj he => ?_, fun i hi n he => ?_⟩
  · rw [hl] at hi
    rw [hk i hi]
    exact h.hashed i hi
  · rw [hl] at hi hj
    rw [hk i hi, hk j hj] at he
    exact h.distinct i j hi hj he
  · rw [hl] at hi
    rw [hk i hi] at he
    rw [hn]
    exact h.below i hi n he

/-- each slot has the key of some slot of before, none twice -/
theorem KeysOk.of_injective (h : KeysOk a) (f : Nat → Nat) (hf : ∀ i < b.len, f i < a.len)
    (hinj : ∀ i j, i < b.len → j < b.len → f i = f j → i = j)
    (hk : ∀ i < b.len, b.key i = a.key (f i)) (hn : b.nextIndex = a.nextIndex) : KeysOk b := by
  refine ⟨fun i hi => ?_, fun i j hi hj he => ?_, fun i hi n he => ?_⟩
  · rw [hk i hi]
    exact h.hashed _ (hf i hi)
  · rw [hk i hi, hk j hj] at he
    exact hinj i j hi hj (h.distinct _ _ (hf i hi) (hf j hj) he)
  · rw [hk i hi] at he
    rw [hn]
    exact h.below _ (hf i hi) n he

/-- without its last element -/
theorem KeysOk.init (h : KeysOk a) (hl : b.len = a.len - 1) (hk : b.key = a.key)
    (hn : b.nextIndex = a.nextIndex) : KeysOk b :=
  h.of_injective id (fun i hi => Nat.lt_of_lt_of_le hi (by omega)) (fun i j _ _ he => he)
    (fun i _ => congrFun hk i) hn

/-- a key that is not there, in slot `p`; the others move to the slots `f i` -/
theorem KeysOk.extend (h : KeysOk a) (p : Nat) (f : Nat → Nat) (hl : b.len = a.len + 1)
    (hp : b.key p = k) (hk : hashable k = true) (hnew : ∀ i < a.len, a.key i ≠ k)
    (hf : ∀ i < b.len, i ≠ p → f i < a.len ∧ b.key i = a.key (f i))
    (hinj : ∀ i j, i < b.len → j < b.len → i ≠ p → j ≠ p → f i = f j → i = j)
    (hn : a.nextIndex ≤ b.nextIndex) (hbelow : ∀ n, k = .int n → n < b.nextIndex) : KeysOk b := by
  refine ⟨fun i hi => ?_, fun i j hi hj he => ?_, fun i hi n he => ?_⟩
  · by_cases e : i = p
    · rw [e, hp]
      exact hk
    · rw [(hf i hi e).2]
      exact h.hashed _ (hf i hi e).1
  · by_cases ei : i = p
    · by_cases ej : j = p
      · rw [ei, ej]
      · rw [ei, hp, (hf j hj ej).2] at he
        exact absurd he.symm (hnew _ (hf j hj ej).1)
    · by_cases ej : j = p
      · rw [ej, hp, (hf i hi ei).2] at he
        exact absurd he (hnew _ (hf i hi ei).1)
      · rw [(hf i hi ei).2, (hf j hj ej).2] at he
        exact hinj i j hi hj ei ej (h.distinct _ _ (hf i hi ei).1 (hf j hj ej).1 he)
  · by_cases e : i = p
    · rw [e, hp] at he
      exact hbelow n he
    · rw [(hf i hi e).2] at he
      exact Int64.lt_of_lt_of_le (h.below _ (hf i hi e).1 n he) hn

theorem KeysOk.of_empty (h : a.len = 0) : KeysOk a := by
  refine ⟨fun i hi => ?_, fun i j hi => ?_, fun i hi => ?_⟩ <;> exact absurd hi (by omega)

theorem bumpNext_spec (a : Harr) (hk : k ≠ .int Int64.maxValue) :
    a.nextIndex ≤ (bumpNext a k).nextIndex ∧ ∀ n, k = .int n → n < (bumpNext a k).nextIndex := by
  unfold bumpNext
  cases k with
  | int n =>
    have hn : n < n + 1 := lt_succ_of_ne_max (fun e => hk (congrArg _ e)) (Int64.le_refl n)
    dsimp only
    split
    · rename_i hle
      exact ⟨Int64.le_of_lt (Int64.lt_of_le_of_lt hle hn), fun m hm => by cases hm; exact hn⟩
    · rename_i hgt
      exact ⟨Int64.le_refl _, fun m hm => by cases hm; exact Int64.not_le.mp hgt⟩
  | null | str s | float f | bool c | arr p | obj p | clo p =>
    exact ⟨Int64.le_refl _, fun n hn => by cases hn⟩

/-! ## the operations -/

theorem Sound.of_noIndex (hst : Steady b) (hi : b.index = none) (hlen : b.len ≤ maxLen)
    (hkeyed : b.isMap = true → 0 < b.cap → b.keyed = true) (hkeys : b.isMap = true → KeysOk b) :
    Sound b := by
  refine ⟨hst, fun x hx => ?_, hlen, hkeyed, hkeys⟩
  rw [hi] at hx
  cases hx

namespace Sound

theorem push (h : Sound a) (hp : Pushable a) (v : Val) : Sound (hpArrPush a v) := by
  obtain ⟨ha, hm, hn⟩ := push_spec a v
  obtain ⟨hi, hlen, hmax⟩ := hp
  refine .of_noIndex (h.steady.push v) (ha.index.trans hi) (by rw [ha.len]; exact hlen)
    (fun hb _ => ha.keyed hb (h.keyed (hm ▸ hb))) fun hb => ?_
  have hmap : a.isMap = true := hm ▸ hb
  have hk := h.keys hmap
  have hlt : a.nextIndex < (hpArrPush a v).nextIndex := by
    rw [hn]
    exact lt_succ_of_ne_max (hmax hmap) (Int64.le_refl _)
  refine hk.extend a.len id ha.len (congrArg Key.val (ha.last hb)) rfl (fun i hi he => ?_)
    (fun i hi hne => ?_) (fun i j _ _ _ _ he => he) (Int64.le_of_lt hlt) fun n hn => ?_
  · exact Int64.lt_irrefl (hk.below i hi _ he)
  · have : i < a.len := by
      rw [ha.len] at hi
      omega
    exact ⟨this, congrArg Key.val (ha.keys_of_lt h.steady.len_le this)⟩
  · cases hn
    exact hlt

theorem unshift (h : Sound a) (hp : Pushable a) (v : Val) : Sound (hpArrUnshift a v) := by
  obtain ⟨hlen', hm, hidx, -, hn, hkeys, -, hkeyed⟩ := unshift_spec h.steady.len_le v
  obtain ⟨hi, hlen, hmax⟩ := hp
  refine .of_noIndex (h.steady.unshift v) (hidx.trans hi) (by rw [hlen']; exact hlen)
    (fun hb _ => hkeyed (hm ▸ hb) (h.keyed (hm ▸ hb))) fun hb => ?_
  have hmap : a.isMap = true := hm ▸ hb
  have hk := h.keys hmap
  obtain ⟨hfirst, hrest⟩ := hkeys hmap
  have hlt : a.nextIndex < (hpArrUnshift a v).nextIndex := by
    rw [hn, if_pos hmap]
    exact lt_succ_of_ne_max (hmax hmap) (Int64.le_refl _)
  refine hk.extend 0 (· - 1) hlen' (congrArg Key.val hfirst) rfl (fun i hi he => ?_)
    (fun i hi hne => ?_) (fun i j _ _ hi hj he => ?_) (Int64.le_of_lt hlt) fun n hn => ?_
  · exact Int64.lt_irrefl (hk.below i hi _ he)
  · obtain ⟨j, rfl⟩ := Nat.exists_eq_succ_of_ne_zero hne
    have : j < a.len := by
      rw [hlen'] at hi
      omega
    exact ⟨this, congrArg Key.val (hrest j this)⟩
  · omega
  · cases hn
    exact hlt

theorem pop (h : Sound a) (hp : a.index = none ∨ a.len = 0) : Sound (hpArrPop a).1 := by
  have hst := h.steady.pop
  unfold hpArrPop at hst ⊢
  split at hst
  · rename_i h0
    rw [if_pos h0]
    exact h
  · rename_i h0
    rw [if_neg h0]
    exact .of_noIndex hst (hp.resolve_right h0) ((Nat.sub_le ..).trans h.small) h.keyed
      fun hm => (h.keys hm).init rfl rfl rfl

theorem shift (h : Sound a) (hp : a.index = none ∨ a.len = 0) : Sound (hpArrShift a).1 := by
  have hst := h.steady.shift
  unfold hpArrShift at hst ⊢
  split at hst
  · rename_i h0
    rw [if_pos h0]
    exact h
  · rename_i h0
    rw [if_neg h0]
    refine .of_noIndex hst (hp.resolve_right h0) ((Nat.sub_le ..).trans h.small) h.keyed
      fun hm => ?_
    have hmap : a.isMap = true := hm
    refine (h.keys hmap).of_injective Nat.succ (fun i hi => ?_)
      (fun i j _ _ he => Nat.succ.inj he) (fun i hi => ?_) rfl
    · exact Nat.add_lt_of_lt_sub hi
    · simp only [Harr.key, hmap, if_true, moveDown, if_pos hi]

theorem covered_append (h : Sound a) (k v : Val) :
    (a.append k v).Covered fun i => i < (a.append k v).len ∧ i ≠ a.len := by
  obtain ⟨ha, -⟩ := append_spec a k v
  intro x hx
  obtain ⟨hc, hl⟩ := h.covered x (ha.index ▸ hx)
  have hlt : ∀ i, i < (a.append k v).len ∧ i ≠ a.len → i < a.len := by
    intro i hi
    rw [ha.len] at hi
    omega
  exact ⟨(hc.mono hlt).congr fun i hi =>
    congrArg Key.val (ha.keys_of_lt h.steady.len_le (hlt i hi)), hl.mono (by rw [ha.len]; omega)⟩

/-- a list that becomes a map is empty -/
theorem keys_before (h : Sound a) (hm : (a.isMap || a.converts k) = true)
    (hconv : a.isMap = false → a.converts k = true → a.len = 0) : KeysOk a := by
  cases hmap : a.isMap with
  | true => exact h.keys hmap
  | false =>
    rw [hmap, Bool.false_or] at hm
    exact .of_empty (hconv hmap hm)

theorem room (h : Sound a) (hm : (a.isMap || a.converts k) = true)
    (hroom : a.isMap = true → ∀ W, a.Builds (a.len + 1) W → 2 * (a.len + 1) < W)
    (hconv : a.isMap = false → a.converts k = true → a.len = 0) :
    ∀ W, a.Builds (a.len + 1) W → 2 * (a.len + 1) < W := by
  cases hmap : a.isMap with
  | true => exact hroom hmap
  | false =>
    rw [hmap, Bool.false_or] at hm
    intro W hW
    have := ((builds_none (h.steady.list hmap)).mp hW).1
    have := hconv hmap hm
    omega

theorem roomy_set (h : Sound a) (ht : Tidy a (.set k v)) : Roomy a (.set k v) := by
  intro _ hm hnone W hW
  obtain ⟨-, -, hroom, hconv⟩ := ht (Option.some.inj ((keyIndex_eq_slotOf h k).symm.trans hnone))
  have := h.room hm hroom hconv W hW
  have := hashed_le a.key a.len
  omega

theorem slotOf_none (hm : a.isMap = true) (hs : a.slotOf k = none) (hk : hashable k = true) :
    ∀ i < a.len, a.key i ≠ k := by
  intro i hi he
  unfold Harr.slotOf at hs
  rw [if_pos hm] at hs
  exact List.find?_eq_none.mp hs i (List.mem_range.mpr hi) (keyEq_iff.mpr ⟨he, hk⟩)

/-- the keys of a map with a new one behind the others -/
theorem keys_set_new (h : Sound a) (hk : hashable k = true) (hno : a.slotOf k = none)
    (hmap : (a.append k v).isMap = true)
    (hconv : a.isMap = false → a.converts k = true → a.len = 0) {n : Int64} {o : Option Index}
    (hle : a.nextIndex ≤ n) (hbelow : ∀ m, k = .int m → m < n) :
    KeysOk { a.append k v with index := o, nextIndex := n } := by
  obtain ⟨ha, hm, -⟩ := append_spec a k v
  have hor := hm.symm.trans hmap
  have hkey : (a.append k v).key a.len = k := congrArg Key.val (ha.last hmap)
  have hnew : ∀ i < a.len, a.key i ≠ k := by
    intro i hi
    cases hma : a.isMap with
    | true => exact slotOf_none hma hno hk i hi
    | false =>
      rw [hma, Bool.false_or] at hor
      have := hconv hma hor
      omega
  refine (h.keys_before hor hconv).extend a.len id ha.len hkey hk hnew
    (fun i hi hne => ?_) (fun i j _ _ _ _ he => he) hle hbelow
  have hi' : i < (a.append k v).len := hi
  rw [ha.len] at hi'
  have hlt : i < a.len := by omega
  exact ⟨hlt, congrArg Key.val (ha.keys_of_lt h.steady.len_le hlt)⟩

/-- a new key behind the others -/
theorem set_new (h : Sound a) (hk : hashable k = true) (ht : Tidy a (.set k v))
    (hnone : hpKeyIndex a k = some none) {c : Harr}
    (hc : (if (a.append k v).isMap then hpArrIndexAdd (a.append k v) a.len
      else some (a.append k v)) = some c) (hst : Steady (bumpNext c k)) : Sound (bumpNext c k) := by
  have hno : a.slotOf k = none := Option.some.inj ((keyIndex_eq_slotOf h k).symm.trans hnone)
  obtain ⟨hlen, hmax, hroom, hconv⟩ := ht hno
  obtain ⟨ha, hm, hn⟩ := append_spec a k v
  obtain ⟨hle, hbelow⟩ := bumpNext_spec c hmax
  obtain ⟨n, hb⟩ := bumpNext_eq c k
  rw [hb] at hst hle hbelow ⊢
  cases hmap : (a.append k v).isMap with
  | false =>
    rw [hmap] at hc
    cases hc
    exact .of_noIndex hst (hst.list hmap) (by rw [ha.len]; exact hlen)
      (fun ht => by rw [show (a.append k v).isMap = true from ht] at hmap; cases hmap)
      (fun ht => by rw [show (a.append k v).isMap = true from ht] at hmap; cases hmap)
  | true =>
    obtain ⟨o, ho, -, hcov⟩ := indexAdd_spec (a := a.append k v) (n := a.len)
      (fun x hx => h.steady.loaded x (ha.index ▸ hx)) fun _ W hW => by
        have hW' : a.Builds (a.len + 1) W := by
          unfold Harr.Builds at hW ⊢
          rwa [ha.index, ha.len] at hW
        have := h.room (hm.symm.trans hmap) hroom hconv W hW'
        have := hashed_le (a.append k v).key (a.append k v).len
        have := ha.len
        omega
    rw [if_pos hmap, ho] at hc
    cases hc
    refine ⟨hst, ?_, by rw [ha.len]; exact hlen, fun _ _ => ?_, fun _ => ?_⟩
    · exact hcov (by rw [ha.len]; exact hlen) (by rw [ha.len]; exact Nat.lt_succ_self _)
        (h.covered_append k v)
    · show (_ || (a.append k v).isMap) = true
      rw [hmap, Bool.or_true]
    · exact h.keys_set_new hk hno hmap hconv (hn ▸ hle) hbelow

theorem set (h : Sound a) (hk : hashable k = true) (ht : Tidy a (.set k v))
    (hb : hpArrSet a k v = some b) : Sound b := by
  obtain ⟨b', hb', hst⟩ := h.steady.set (h.roomy_set ht)
  obtain rfl := Option.some.inj (hb'.symm.trans hb)
  rcases set_cases hb with ⟨rfl, -⟩ | ⟨i, -, -, rfl⟩ | ⟨-, hnone, c, hc, rfl⟩
  · cases hk
  · exact ⟨hst, h.covered, h.small, h.keyed, fun hm =>
      (h.keys hm).congr rfl (fun _ _ => rfl) rfl⟩
  · exact h.set_new hk ht hnone hc hst

theorem slotOf_lt (hs : a.slotOf k = some i) : i < a.len := by
  unfold Harr.slotOf at hs
  split at hs
  · exact (scan_some hs).1
  · rename_i hm
    unfold hpKeyIndex at hs
    rw [if_neg hm] at hs
    split at hs
    · cases hs
    · dsimp only at hs
      split at hs
      · cases hs
      · obtain rfl := Option.some.inj hs
        omega

theorem roomy_unset (h : Sound a) (ht : Tidy a (.unset k)) : Roomy a (.unset k) := by
  intro i hi
  have hs : a.slotOf k = some i := Option.some.inj ((keyIndex_eq_slotOf h k).symm.trans hi)
  have hlt := slotOf_lt hs
  exact ⟨by omega, fun hne x hx h0 => absurd h0 ((ht i hs x hx).1 hne)⟩

theorem keys_unset (h : KeysOk a) (hi : i < a.len) (hb : b.len = a.len - 1)
    (hk : b.key = update a.key i (a.key (a.len - 1))) (hn : b.nextIndex = a.nextIndex) :
    KeysOk b := by
  refine h.of_injective (fun j => if j = i then a.len - 1 else j) (fun j hj => ?_)
    (fun j j' hj hj' he => ?_) (fun j hj => ?_) hn
  · split <;> omega
  · split at he <;> split at he <;> omega
  · rw [hk]
    split
    · rename_i e
      rw [e, update_self]
    · rename_i e
      rw [update_of_ne e]

theorem key_moveKey (a : Harr) (i last : Nat) :
    (a.moveKey i last).key = update a.key i (a.key last) := by
  funext j
  by_cases e : j = i
  · rw [e, update_self]
    exact congrArg Key.val (update_self ..)
  · rw [update_of_ne e]
    exact congrArg Key.val (update_of_ne e ..)

theorem indexDel_none (hx : a.index = none) (n : Nat) : hpArrIndexDel a n = some a := by
  rw [hpArrIndexDel, hx]

theorem indexDel_some {x : Index} (hx : a.index = some x) (hk : hashable (a.key n) = true) :
    hpArrIndexDel a n = (x.del (a.key n) n).map a.withIndex := by
  rw [hpArrIndexDel, hx, hk]
  rfl

theorem indexAdd_some {x : Index} (hx : a.index = some x) (hk : hashable (a.key n) = true)
    (hb : x.ibudget ≠ 0) : hpArrIndexAdd a n = (x.insert a.key n).map a.withIndex := by
  rw [hpArrIndexAdd, hx, hk]
  dsimp only [Bool.not_true]
  rw [Index.add, if_neg hb, Option.bind_some]
  rfl

/-- the last element of a map goes into the slot `i` -/
theorem fillHole_spec (h : Sound a) (hm : a.isMap = true) (hi : i < a.len - 1)
    (ht : ∀ x, a.index = some x → x.ibudget ≠ 0 ∧ x.Once a.len) :
    ∃ o, a.fillHole i (a.len - 1) =
        some { (a.moveKey i (a.len - 1)).moveVal i (a.len - 1) with index := o } ∧
      ∀ w, o = some w →
        Covers (update a.key i (a.key (a.len - 1))) (· < a.len - 1) w ∧ Live (a.len - 1) w := by
  have hkeyed : a.keyed = true := h.keyed hm (by have := h.steady.len_le; omega)
  have hk := h.keys hm
  have hlast : a.len - 1 + 1 = a.len := by omega
  have hsmall := h.small
  unfold Harr.fillHole Harr.takeKey
  rw [hm, hkeyed, Bool.and_self, if_pos rfl]
  cases hx : a.index with
  | none =>
    refine ⟨none, ?_, fun w hw => by cases hw⟩
    rw [indexDel_none hx, Option.bind_some, indexDel_none hx, Option.map_some, Option.bind_some]
    dsimp only [Harr.moveKey, Harr.moveVal]
    rw [hx, Option.isSome_none, Bool.and_false, if_neg Bool.false_ne_true, ← hx]
  | some x =>
    obtain ⟨hb, ho⟩ := ht x hx
    obtain ⟨hc, hl⟩ := h.covered x hx
    have hki := hk.hashed i (by omega)
    have hkl := hk.hashed (a.len - 1) (by omega)
    obtain ⟨y, z, w, hy, hz, hbz, hw, hcw, hlw⟩ := swap_spec (h.steady.loaded x hx) hb
      (hlast ▸ hc) (hlast ▸ hl) (hlast ▸ ho) (by omega) hi hki hkl
    refine ⟨some w, ?_, fun w' hw' => Option.some.inj hw' ▸ ⟨hcw, hlw⟩⟩
    have hdel : hpArrIndexDel (a.withIndex y) (a.len - 1) = some (a.withIndex z) := by
      have e := indexDel_some (a := a.withIndex y) (n := a.len - 1) rfl hkl
      rw [e]
      exact congrArg _ hz
    rw [indexDel_some hx hki, hy, Option.map_some, Option.bind_some, hdel, Option.map_some,
      Option.bind_some]
    generalize hd : ((a.withIndex z).moveKey i (a.len - 1)).moveVal i (a.len - 1) = d
    have hkey : d.key = update a.key i (a.key (a.len - 1)) := hd ▸ key_moveKey a i (a.len - 1)
    have hdi : d.key i = a.key (a.len - 1) := by rw [hkey, update_self]
    have hidx : d.index = some z := by rw [← hd]; rfl
    have hmap : d.isMap = true := by rw [← hm, ← hd]; rfl
    dsimp only
    rw [hmap, hidx, Option.isSome_some, Bool.and_self, if_pos rfl,
      indexAdd_some hidx (hdi ▸ hkl) hbz, hkey, hw, ← hd]
    rfl

/-- the last element of a map goes, with its entry -/
theorem unset_last (h : Sound a) (hm : a.isMap = true) (hpos : 0 < a.len)
    (ho : ∀ x, a.index = some x → x.Once a.len) {c : Harr}
    (hc : hpArrIndexDel a (a.len - 1) = some c) (hst : Steady { c with len := a.len - 1 }) :
    Sound { c with len := a.len - 1 } := by
  have hk := h.keys hm
  have hsmall := h.small
  have hlast : a.len - 1 + 1 = a.len := by omega
  have hle : a.len - 1 ≤ maxLen := by omega
  cases hx : a.index with
  | none =>
    rw [indexDel_none hx] at hc
    obtain rfl := Option.some.inj hc
    exact .of_noIndex hst hx hle h.keyed fun _ => hk.init rfl rfl rfl
  | some x =>
    have hkl := hk.hashed (a.len - 1) (by omega)
    obtain ⟨hcov, hl⟩ := h.covered x hx
    obtain ⟨r, hy, -, hr, hxr, hcy⟩ := del_covered (h.steady.loaded x hx) hcov
      (fun j hj => by omega) (show a.len - 1 < a.len by omega) hkl
    have hly := (hlast ▸ hl : Live (a.len - 1 + 1) x).shrink (hlast ▸ ho x hx) hr hxr
    rw [indexDel_some hx hkl, hy] at hc
    obtain rfl := Option.some.inj hc
    refine ⟨hst, fun y hy => ?_, hle, h.keyed, fun _ => hk.init rfl rfl rfl⟩
    obtain rfl := Option.some.inj hy
    refine ⟨hcy.mono fun j hj => ?_, hly⟩
    have hj' : j < a.len - 1 := hj
    exact ⟨by omega, by omega⟩

/-- the key of a map is unset -/
theorem unset_map (h : Sound a) (hm : a.isMap = true) (hs : a.slotOf k = some i)
    (ht : Tidy a (.unset k)) (hb : hpArrUnset a k = some b) (hst : Steady b) : Sound b := by
  have hi := slotOf_lt hs
  unfold hpArrUnset at hb
  rw [keyIndex_eq_slotOf h k, hs, Option.bind_some] at hb
  dsimp only at hb
  rw [if_neg (by omega)] at hb
  split at hb
  · rename_i hne
    have hlt : i < a.len - 1 := by omega
    obtain ⟨o, ho, hcov⟩ := h.fillHole_spec hm hlt fun x hx =>
      ⟨(ht i hs x hx).1 (by omega), (ht i hs x hx).2⟩
    rw [ho] at hb
    obtain rfl := Option.some.inj hb
    have hkey := key_moveKey a i (a.len - 1)
    refine ⟨hst, fun x hx => ?_, (Nat.sub_le ..).trans h.small, h.keyed, fun _ => ?_⟩
    · obtain ⟨hc, hl⟩ := hcov x hx
      exact ⟨hkey ▸ hc, hl⟩
    · exact keys_unset (h.keys hm) hi rfl hkey rfl
  · rename_i hlast
    obtain rfl : i = a.len - 1 := by omega
    obtain ⟨c, hc, rfl⟩ := Option.map_eq_some_iff.mp hb
    exact h.unset_last hm (by omega) (fun x hx => (ht _ hs x hx).2) hc hst

theorem unset (h : Sound a) (ht : Tidy a (.unset k)) (hb : hpArrUnset a k = some b) : Sound b := by
  obtain ⟨b', hb', hst⟩ := h.steady.unset (h.roomy_unset ht)
  obtain rfl := Option.some.inj (hb'.symm.trans hb)
  cases hm : a.isMap with
  | true =>
    cases hs : a.slotOf k with
    | some i => exact h.unset_map hm hs ht hb hst
    | none =>
      rw [hpArrUnset, keyIndex_eq_slotOf h k, hs] at hb
      exact Option.some.inj hb ▸ h
  | false =>
    have hmap : b'.isMap = false ∧ b'.len ≤ a.len := by
      rcases unset_cases hb with ⟨-, rfl⟩ | ⟨i, ks, vs, o, -, -, rfl⟩
      · exact ⟨hm, Nat.le_refl _⟩
      · exact ⟨hm, Nat.sub_le ..⟩
    exact .of_noIndex hst (hst.list hmap.1) (hmap.2.trans h.small)
      (fun ht => by rw [hmap.1] at ht; cases ht) (fun ht => by rw [hmap.1] at ht; cases ht)

theorem clone (h : Sound a) (junk : Nat → Val) (dup : Addr → Addr) :
    Sound (hpArrClone junk dup a) := by
  obtain ⟨hg, -⟩ :=
    grow_spec { hpArrNew junk with isMap := a.isMap, nextIndex := a.nextIndex } a.len
  have hm : (hpArrClone junk dup a).isMap = a.isMap := hg.isMap
  refine .of_noIndex (.clone junk dup a) hg.index h.small
    (fun hb hc => hg.keyed_of_pos (hm ▸ hb) hc fun h0 => absurd h0 (Nat.lt_irrefl 0)) fun hb => ?_
  refine (h.keys (hm ▸ hb)).congr rfl (fun i hi => ?_) hg.nextIndex
  exact congrArg Key.val (if_pos ⟨hb, hi⟩)

theorem step (h : Sound a) {op : Op} (hk : KeyOp op) (ht : Tidy a op)
    (hn : Arr.step a op = some b) : Sound b := by
  cases op with
  | set k v => exact h.set hk ht hn
  | push v => exact Option.some.inj hn ▸ h.push ht v
  | unshift v => exact Option.some.inj hn ▸ h.unshift ht v
  | unset k => exact h.unset ht hn
  | pop => exact Option.some.inj hn ▸ h.pop ht
  | shift => exact Option.some.inj hn ▸ h.shift ht
  | clone junk dup => exact Option.some.inj hn ▸ h.clone junk dup

theorem reach (ha : arrays.ReachIf (fun a op => KeyOp op ∧ Tidy a op) a) : Sound a := by
  refine ha.inv ?_ fun a op b h hc hn => h.step hc.1 hc.2 hn
  intro a ha
  obtain ⟨junk, ha⟩ := ha
  have hst : Steady a := .reach (.init ⟨junk, ha⟩)
  rcases ha with rfl | rfl
  · exact .of_noIndex hst rfl (Nat.zero_le _) (fun h => by cases h) fun h => by cases h
  · exact .of_noIndex hst rfl (Nat.zero_le _) (fun _ h => absurd h (Nat.lt_irrefl 0)) fun _ =>
      .of_empty rfl

end Sound

end

/-- the keys 0, .., n - 1 -/
def counted : Nat → Option Harr
  | 0 => some (emptyMap blank)
  | n + 1 => (counted n).bind fun a => hpArrSet a (.int (Int64.ofNat n)) (.bool true)

end Arr
end HolyPhp
