import HolyPhp.Runtime.Arr

/-!
# Lists: `next_index` and the positions of the elements

Push, pop, shift, unshift and `hp_arr_set` with int keys, from `hp_arr_new`.

* `Positional a`     the list `a` is the sequence of its elements: `next_index` is its length, and
                     a set at an index that it does not have is found there and nowhere else;
* `Counts a op`      the steps that move `len` and `next_index` together;
* `positional_iff`   a list is positional as long as its length has a signed 64-bit index and
                     `next_index` is the length;
* `lists_iff`        **the lists of a run are positional if and only if every step counts**.

Pop and shift take an element and leave `next_index`; unshift on a list adds one and leaves it.
-/

set_option linter.unusedVariables false
set_option autoImplicit false

namespace HolyPhp
namespace Arr
open Function Runs

/-! ## the system -/

inductive ListOp where
  | push (v : Val)
  | pop
  | shift
  | unshift (v : Val)
  | set (i : Int64) (v : Val)

def listStep (a : Harr) : ListOp → Option Harr
  | .push v => some (hpArrPush a v)
  | .pop => some (hpArrPop a).1
  | .shift => some (hpArrShift a).1
  | .unshift v => some (hpArrUnshift a v)
  | .set i v => hpArrSet a (.int i) v

/-- one array, from `hp_arr_new` -/
def lists : Sys Harr ListOp := ⟨fun a => ∃ junk, a = hpArrNew junk, listStep⟩

/-- a set at the index `i`, which `a` does not have, is found there and nowhere else -/
def SetLands (a : Harr) (i : Int64) : Prop :=
  hpArrHas a (.int i) = some false → ∀ v b, hpArrSet a (.int i) v = some b → b.isMap = false →
    hpArrGet b (.int i) = some v ∧ ∀ j, j ≠ i → hpArrGet b (.int j) = hpArrGet a (.int j)

/-- as long as it is a list, the array is the sequence of its elements -/
def Positional (a : Harr) : Prop :=
  a.isMap = false → a.nextIndex = Int64.ofNat a.len ∧ ∀ i, SetLands a i

/-- a list with one more element still has an int index for every element -/
def HasRoom (a : Harr) : Prop := a.len + 1 < 2 ^ 63

/-- the steps that move `len` and `next_index` of a list together -/
def Counts (a : Harr) : ListOp → Prop
  | .push _ => a.isMap = false → HasRoom a
  | .pop | .shift => a.isMap = false → a.len = 0
  | .unshift _ => a.isMap = true
  | .set i _ => a.isMap = false → hpArrHas a (.int i) = some false → i = a.nextIndex → HasRoom a

/-! ## lookups in a list -/

section
variable {a b : Harr} {v : Val} {i : Int64} {n : Nat}

theorem keyIndex_list (hm : a.isMap = false) (i : Int64) : hpKeyIndex a (.int i) =
    some (if i.toInt < 0 ∨ (a.len : Int) ≤ i.toInt then none else some i.toInt.toNat) := by
  unfold hpKeyIndex
  rw [hm, if_neg Bool.false_ne_true]
  exact (apply_ite some ..).symm

theorem has_list (hm : a.isMap = false) (i : Int64) :
    hpArrHas a (.int i) = some false ↔ i.toInt < 0 ∨ (a.len : Int) ≤ i.toInt := by
  rw [hpArrHas, keyIndex_list hm]
  split
  · rename_i h
    exact ⟨fun _ => h, fun _ => rfl⟩
  · rename_i h
    exact ⟨fun hs => by simp at hs, fun h' => absurd h' h⟩

theorem get_list (hm : a.isMap = false) (i : Int64) : hpArrGet a (.int i) =
    some (if i.toInt < 0 ∨ (a.len : Int) ≤ i.toInt then .null else a.vals i.toInt.toNat) := by
  rw [hpArrGet, keyIndex_list hm]
  split <;> rfl

/-- the lengths that are positions of an `int64_t` -/
theorem toInt_ofNat (hn : n < 2 ^ 63) : (Int64.ofNat n).toInt = n :=
  Int64.toInt_ofNat_of_lt hn

theorem ofNat_ne_succ (hn : n + 1 < 2 ^ 63) : Int64.ofNat n ≠ Int64.ofNat (n + 1) := by
  intro h
  have h' := congrArg Int64.toInt h
  rw [toInt_ofNat (by omega), toInt_ofNat hn] at h'
  omega

theorem ofNat_succ (n : Nat) : Int64.ofNat n + 1 = Int64.ofNat (n + 1) :=
  (Int64.ofNat_add n 1).symm

/-! ## one set -/

/-- a set that leaves a list found its index, or put one element behind the others -/
theorem set_list (hm : a.isMap = false) (hno : hpArrHas a (.int i) = some false)
    (hs : hpArrSet a (.int i) v = some b) (hb : b.isMap = false) :
    i = a.nextIndex ∧ b.len = a.len + 1 ∧ b.vals = update a.vals a.len v ∧
      b.nextIndex = a.nextIndex + 1 := by
  have habs := (has_list hm i).1 hno
  have hk := keyIndex_list hm i
  rw [if_pos habs] at hk
  obtain ⟨h, -⟩ | ⟨j, -, hj, -⟩ | ⟨-, -, c, hadd, rfl⟩ := set_cases hs
  · cases h
  · rw [hk] at hj
    cases hj
  · obtain ⟨ha, hmap, hnext⟩ := append_spec a (.int i) v
    obtain ⟨o, rfl⟩ := appended_eq hadd
    have hconv : a.converts (.int i) = false := by
      obtain ⟨n, hn⟩ := bumpNext_eq { a.append (.int i) v with index := o } (.int i)
      rw [hn] at hb
      exact (Bool.or_eq_false_iff.1 (hmap ▸ hb)).2
    have hi : i = a.nextIndex := by
      have : (i != a.nextIndex) = false := hconv
      simpa using this
    have hbump : bumpNext { a.append (.int i) v with index := o } (.int i) =
        { a.append (.int i) v with index := o, nextIndex := i + 1 } := by
      refine if_pos ?_
      show (a.append (.int i) v).nextIndex ≤ i
      rw [hnext, ← hi]
      exact Int64.le_refl i
    rw [hbump]
    exact ⟨hi, ha.len, ha.vals, congrArg (· + 1) hi⟩

/-- a set at an index of the list -/
theorem set_old (hm : a.isMap = false) (hyes : hpArrHas a (.int i) ≠ some false)
    (hs : hpArrSet a (.int i) v = some b) :
    b.isMap = false ∧ b.len = a.len ∧ b.nextIndex = a.nextIndex := by
  have hk := keyIndex_list hm i
  rw [if_neg fun h => hyes ((has_list hm i).2 h)] at hk
  obtain ⟨h, -⟩ | ⟨j, -, -, rfl⟩ | ⟨-, hno, -⟩ := set_cases hs
  · cases h
  · exact ⟨hm, rfl, rfl⟩
  · rw [hk] at hno
    cases hno

theorem positional_of (hn : a.nextIndex = Int64.ofNat a.len) (hlt : a.len < 2 ^ 63) :
    Positional a := by
  refine fun hm => ⟨hn, fun i hno v b hs hb => ?_⟩
  obtain ⟨hi, hlen, hvals, -⟩ := set_list hm hno hs hb
  have hint : i.toInt = a.len := by rw [hi, hn, toInt_ofNat hlt]
  have hget := get_list hb
  rw [hlen, hvals] at hget
  constructor
  · rw [hget, hint, if_neg (by omega), Int.toNat_natCast, update_self]
  · intro j hj
    have hne : j.toInt ≠ a.len := fun h => hj (Int64.toInt_inj.1 (h.trans hint.symm))
    rw [hget, get_list hm]
    by_cases hout : j.toInt < 0 ∨ (a.len : Int) ≤ j.toInt
    · rw [if_pos hout, if_pos (by omega)]
    · rw [if_neg hout, if_neg (by omega), update_of_ne (by omega)]

/-- the set at `next_index` leaves a list -/
theorem set_next (hm : a.isMap = false) (hno : hpArrHas a (.int a.nextIndex) = some false)
    (v : Val) : ∃ b, hpArrSet a (.int a.nextIndex) v = some b ∧ b.isMap = false := by
  have hk := keyIndex_list hm a.nextIndex
  rw [if_pos ((has_list hm _).1 hno)] at hk
  have hmap : (a.append (.int a.nextIndex) v).isMap = false := by
    rw [(append_spec a (.int a.nextIndex) v).2.1, hm, Bool.false_or]
    exact bne_self_eq_false a.nextIndex
  obtain ⟨n, hn⟩ := bumpNext_eq (a.append (.int a.nextIndex) v) (.int a.nextIndex)
  refine ⟨{ a.append (.int a.nextIndex) v with nextIndex := n }, ?_, hmap⟩
  rw [hpArrSet, if_neg nofun, hk, Option.bind_some]
  dsimp only
  rw [if_neg fun h => Bool.false_ne_true (hmap.symm.trans h), Option.map_some, hn]

/-- a list of `2^63` elements has none at the index that `next_index` names, and takes none there -/
theorem Positional.lt (h : Positional a) (hm : a.isMap = false) (hle : a.len ≤ 2 ^ 63) :
    a.len < 2 ^ 63 := by
  refine Nat.lt_of_le_of_ne hle fun hlen => ?_
  obtain ⟨hn, hlands⟩ := h hm
  have hneg : a.nextIndex.toInt < 0 := by
    rw [hn, hlen]
    decide
  have hno : hpArrHas a (.int a.nextIndex) = some false := (has_list hm _).2 (.inl hneg)
  obtain ⟨b, hs, hb⟩ := set_next hm hno (.bool true)
  have hget := (hlands _ hno _ b hs hb).1
  rw [get_list hb, if_pos (.inl hneg)] at hget
  cases hget

/-- **What a positional list is.** -/
theorem positional_iff (hm : a.isMap = false) (hle : a.len ≤ 2 ^ 63) :
    Positional a ↔ a.nextIndex = Int64.ofNat a.len ∧ a.len < 2 ^ 63 :=
  ⟨fun h => ⟨(h hm).1, h.lt hm hle⟩, fun h => positional_of h.1 h.2⟩

/-! ## the steps -/

/-- what positional lists have, and nothing for a map -/
def InStep (a : Harr) : Prop :=
  a.isMap = false → a.nextIndex = Int64.ofNat a.len ∧ a.len < 2 ^ 63

theorem InStep.positional (h : InStep a) : Positional a :=
  fun hm => positional_of (h hm).1 (h hm).2 hm

/-- a map stays a map -/
theorem step_map {op : ListOp} (hm : a.isMap = true) (hs : listStep a op = some b) :
    b.isMap = true := by
  cases op with
  | push v => exact Option.some.inj hs ▸ (push_spec a v).2.1.trans hm
  | pop =>
    rw [← Option.some.inj hs, hpArrPop]
    split <;> exact hm
  | shift =>
    rw [← Option.some.inj hs, hpArrShift]
    split <;> exact hm
  | unshift v => exact Option.some.inj hs ▸ (grow_spec a (a.len + 1)).1.isMap.trans hm
  | set i v =>
    have hs' : hpArrSet a (.int i) v = some b := hs
    obtain ⟨h, -⟩ | ⟨j, -, -, rfl⟩ | ⟨-, -, c, hadd, rfl⟩ := set_cases hs'
    · cases h
    · exact hm
    · obtain ⟨o, n, hn⟩ := set_new hadd
      rw [hn]
      show (a.append (.int i) v).isMap = true
      rw [(append_spec a (.int i) v).2.1, hm, Bool.true_or]

/-- pop and shift leave `next_index` -/
theorem pop_list (a : Harr) : (hpArrPop a).1.isMap = a.isMap ∧
    (hpArrPop a).1.nextIndex = a.nextIndex ∧ (hpArrPop a).1.len = a.len - 1 := by
  unfold hpArrPop
  split
  · rename_i h
    exact ⟨rfl, rfl, by rw [h]⟩
  · exact ⟨rfl, rfl, rfl⟩

theorem shift_list (a : Harr) : (hpArrShift a).1.isMap = a.isMap ∧
    (hpArrShift a).1.nextIndex = a.nextIndex ∧ (hpArrShift a).1.len = a.len - 1 := by
  unfold hpArrShift
  split
  · rename_i h
    exact ⟨rfl, rfl, by rw [h]⟩
  · exact ⟨rfl, rfl, rfl⟩

/-- a step adds one element at most -/
theorem step_len {op : ListOp} (hs : listStep a op = some b) : b.len ≤ a.len + 1 := by
  cases op with
  | push v => exact Option.some.inj hs ▸ (push_spec a v).1.len.le
  | pop => exact Option.some.inj hs ▸ (pop_list a).2.2.le.trans (by omega)
  | shift => exact Option.some.inj hs ▸ (shift_list a).2.2.le.trans (by omega)
  | unshift v => exact Option.some.inj hs ▸ (congrArg (· + 1) (grow_spec a (a.len + 1)).1.len).le
  | set i v =>
    have hs' : hpArrSet a (.int i) v = some b := hs
    obtain ⟨h, -⟩ | ⟨j, -, -, rfl⟩ | ⟨-, -, c, hadd, rfl⟩ := set_cases hs'
    · cases h
    · exact Nat.le_succ _
    · obtain ⟨o, n, hn⟩ := set_new hadd
      rw [hn]
      exact (append_spec a (.int i) v).1.len.le

/-- unshift on a list leaves `next_index` -/
theorem unshift_list (hm : a.isMap = false) (v : Val) : (hpArrUnshift a v).isMap = false ∧
    (hpArrUnshift a v).nextIndex = a.nextIndex ∧ (hpArrUnshift a v).len = a.len + 1 := by
  obtain ⟨hg, -⟩ := grow_spec a (a.len + 1)
  have hgm := hg.isMap.trans hm
  refine ⟨hgm, ?_, congrArg (· + 1) hg.len⟩
  simp only [hpArrUnshift, hgm, Bool.false_eq_true, if_false]
  exact hg.nextIndex

/-- one element less under the same `next_index` -/
theorem taken_iff (ha : a.isMap = false) (h : InStep a) (hm : b.isMap = a.isMap)
    (hn : b.nextIndex = a.nextIndex) (hlen : b.len = a.len - 1) : Positional b ↔ a.len = 0 := by
  obtain ⟨hnext, hlt⟩ := h ha
  rw [positional_iff (hm.trans ha) (by omega), hn, hnext, hlen]
  constructor
  · intro hp
    by_contra hne
    obtain ⟨m, hm⟩ := Nat.exists_eq_succ_of_ne_zero hne
    rw [hm] at hp hlt
    exact ofNat_ne_succ hlt hp.1.symm
  · intro h0
    rw [h0]
    exact ⟨rfl, by decide⟩

/-- one element more, with the next `next_index` -/
theorem grown_iff (ha : a.isMap = false) (h : InStep a) (hm : b.isMap = false)
    (hn : b.nextIndex = a.nextIndex + 1) (hlen : b.len = a.len + 1) :
    Positional b ↔ HasRoom a := by
  obtain ⟨hnext, hlt⟩ := h ha
  rw [positional_iff hm (by omega), hn, hnext, hlen, ofNat_succ]
  exact and_iff_right rfl

/-- **One step**: from a list in step, the next array is positional if and only if the step
counts. -/
theorem step_iff (h : InStep a) {op : ListOp} (hs : listStep a op = some b) :
    Positional b ↔ Counts a op := by
  cases hm : a.isMap with
  | true =>
    have hb := step_map hm hs
    have hc : Counts a op := by
      cases op with
      | push v => exact fun h => absurd (hm.symm.trans h) nofun
      | pop => exact fun h => absurd (hm.symm.trans h) nofun
      | shift => exact fun h => absurd (hm.symm.trans h) nofun
      | unshift v => exact hm
      | set i v => exact fun h => absurd (hm.symm.trans h) nofun
    exact iff_of_true (fun h => absurd (hb.symm.trans h) nofun) hc
  | false =>
    cases op with
    | push v =>
      obtain rfl := Option.some.inj hs
      obtain ⟨ha, hmap, hn⟩ := push_spec a v
      rw [grown_iff hm h (hmap.trans hm) hn ha.len]
      exact ⟨fun hr _ => hr, fun hr => hr hm⟩
    | pop =>
      obtain rfl := Option.some.inj hs
      obtain ⟨hmap, hn, hlen⟩ := pop_list a
      rw [taken_iff hm h hmap hn hlen]
      exact ⟨fun h0 _ => h0, fun h0 => h0 hm⟩
    | shift =>
      obtain rfl := Option.some.inj hs
      obtain ⟨hmap, hn, hlen⟩ := shift_list a
      rw [taken_iff hm h hmap hn hlen]
      exact ⟨fun h0 _ => h0, fun h0 => h0 hm⟩
    | unshift v =>
      obtain rfl := Option.some.inj hs
      obtain ⟨hmap, hn, hlen⟩ := unshift_list hm v
      obtain ⟨hnext, hlt⟩ := h hm
      rw [positional_iff hmap (by omega), hn, hnext, hlen]
      exact iff_of_false (fun hp => ofNat_ne_succ hp.2 hp.1) fun hc => nomatch hm.symm.trans hc
    | set i v =>
      have hs' : hpArrSet a (.int i) v = some b := hs
      by_cases hno : hpArrHas a (.int i) = some false
      · cases hb : b.isMap with
        | true =>
          refine iff_of_true (fun hf => nomatch hb.symm.trans hf) fun _ _ hi => ?_
          subst hi
          obtain ⟨b', hs'', hb'⟩ := set_next hm hno v
          rw [hs', Option.some.injEq] at hs''
          rw [hs'', hb'] at hb
          cases hb
        | false =>
          obtain ⟨hi, hlen, -, hn⟩ := set_list hm hno hs' hb
          rw [grown_iff hm h hb hn hlen]
          exact ⟨fun hr _ _ _ => hr, fun hr => hr hm hno hi⟩
      · obtain ⟨hb, hlen, hn⟩ := set_old hm hno hs'
        obtain ⟨hnext, hlt⟩ := h hm
        exact iff_of_true (positional_of (by rw [hn, hlen]; exact hnext) (by omega))
          fun _ hf => absurd hf hno

theorem InStep.new (junk : Nat → Val) : InStep (hpArrNew junk) :=
  fun _ => ⟨rfl, Nat.two_pow_pos 63⟩

/-- a step that counts keeps the lists in step -/
theorem InStep.step (h : InStep a) {op : ListOp} (hs : listStep a op = some b)
    (hc : Counts a op) : InStep b := by
  intro hb
  have hm : a.isMap = false := by
    cases hm : a.isMap with
    | true => exact absurd ((step_map hm hs).symm.trans hb) nofun
    | false => rfl
  obtain ⟨hnext, hlt⟩ := h hm
  have hp := (step_iff h hs).2 hc
  refine (positional_iff hb ?_).1 hp
  have hlen : b.len ≤ a.len + 1 := step_len hs
  omega

end

/-- **The lists of a run are positional if and only if every step counts**: pop and shift find an
empty list, nothing is unshifted, and no list grows to `2^63` elements. -/
theorem lists_iff (junk : Nat → Val) (ops : List ListOp) :
    (∀ p a, p <+: ops → lists.run (hpArrNew junk) p = some a → Positional a) ↔
      ∀ p op a b, p ++ [op] <+: ops → lists.run (hpArrNew junk) p = some a →
        lists.next a op = some b → Counts a op :=
  Sys.run_iff (InStep.new junk) (fun a h => h.positional) (fun a op b h hs hc => h.step hs hc)
    fun a op b h hs hp => (step_iff h hs).1 hp

/-- `[1, 2]` without its last element: 3, set at the index 2, is not there afterwards -/
theorem lists_popped : ∃ a b,
    lists.run (hpArrNew blank) [.push (.int 1), .push (.int 2), .pop] = some a ∧
    hpArrHas a (.int 2) = some false ∧ hpArrSet a (.int 2) (.int 3) = some b ∧
    b.isMap = false ∧ hpArrGet b (.int 2) = some .null ∧ ¬ Positional a :=
  ⟨_, _, rfl, rfl, rfl, rfl, rfl, fun h => absurd (h rfl).1 (by decide)⟩

end Arr
end HolyPhp
