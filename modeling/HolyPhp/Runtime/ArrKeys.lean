import HolyPhp.Runtime.Arr

/-!
# Which cells of `keys` were written

The states are stores: arrays under numbers, and every operation works on one of them or makes
one from others.

* `WrittenOk a`   a map has written the key of every element;
* `Converts a k`  `hp_arr_set` of `k` turns the list `a` into a map;
* `NoConversion`  the steps that convert no list with elements;
* `ArrInv`        what those steps keep, with the lists (no cell of `keys` is written).

A list that becomes a map does not write the keys of the elements it has: `keys_written` says
that an EMPTY list is the only one that may be converted.
-/

set_option linter.unusedVariables false

namespace HolyPhp
namespace Arr
open Function Runs

/-! ## the system -/

inductive Act where
  | new (i : Nat) (junk : Nat → Val)
  | newMap (i : Nat) (junk : Nat → Val)
  | set (i : Nat) (k v : Val)
  | push (i : Nat) (v : Val)
  | unset (i : Nat) (k : Val)
  | pop (i : Nat)
  | shift (i : Nat)
  | unshift (i : Nat) (v : Val)
  | clone (i j : Nat) (junk : Nat → Val) (dup : Addr → Addr)
  | merge (i j l : Nat) (junk : Nat → Val) (dup : Addr → Addr)
  | slice (i j : Nat) (start e : Int64) (junk : Nat → Val)

abbrev Store := Nat → Harr

def nextStore (s : Store) : Act → Option Store
  | .new i junk => some (update s i (hpArrNew junk))
  | .newMap i junk => some (update s i (emptyMap junk))
  | .set i k v => (hpArrSet (s i) k v).map (update s i)
  | .push i v => some (update s i (hpArrPush (s i) v))
  | .unset i k => (hpArrUnset (s i) k).map (update s i)
  | .pop i => some (update s i (hpArrPop (s i)).1)
  | .shift i => some (update s i (hpArrShift (s i)).1)
  | .unshift i v => some (update s i (hpArrUnshift (s i) v))
  | .clone i j junk dup => some (update s j (hpArrClone junk dup (s i)))
  | .merge i j l junk dup => (hpArrMerge junk dup (s i) (s j)).map (update s l)
  | .slice i j start e junk => some (update s j (hpArrSlice junk (s i) start e))

def stores : Sys Store Act := ⟨fun s => ∃ junk, s = fun _ => hpArrNew junk, nextStore⟩

def WrittenOk (a : Harr) : Prop := a.isMap = true → ∀ i < a.len, (a.keys i).written = true

/-- the list `a` has no element with the key `k`, and gets one -/
def Converts (a : Harr) (k : Val) : Prop :=
  a.isMap = false ∧ a.converts k = true ∧ hpKeyIndex a k = some none

/-- no list with elements is converted -/
def NoConversion (s : Store) : Act → Prop
  | .set i k _ => Converts (s i) k → (s i).len = 0
  | .merge i j _ _ _ =>
    ∀ n < (s j).len, TakesKey (s j) n → (∀ m < n, ¬ TakesKey (s j) m) →
      (s i).isMap = true ∨ (s i).len + n = 0
  | _ => True

/-- the elements of the list `a` are found in `b` as before, and `b` has the keys `0, .., n - 1`
and `k` -/
def ListKept (a b : Harr) (k : Val) : Prop :=
  (∀ i < a.len, hpArrGet b (.int (Int64.ofNat i)) = some (a.vals i)) ∧
  ∀ junk, (hpArrKeys junk b).len = a.len + 1 ∧ (hpArrKeys junk b).vals a.len = k ∧
    ∀ i < a.len, (hpArrKeys junk b).vals i = .int (Int64.ofNat i)

/-! ## the invariant -/

structure ArrInv (a : Harr) : Prop where
  written : WrittenOk a
  /-- a list never wrote a key -/
  blank : a.isMap = false → ∀ i, (a.keys i).written = false
  len_le : a.len ≤ a.cap

namespace ArrInv
variable {a b : Harr} {k v : Val}

theorem new (junk : Nat → Val) : ArrInv (hpArrNew junk) where
  written h := by cases h
  blank _ i := rfl
  len_le := Nat.le_refl 0

theorem emptyMap (junk : Nat → Val) : ArrInv (emptyMap junk) where
  written _ i hi := absurd hi (Nat.not_lt_zero i)
  blank h := by cases h
  len_le := Nat.le_refl 0

/-- one more element, where no list with elements is converted -/
theorem appended (h : ArrInv a) (ha : Appended a b k v)
    (hm : b.isMap = true → a.isMap = true ∨ a.len = 0) (hb : b.isMap = false → a.isMap = false) :
    ArrInv b := by
  refine ⟨fun hmap i hi => ?_, fun hlist i => ?_, by rw [ha.len]; exact ha.cap⟩
  · rw [ha.len] at hi
    by_cases e : i = a.len
    · rw [e, ha.last hmap]
    · rcases ha.keys i e with hk | ⟨-, hk⟩
      · rw [hk]
        exact h.written ((hm hmap).resolve_right (by omega)) i (by omega)
      · exact hk
  · rw [ha.blank hlist]
    exact h.blank (hb hlist) i

theorem push (h : ArrInv a) (v : Val) : ArrInv (hpArrPush a v) := by
  obtain ⟨ha, hm, -⟩ := push_spec a v
  exact h.appended ha (fun hb => .inl (hm ▸ hb)) (fun hb => hm ▸ hb)

theorem unshift (h : ArrInv a) (v : Val) : ArrInv (hpArrUnshift a v) := by
  obtain ⟨hlen, hm, -, hcap, -, hmap, hlist, -⟩ := unshift_spec h.len_le v
  refine ⟨fun hb i hi => ?_, fun hb i => ?_, by rw [hlen]; exact hcap⟩
  · rw [hm] at hb
    rw [hlen] at hi
    cases i with
    | zero => rw [(hmap hb).1]
    | succ i =>
      rw [(hmap hb).2 i (by omega)]
      exact h.written hb i (by omega)
  · rw [hm] at hb
    rw [hlist hb]
    exact h.blank hb i

theorem pop (h : ArrInv a) : ArrInv (hpArrPop a).1 := by
  unfold hpArrPop
  by_cases h0 : a.len = 0
  · rw [if_pos h0]
    exact h
  · rw [if_neg h0]
    have := h.len_le
    exact ⟨fun hm i hi => h.written hm i (show i < a.len by have : i < a.len - 1 := hi; omega),
      h.blank, by dsimp only; omega⟩

theorem shift (h : ArrInv a) : ArrInv (hpArrShift a).1 := by
  unfold hpArrShift
  by_cases h0 : a.len = 0
  · rw [if_pos h0]
    exact h
  · rw [if_neg h0]
    have := h.len_le
    refine ⟨fun hm i hi => ?_, fun hm i => ?_, by dsimp only; omega⟩
    · have hm' : a.isMap = true := hm
      have hi' : i < a.len - 1 := hi
      simp only [if_pos hm']
      rw [moveDown, if_pos hi']
      exact h.written hm' (i + 1) (by omega)
    · have hm' : a.isMap = false := hm
      simp only [hm', Bool.false_eq_true, if_false]
      exact h.blank hm' i

theorem unset (h : ArrInv a) (hu : hpArrUnset a k = some b) : ArrInv b := by
  obtain ⟨-, rfl⟩ | ⟨i, ks, vs, o, -, hks, rfl⟩ := unset_cases hu
  · exact h
  · have hlen : a.len - 1 ≤ a.len := Nat.sub_le ..
    refine ⟨fun hm j hj => ?_, fun hm j => ?_, Nat.le_trans hlen h.len_le⟩
    · have hj' : j < a.len - 1 := hj
      show (ks j).written = true
      rcases hks with rfl | rfl
      · exact h.written hm j (by omega)
      · by_cases e : j = i
        · rw [e, update_self]
          exact h.written hm _ (by omega)
        · rw [update_of_ne e]
          exact h.written hm j (by omega)
    · show (ks j).written = false
      rcases hks with rfl | rfl
      · exact h.blank hm j
      · by_cases e : j = i
        · rw [e, update_self]
          exact h.blank hm _
        · rw [update_of_ne e]
          exact h.blank hm j

theorem clone (h : ArrInv a) (junk : Nat → Val) (dup : Addr → Addr) :
    ArrInv (hpArrClone junk dup a) := by
  obtain ⟨hg, hcap⟩ :=
    grow_spec { hpArrNew junk with isMap := a.isMap, nextIndex := a.nextIndex } a.len
  refine ⟨fun hm i hi => ?_, fun hm i => ?_, hcap⟩
  · have hm' := hg.isMap.symm.trans hm
    simp only [hpArrClone, hg.isMap]
    rw [if_pos ⟨hm', hi⟩]
    exact h.written hm' i hi
  · have hm' := hg.isMap.symm.trans hm
    simp only [hpArrClone, hg.isMap]
    rw [if_neg fun hn => Bool.false_ne_true (hm'.symm.trans hn.1)]
    rcases hg.keys i with e | ⟨hmap, -⟩
    · rw [e]
      rfl
    · exact absurd (hm'.symm.trans hmap) Bool.false_ne_true

/-- other fields than `keys` and the lengths do not matter -/
theorem congr (h : ArrInv a) (hm : b.isMap = a.isMap) (hk : b.keys = a.keys) (hl : b.len = a.len)
    (hc : b.cap = a.cap) : ArrInv b := by
  refine ⟨fun h' i hi => ?_, fun h' i => ?_, by rw [hl, hc]; exact h.len_le⟩
  · rw [hk]
    exact h.written (hm ▸ h') i (hl ▸ hi)
  · rw [hk]
    exact h.blank (hm ▸ h') i

theorem append (h : ArrInv a) (hc : a.isMap = false → a.converts k = true → a.len = 0) :
    ArrInv (a.append k v) := by
  obtain ⟨ha, hm, -⟩ := append_spec a k v
  refine h.appended ha (fun hb => ?_) (fun hb => (Bool.or_eq_false_iff.mp (hm ▸ hb)).1)
  rw [hm, Bool.or_eq_true] at hb
  cases hmap : a.isMap with
  | true => exact .inl rfl
  | false =>
    rw [hmap] at hb
    exact .inr (hc hmap (hb.resolve_left Bool.false_ne_true))

theorem set (h : ArrInv a) (hs : hpArrSet a k v = some b) (hc : Converts a k → a.len = 0) :
    ArrInv b := by
  obtain ⟨-, rfl⟩ | ⟨i, -, -, rfl⟩ | ⟨-, hk, c, hadd, rfl⟩ := set_cases hs
  · exact h.push v
  · exact h.congr rfl rfl rfl rfl
  · have happ : ArrInv (a.append k v) := h.append fun hm hcv => hc ⟨hm, hcv, hk⟩
    obtain ⟨o, n, e⟩ := set_new hadd
    rw [e]
    exact happ.congr rfl rfl rfl rfl

theorem pushes (h : ArrInv a) (f : Nat → Val) (l : List Nat) :
    ArrInv (l.foldl (fun r i => hpArrPush r (f i)) a) := by
  induction l generalizing a with
  | nil => exact h
  | cons i l ih => exact ih (h.push (f i))

theorem slice (junk : Nat → Val) (a : Harr) (start e : Int64) :
    ArrInv (hpArrSlice junk a start e) :=
  (ArrInv.new junk).pushes _ _

/-- a string key makes a map -/
theorem set_str {s : Option Bytes} (hs : hpArrSet a (.str s) v = some b) : b.isMap = true := by
  obtain ⟨h, -⟩ | ⟨i, -, hk, rfl⟩ | ⟨-, -, c, hadd, rfl⟩ := set_cases hs
  · cases h
  · by_contra hm
    rw [keyIndex_list_str (by simpa using hm)] at hk
    cases hk
  · have hm : (a.append (.str s) v).isMap = true :=
      (append_spec a (.str s) v).2.1.trans (Bool.or_true _)
    obtain ⟨o, n, e⟩ := set_new hadd
    have e' : b = { a.append (.str s) v with index := o, nextIndex := n } := e
    rw [e']
    exact hm

/-- after `n` elements the merge is a map, or so far everything was pushed -/
theorem mergeSteps {junk : Nat → Val} {dup : Addr → Addr} {a b r : Harr} (h : ArrInv a) {n : Nat}
    (hn : ∀ m < n, TakesKey b m → (∀ j < m, ¬ TakesKey b j) → a.isMap = true ∨ a.len + m = 0)
    (hr : (List.range n).foldlM (mergeStep b) (hpArrClone junk dup a) = some r) :
    ArrInv r ∧ (a.isMap = true → r.isMap = true) ∧
      (r.isMap = true ∨ ((∀ m < n, ¬ TakesKey b m) ∧ r.len = a.len + n)) := by
  induction n generalizing r with
  | zero =>
    obtain rfl := Option.some.inj hr
    obtain ⟨hg, -⟩ :=
      grow_spec { hpArrNew junk with isMap := a.isMap, nextIndex := a.nextIndex } a.len
    exact ⟨h.clone junk dup, fun hm => hg.isMap.trans hm,
      .inr ⟨fun m hm => absurd hm (Nat.not_lt_zero m), rfl⟩⟩
  | succ n ih =>
    rw [List.range_succ, List.foldlM_append] at hr
    obtain ⟨q, hq, hr⟩ := Option.bind_eq_some_iff.mp hr
    obtain ⟨hqi, hqm, hqc⟩ := ih (fun m hm => hn m (by omega)) hq
    have hstep : mergeStep b q n = some r := by
      rw [List.foldlM_cons] at hr
      obtain ⟨q', hq', hr⟩ := Option.bind_eq_some_iff.mp hr
      exact hq'.trans hr
    unfold mergeStep at hstep
    by_cases ht : TakesKey b n
    · rw [if_pos ht] at hstep
      obtain ⟨s, hs⟩ : ∃ s, b.key n = .str s := by
        cases hk : b.key n <;> simp [TakesKey, hk, HVal.tag] at ht
        exact ⟨_, rfl⟩
      rw [hs] at hstep
      have hrm := set_str hstep
      refine ⟨hqi.set hstep fun hcv => ?_, fun _ => hrm, .inl hrm⟩
      rcases hqc with hmap | ⟨hno, hlen⟩
      · rw [hcv.1] at hmap
        cases hmap
      · rcases hn n (Nat.lt_succ_self n) ht hno with hmap | h0
        · have := hqm hmap
          rw [hcv.1] at this
          cases this
        · omega
    · rw [if_neg ht] at hstep
      obtain rfl := Option.some.inj hstep
      obtain ⟨ha, hm, -⟩ := push_spec q (b.vals n)
      refine ⟨hqi.push _, fun hmap => hm.trans (hqm hmap), ?_⟩
      rcases hqc with hmap | ⟨hno, hlen⟩
      · exact .inl (hm.trans hmap)
      · refine .inr ⟨fun m hm => ?_, by rw [ha.len]; omega⟩
        rcases Nat.lt_succ_iff_lt_or_eq.mp hm with hlt | rfl
        · exact hno m hlt
        · exact ht

end ArrInv

open ArrInv

/-- every array of a store that such steps reach -/
theorem arrInv_reach {s : Store} (hs : stores.ReachIf NoConversion s) (i : Nat) : ArrInv (s i) := by
  refine hs.inv (I := fun s => ∀ i, ArrInv (s i)) ?_ ?_ i
  · intro s h0 i
    obtain ⟨junk, rfl⟩ := h0
    exact .new junk
  · intro s l t h hc hn i
    have hupd : ∀ (j : Nat) (b : Harr), ArrInv b → ArrInv (update s j b i) := by
      intro j b hb
      by_cases e : i = j
      · rw [e, update_self]
        exact hb
      · rw [update_of_ne e]
        exact h i
    have hmap : ∀ (j : Nat) (o : Option Harr), (∀ b, o = some b → ArrInv b) →
        o.map (update s j) = some t → ArrInv (t i) := by
      intro j o ho ht
      obtain ⟨b, hb, rfl⟩ := Option.map_eq_some_iff.mp ht
      exact hupd j b (ho b hb)
    cases l with
    | new j junk => exact Option.some.inj hn ▸ hupd j _ (.new junk)
    | newMap j junk => exact Option.some.inj hn ▸ hupd j _ (.emptyMap junk)
    | set j k v => exact hmap j _ (fun b hb => (h j).set hb hc) hn
    | push j v => exact Option.some.inj hn ▸ hupd j _ ((h j).push v)
    | unset j k => exact hmap j _ (fun b hb => (h j).unset hb) hn
    | pop j => exact Option.some.inj hn ▸ hupd j _ (h j).pop
    | shift j => exact Option.some.inj hn ▸ hupd j _ (h j).shift
    | unshift j v => exact Option.some.inj hn ▸ hupd j _ ((h j).unshift v)
    | clone j m junk dup => exact Option.some.inj hn ▸ hupd m _ ((h j).clone junk dup)
    | merge j m r junk dup =>
      exact hmap r _ (fun b hb => ((h j).mergeSteps hc hb).1) hn
    | slice j m start e junk => exact Option.some.inj hn ▸ hupd m _ (.slice junk ..)

/-! ## the conversion of a list -/

section
variable {a b : Harr} {k v : Val}

theorem set_converts (hc : Converts a k) (hs : hpArrSet a k v = some b) :
    (∃ o n, b = { a.append k v with index := o, nextIndex := n }) ∧
      (a.append k v).isMap = true := by
  obtain ⟨h, -⟩ | ⟨i, -, hk, -⟩ | ⟨-, -, c, hadd, rfl⟩ := set_cases hs
  · rw [h] at hc
    cases hc.2.1
  · rw [hc.2.2] at hk
    cases hk
  · refine ⟨set_new hadd, (append_spec a k v).2.1.trans ?_⟩
    rw [hc.2.1, Bool.or_true]

/-- the key of a list with elements is lost when it becomes a map -/
theorem not_written_of_converts (h : ArrInv a) (hc : Converts a k) (hs : hpArrSet a k v = some b)
    (hn : 0 < a.len) : ¬ WrittenOk b := by
  intro hw
  obtain ⟨⟨o, n, rfl⟩, hm⟩ := set_converts hc hs
  obtain ⟨ha, -⟩ := append_spec a k v
  have h0 := hw hm 0 (Nat.lt_of_lt_of_eq (Nat.succ_pos _) ha.len.symm)
  rw [show (_ : Harr).keys 0 = a.keys 0 from ha.keys_of_lt h.len_le hn, h.blank hc.1] at h0
  cases h0

theorem listKept_of_empty (hc : Converts a k) (hs : hpArrSet a k v = some b) (hn : a.len = 0) :
    ListKept a b k := by
  obtain ⟨⟨o, n, e⟩, hm⟩ := set_converts hc hs
  obtain ⟨ha, -⟩ := append_spec a k v
  refine ⟨fun i hi => by omega, fun junk => ?_⟩
  have hlen : b.len = 1 := by rw [e, ha.len, hn]
  have hkeys : hpArrKeys junk b = hpArrPush (hpArrNew junk) k := by
    have hkey : b.key 0 = k := by
      rw [Harr.key, e, ← hn, ha.last hm]
    have hbm : b.isMap = true := by rw [e, hm]
    unfold hpArrKeys
    rw [hlen, hbm]
    exact congrArg _ hkey
  obtain ⟨hp, -⟩ := push_spec (hpArrNew junk) k
  rw [hkeys, hp.len, hp.vals, hn]
  exact ⟨rfl, update_self .., fun i hi => absurd hi (Nat.not_lt_zero i)⟩

end

/-- **Keys are written**, as long as no list with elements is converted; and an empty list is the
only one that may be. -/
theorem keys_written {s : Store} (hs : stores.ReachIf NoConversion s) :
    (∀ i, WrittenOk (s i)) ∧ ∀ i k v b, Converts (s i) k → hpArrSet (s i) k v = some b →
      (WrittenOk b ∧ ListKept (s i) b k ↔ (s i).len = 0) := by
  refine ⟨fun i => (arrInv_reach hs i).written, fun i k v b hc hb => ⟨fun h => ?_, fun h0 => ?_⟩⟩
  · by_contra hne
    exact not_written_of_converts (arrInv_reach hs i) hc hb (Nat.pos_of_ne_zero hne) h.1
  · exact ⟨((arrInv_reach hs i).set hb fun _ => h0).written, listKept_of_empty hc hb h0⟩

/-- `["x" => 1]`, from an empty list, and its copy -/
theorem keys_written_x : ∃ b, hpArrSet (hpArrNew blank) (.str (some [120])) (.int 1) = some b ∧
    WrittenOk b ∧ ListKept (hpArrNew blank) b (.str (some [120])) := by
  have hs : stores.ReachIf NoConversion fun _ => hpArrNew blank := .init ⟨blank, rfl⟩
  refine ⟨_, rfl, ?_⟩
  exact ((keys_written hs).2 0 (.str (some [120])) (.int 1) _ ⟨rfl, rfl, rfl⟩ rfl).mpr rfl

/-- the list `[10]` gets the key `"x"`: its own key 0 is not written -/
theorem keys_unwritten : ¬ ∀ s, stores.Reach s → ∀ i, WrittenOk (s i) := by
  intro h
  have h0 : stores.Reach fun _ => hpArrNew blank := .init ⟨blank, rfl⟩
  have h1 := h0.step (l := .push 0 (.int 10)) rfl
  have h2 := h1.step (l := .set 0 (.str (some [120])) (.int 1)) rfl
  exact absurd (h _ h2 0 rfl 0 (by decide)) (by decide)

end Arr
end HolyPhp
