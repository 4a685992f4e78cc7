import HolyPhp.Json.DecodeText
import HolyPhp.Json.Encode

/-!
# `hpbi_json_decode(hpbi_json_encode(v))`

* `denote_cst`      the tree of the encoder denotes the value, if the keys are strings and differ;
* `identEq_spec`    `===` on two copies of a value: true as long as at most 65 arrays are inside one
                    another;
* `json_roundTrip`  the two together.
-/

set_option linter.unusedVariables false

namespace HolyPhp
namespace Std
open Arr hiding Key
open Str Json Assoc

/-! ## the tree of the encoder -/

section
variable {K : Key → List Ch} {j : Value} {S : Bytes → Prop} {M : List Key → Prop}

theorem bytes_escCh (s : Bytes) : bytes (s.map escCh) = s := by
  induction s with
  | nil => rfl
  | cons c s ih =>
    have hc : (escCh c).denote = [c] := by
      unfold escCh
      by_cases h1 : c = 34
      · rw [h1]
        rfl
      · by_cases h2 : c = 92
        · rw [h2]
          rfl
        · by_cases h3 : c = 10
          · rw [h3]
            rfl
          · by_cases h4 : c = 9
            · rw [h4]
              rfl
            · rw [if_neg h1, if_neg h2, if_neg h3, if_neg h4]
              rfl
    rw [List.map_cons, bytes, List.flatMap_cons, hc]
    exact congrArg (c :: ·) ih

theorem itemsOf_denote (x : Cst) (xs : List Cst) :
    (itemsOf x xs).denote = x.denote :: xs.map Cst.denote := by
  induction xs generalizing x with
  | nil => rfl
  | cons y ys ih => rw [itemsOf, Items.denote, ih, List.map_cons]

theorem arrOf_denote (xs : List Cst) : (arrOf xs).denote = .list (xs.map Cst.denote) := by
  cases xs with
  | nil => rfl
  | cons x xs => rw [arrOf, Cst.denote, itemsOf_denote, List.map_cons]

/-- distinct keys come one behind the other -/
theorem membersOf_denote (m : List Ch × Cst) (ms : List (List Ch × Cst))
    (l : List (Key × Value)) (hl : ((m :: ms).map fun m => bytes m.1).Nodup)
    (hd : ∀ x ∈ m :: ms, ∀ p ∈ l, p.1 ≠ .str (bytes x.1)) :
    (membersOf m ms).denote l = l ++ (m :: ms).map fun m => (.str (bytes m.1), m.2.denote) := by
  induction ms generalizing m l with
  | nil =>
    rw [membersOf, Members.denote, assign_new (hd m List.mem_cons_self)]
    rfl
  | cons m' ms ih =>
    rw [List.map_cons, List.nodup_cons] at hl
    rw [membersOf, Members.denote, assign_new (hd m List.mem_cons_self), ih m' _ hl.2 ?_,
      List.append_assoc]
    · rfl
    · intro x hx p hp
      rcases List.mem_append.mp hp with hp | hp
      · exact hd x (List.mem_cons_of_mem m hx) p hp
      · obtain rfl := List.mem_singleton.mp hp
        intro he
        exact hl.1 (List.mem_map.mpr ⟨x, hx, (Key.str.inj he).symm⟩)

theorem objOf_denote {ms : List (List Ch × Cst)} (hl : (ms.map fun m => bytes m.1).Nodup) :
    (objOf ms).denote = .map (ms.map fun m => (.str (bytes m.1), m.2.denote)) := by
  cases ms with
  | nil => rfl
  | cons m ms =>
    rw [objOf, Cst.denote, membersOf_denote m ms [] hl fun _ _ p hp => by cases hp]
    rfl

theorem bytes_raw (s : Bytes) : bytes (s.map Ch.raw) = s := by
  induction s with
  | nil => rfl
  | cons c s ih => exact congrArg (c :: ·) ih

/-- the keys are strings, and `K` gives their characters -/
def Spells (K : Key → List Ch) (ks : List Key) : Prop :=
  (∀ k ∈ ks, .str (bytes (K k)) = k) ∧ ks.Nodup

theorem Spells.nodup {kvs : List (Key × Value)} (h : Spells K (kvs.map Prod.fst)) :
    ((cstMap K kvs).map fun m => bytes m.1).Nodup := by
  rw [cstMap_eq, List.map_map]
  refine List.Nodup.of_map Key.str ?_
  rw [List.map_map]
  have : kvs.map (Key.str ∘ (fun m : List Ch × Cst => bytes m.1) ∘ fun kv => (K kv.1, cst K kv.2)) =
      kvs.map Prod.fst :=
    List.map_congr_left fun kv hkv => h.1 kv.1 (List.mem_map_of_mem hkv)
  rw [this]
  exact h.2

theorem denote_cst (hj : j.Each S (Spells K)) : (cst K j).denote = j := by
  induction hj with
  | null => rfl
  | bool b => cases b <;> rfl
  | int i => rw [cst, Cst.denote, numOf_value, Int64.ofInt_toInt]
  | str _ => rw [cst, Cst.denote, bytes_escCh]
  | @list xs _ ih =>
    rw [cst, arrOf_denote, cstList_eq, List.map_map]
    exact congrArg Value.list ((List.map_congr_left ih).trans (List.map_id xs))
  | @map kvs hM _ ih =>
    rw [cst, objOf_denote hM.nodup, cstMap_eq, List.map_map]
    congr 1
    refine (List.map_congr_left fun kv hkv => ?_).trans (List.map_id kvs)
    show (Key.str (bytes (K kv.1)), (cst K kv.2).denote) = kv
    rw [hM.1 kv.1 (List.mem_map_of_mem hkv), ih kv hkv]

end

/-! ## `===` -/

/-- the loop over the elements -/
theorem foldlM_range {f : Bool → Nat → Option Bool} {p : Nat → Bool} (n : Nat)
    (ht : ∀ i < n, f true i = some (p i)) (hf : ∀ i, f false i = some false) :
    (List.range n).foldlM f true = some ((List.range n).all p) := by
  induction n with
  | zero => rfl
  | succ n ih =>
    rw [List.range_succ, List.foldlM_append, ih fun i hi => ht i (Nat.lt_succ_of_lt hi),
      List.all_append]
    cases hall : (List.range n).all p with
    | true =>
      show (f true n).bind _ = _
      rw [ht n (Nat.lt_succ_self n)]
      simp
    | false =>
      show (f false n).bind _ = _
      rw [hf]
      rfl

section
variable {h new : Heap} {lo p q room : Nat} {a b : Harr} {v w : Val} {j : Value}

/-- the body of the loop -/
def sameAt (h : Heap) (room : Nat) (a b : Harr) (ok : Bool) (i : Nat) : Option Bool :=
  if ¬ ok ∨ a.keyed ≠ b.keyed then some false
  else if a.keyed then
    (hpIdentEqR h room (a.key i) (b.key i)).bind fun ok =>
      if ok then hpIdentEqR h room (a.vals i) (b.vals i) else some false
  else hpIdentEqR h room (a.vals i) (b.vals i)

theorem identEq_arr (hne : p ≠ q) (hp : h[p]? = some a) (hq : h[q]? = some b)
    (hlen : a.len = b.len) (hm : a.isMap = b.isMap) :
    hpIdentEqR h 0 (.arr (some p)) (.arr (some q)) = some false ∧
    ∀ room, hpIdentEqR h (room + 1) (.arr (some p)) (.arr (some q)) =
      (List.range a.len).foldlM (sameAt h room a b) true := by
  have hne' : (some p : Option Nat) ≠ some q := fun h => hne (Option.some.inj h)
  constructor
  · rw [hpIdentEqR, if_neg hne']
    simp only [hp, hq, Option.bind_some, hlen, hm, ne_eq, not_true, or_self, if_false]
  · intro room
    rw [hpIdentEqR, if_neg hne']
    simp only [hp, hq, Option.bind_some, hlen, hm, ne_eq, not_true, or_self, if_false]
    rfl

theorem sameAt_false (i : Nat) : sameAt h room a b false i = some false :=
  if_pos (.inl Bool.false_ne_true)

theorem all_range {xs : List Value} {d : Nat} (hd : d ≤ room ↔ ∀ x ∈ xs, depth x ≤ room) :
    ((List.range xs.length).all fun i => decide (depth (xs.getD i .null) ≤ room)) =
      decide (d ≤ room) := by
  rw [Bool.eq_iff_iff, List.all_eq_true, decide_eq_true_iff, hd]
  constructor
  · intro hall x hx
    obtain ⟨i, hi, rfl⟩ := List.getElem_of_mem hx
    have := hall i (List.mem_range.mpr hi)
    rw [List.getD_eq_getElem xs .null hi] at this
    exact of_decide_eq_true this
  · intro hall i hi
    have hi := List.mem_range.mp hi
    rw [List.getD_eq_getElem xs .null hi]
    exact decide_eq_true (hall _ (List.getElem_mem hi))

/-- two copies of a value, one of them in new arrays: they are equal if the depth fits -/
theorem identEq_spec (hv : Rep h lo v j) (hw : Rep (h ++ new) h.length w j) (room : Nat) :
    hpIdentEqR (h ++ new) room v w = some (decide (depth j ≤ room)) := by
  induction hv generalizing w room with
  | null =>
    cases hw
    cases room <;> rfl
  | bool b =>
    cases hw
    cases room <;> cases b <;> rfl
  | int i =>
    cases hw
    rw [hpIdentEqR, beq_self_eq_true, depth, decide_eq_true (Nat.zero_le room)] <;> simp
  | str s =>
    cases hw
    rw [hpIdentEqR, beq_self_eq_true, depth, decide_eq_true (Nat.zero_le room)] <;> simp
  | @list p a xs hlo hp hm hk hlen _ ih =>
    cases hw with
    | @list q b _ hlo' hp' hm' hk' hlen' hvals' =>
      have hne : p ≠ q := by
        have := (List.getElem?_eq_some_iff.mp hp).1
        omega
      obtain ⟨h0, h1⟩ := identEq_arr hne (getElem?_append hp new) hp'
        (hlen.trans hlen'.symm) (hm.trans hm'.symm)
      cases room with
      | zero => exact h0
      | succ room =>
        rw [h1, foldlM_range _ (p := fun i => decide (depth (xs.getD i .null) ≤ room)) _
          sameAt_false, hlen, all_range (depthList_le xs), depth]
        · simp only [Nat.succ_le_succ_iff]
        · intro i hi
          rw [hlen] at hi
          rw [sameAt, hk, hk', List.getD_eq_getElem xs .null hi]
          exact ih i hi (hvals' i hi) room
  | @map p a kvs hlo hp hm hk hlen hkey _ ih =>
    cases hw with
    | @map q b _ hlo' hp' hm' hk' hlen' hkey' hvals' =>
      have hne : p ≠ q := by
        have := (List.getElem?_eq_some_iff.mp hp).1
        omega
      obtain ⟨h0, h1⟩ := identEq_arr hne (getElem?_append hp new) hp'
        (hlen.trans hlen'.symm) (hm.trans hm'.symm)
      have hd : ∀ n, depthMap kvs ≤ n ↔ ∀ x ∈ kvs.map Prod.snd, depth x ≤ n := fun n => by
        rw [depthMap_le, List.forall_mem_map]
      cases room with
      | zero => exact h0
      | succ room =>
        rw [h1, foldlM_range _
          (p := fun i => decide (depth ((kvs.map Prod.snd).getD i .null) ≤ room)) _
          sameAt_false, hlen, ← List.length_map Prod.snd, all_range (hd room), depth]
        · simp only [Nat.succ_le_succ_iff]
        · intro i hi
          have hi' := hi
          rw [hlen] at hi
          have hkk : hpIdentEqR (h ++ new) room (a.key i) (b.key i) = some true := by
            rw [hkey i hi, hkey' i hi]
            cases kvs[i].1 with
            | int n => rw [keyVal, hpIdentEqR, beq_self_eq_true]
            | str s => rw [keyVal, hpIdentEqR, beq_self_eq_true]
          have hget : (kvs.map Prod.snd).getD i .null = kvs[i].2 := by
            rw [List.getD_eq_getElem _ _ (by rw [List.length_map]; exact hi), List.getElem_map]
          rw [sameAt, hk (by omega), hk' (by omega), hkk, hget]
          exact ih i hi (hvals' i hi) room

end

/-! ## the round trip -/

/-- maps have string keys, which differ -/
def StringKeys (j : Value) : Prop :=
  j.Each (fun _ => True) fun ks => (∀ k ∈ ks, ∃ s, k = .str s) ∧ ks.Nodup

/-- no NUL in strings and keys; keys without quotes and backslashes, which print in an `int`; maps
with fewer than `2^31 - 4` keys -/
def Clean (j : Value) : Prop :=
  j.Each (0 ∉ ·) fun ks => ks.length < full ∧
    ∀ s, .str s ∈ ks → 0 ∉ s ∧ 34 ∉ s ∧ 92 ∉ s ∧ s.length + 3 < 2 ^ 31

section
variable (strtod : Bytes → Double) (junk : Nat → Val) (percentG fromDouble : Double → Bytes)

/-- `hpbi_json_decode(hpbi_json_encode(v))` returns, in the heap and with the value that `P` says -/
def RoundTrips (h : Heap) (v : Val) (P : Heap → Val → Prop) : Prop :=
  ∃ n s v' h' rest, (∀ fuel, n ≤ fuel →
      hpbiJsonEncode percentG fromDouble fuel h v = some s ∧
      hpbiJsonDecode strtod junk fromDouble fuel h s = some (v', h', rest)) ∧ P h' v'

end

section
variable {strtod : Bytes → Double} {junk : Nat → Val} {percentG fromDouble : Double → Bytes}
variable {h : Heap} {v : Val} {j : Value}

/-- what is needed of the keys of a map -/
structure GoodKeys (ks : List Key) : Prop where
  spells : Spells rawKey ks
  prints : Prints rawKey ks
  zero : ∀ k ∈ ks, 0 ∉ chars (rawKey k)
  lax : ∀ k ∈ ks, LaxStr (rawKey k)
  few : ks.length < full

theorem goodKeys {ks : List Key} (hs : (∀ k ∈ ks, ∃ s, k = .str s) ∧ ks.Nodup)
    (hc : ks.length < full ∧
      ∀ s, .str s ∈ ks → 0 ∉ s ∧ 34 ∉ s ∧ 92 ∉ s ∧ s.length + 3 < 2 ^ 31) : GoodKeys ks where
  spells := by
    refine ⟨fun k hk => ?_, hs.2⟩
    obtain ⟨s, rfl⟩ := hs.1 k hk
    exact congrArg Key.str (bytes_raw s)
  prints k hk := by
    obtain ⟨s, rfl⟩ := hs.1 k hk
    obtain ⟨h0, -, -, hlen⟩ := hc.2 s hk
    exact printKey_raw h0 hlen
  zero k hk := by
    obtain ⟨s, rfl⟩ := hs.1 k hk
    rw [rawKey, chars_raw]
    exact (hc.2 s hk).1
  lax k hk := by
    obtain ⟨s, rfl⟩ := hs.1 k hk
    obtain ⟨-, hq, hb, -⟩ := hc.2 s hk
    intro c hc'
    obtain ⟨b, hb', rfl⟩ := List.mem_map.mp hc'
    exact ⟨fun h => hq (h ▸ hb'), fun h => hb (h ▸ hb')⟩
  few := hc.1

theorem escCh_zero {s : Bytes} (h0 : 0 ∉ s) : 0 ∉ chars (s.map escCh) := by
  rw [chars_escCh, List.mem_flatMap]
  rintro ⟨c, hc, h⟩
  unfold escByte at h
  split at h
  · rename_i h'
    rcases h' with rfl | rfl <;> revert h <;> decide
  · split at h
    · revert h
      decide
    · split at h
      · revert h
        decide
      · exact h0 (List.mem_singleton.mp h ▸ hc)

/-- a clean value comes back as a copy in new arrays -/
theorem roundTrips_copy (hr : Rep h 0 v j) (hs : StringKeys j) (hc : Clean j) :
    RoundTrips strtod junk percentG fromDouble h v fun h' v' =>
      ∃ new, h' = h ++ new ∧ Rep h' h.length v' j := by
  have hg : j.Each (0 ∉ ·) GoodKeys := hs.and (fun _ _ h => h) (fun _ => goodKeys) hc
  have hspell : j.Each (0 ∉ ·) (Spells rawKey) := hg.and (fun _ h _ => h) (fun _ h _ => h.spells) hg
  have hprint : j.Each (0 ∉ ·) (Prints rawKey) := hg.and (fun _ h _ => h) (fun _ h _ => h.prints) hg
  have hzero : 0 ∉ (cst rawKey j).text := by
    refine Cst.zero_text (M := fun _ => True) _ ?_
    exact cst_all (fun s => escCh_zero) hpStrFromInt_zero (fun ks h => h.zero)
      (fun _ _ _ _ _ => trivial) hg
  have hlax : Lax (cst rawKey j) := by
    refine cst_all (fun s _ => escCh_lax s) numOf_int64 (fun ks h => h.lax) ?_ hg
    intro kvs m ms hk hkvs
    have hlen : (m :: ms).length = kvs.length := by
      rw [← hkvs, cstMap_eq, List.length_map]
    have hnd := hk.spells.nodup
    rw [hkvs] at hnd
    have hden := membersOf_denote m ms [] hnd fun _ _ p hp => by cases hp
    have hfew := hk.few
    rw [List.length_map] at hfew
    rw [Fits, hden, List.nil_append, List.length_map, hlen]
    exact hfew
  have hdec : Decodes strtod junk fromDouble h [] [] (cst rawKey j) := decodes_of_lax hlax
  obtain ⟨n, v', new, hrun, hrep⟩ := hdec
  rw [denote_cst hspell] at hrep
  refine ⟨max n (depth j + 1), .str (some (cst rawKey j).text), v', h ++ new, [], fun fuel hf => ?_,
    new, rfl, hrep⟩
  have hn : n ≤ fuel := Nat.le_trans (Nat.le_max_left ..) hf
  have hd : depth j + 1 ≤ fuel := Nat.le_trans (Nat.le_max_right ..) hf
  constructor
  · obtain ⟨fuel, rfl⟩ := Nat.exists_eq_add_of_le' (Nat.le_trans (Nat.le_add_left 1 _) hd)
    rw [hpbiJsonEncode, hbufJsonR_text hr hprint (Nat.le_of_succ_le_succ hd), Option.map_some,
      Substr.takeWhile_ne_iff.mpr hzero]
  · have := hrun fuel
    rw [if_pos hn] at this
    simpa [ws] using this

/-- **The round trip** of a clean value gives a copy; `===` says so as far as it looks. -/
theorem json_roundTrip (hr : Rep h 0 v j) (hs : StringKeys j) (hc : Clean j) :
    RoundTrips strtod junk percentG fromDouble h v fun h' v' =>
      Rep h' h.length v' j ∧ hpIdentEq h' v v' = some (decide (depth j ≤ 65)) := by
  have hcopy : RoundTrips strtod junk percentG fromDouble h v fun h' v' =>
      ∃ new, h' = h ++ new ∧ Rep h' h.length v' j := roundTrips_copy hr hs hc
  obtain ⟨n, s, v', h', rest, hrun, new, rfl, hrep⟩ := hcopy
  exact ⟨n, s, v', h ++ new, rest, hrun, hrep, identEq_spec hr hrep 65⟩

/-- `["k" => "\"\n"]` -/
theorem json_roundTrip_pair :
    let a := (emptyMap blank).append (.str (some [107])) (.str (some [34, 10]))
    let j := Value.map [(.str [107], .str [34, 10])]
    RoundTrips (fun _ => ⟨0⟩) blank (fun _ => []) (fun _ => []) [a] (.arr (some 0)) fun h' v' =>
      Rep h' 1 v' j ∧ hpIdentEq h' (.arr (some 0)) v' = some (decide (depth j ≤ 65)) := by
  refine json_roundTrip ?_ ?_ ?_
  · refine .map (Nat.zero_le 0) rfl rfl (fun _ => rfl) rfl ?_ ?_
    · intro i hi
      obtain rfl := Nat.lt_one_iff.mp hi
      rfl
    · intro i hi
      obtain rfl := Nat.lt_one_iff.mp hi
      exact .str [34, 10]
  · refine .map ⟨?_, List.nodup_singleton _⟩ ?_
    · exact fun k hk => ⟨[107], List.mem_singleton.mp hk⟩
    · exact fun kv hkv => List.mem_singleton.mp hkv ▸ .str trivial
  · refine .map ⟨by decide, ?_⟩ ?_
    · intro s hs
      obtain rfl := Key.str.inj (List.mem_singleton.mp hs)
      decide
    · exact fun kv hkv => List.mem_singleton.mp hkv ▸ .str (by decide)

/-- what the round trip gives does not depend on the fuel -/
theorem RoundTrips.unique {P Q : Heap → Val → Prop}
    (hp : RoundTrips strtod junk percentG fromDouble h v P)
    (hq : RoundTrips strtod junk percentG fromDouble h v Q) : ∃ h' v', P h' v' ∧ Q h' v' := by
  obtain ⟨n, s, v', h', rest, hrun, hP⟩ := hp
  obtain ⟨n₂, s₂, v₂, h₂, rest₂, hrun₂, hQ⟩ := hq
  obtain ⟨he, hd⟩ := hrun (max n n₂) (Nat.le_max_left ..)
  obtain ⟨he₂, hd₂⟩ := hrun₂ (max n n₂) (Nat.le_max_right ..)
  obtain rfl := Option.some.inj (he.symm.trans he₂)
  obtain ⟨rfl, h2⟩ := Prod.mk.inj (Option.some.inj (hd.symm.trans hd₂))
  obtain ⟨rfl, -⟩ := Prod.mk.inj h2
  exact ⟨h', v', hP, hQ⟩

end

/-! ## values that do not come back -/

/-- `n` lists inside one another -/
def nested : Nat → Heap × Val × Value
  | 0 => ([], .null, .null)
  | n + 1 =>
    let (h, v, j) := nested n
    (h ++ [hpArrPush (hpArrNew blank) v], .arr (some h.length), .list [j])

theorem nested_spec (n : Nat) : Rep (nested n).1 0 (nested n).2.1 (nested n).2.2 ∧
    StringKeys (nested n).2.2 ∧ Clean (nested n).2.2 ∧ depth (nested n).2.2 = n := by
  induction n with
  | zero => exact ⟨.null, .null, .null, rfl⟩
  | succ n ih =>
    obtain ⟨hr, hs, hc, hd⟩ := ih
    refine ⟨((ListOf.new blank).push hr).rep (Nat.zero_le _), .list ?_, .list ?_, ?_⟩
    · intro x hx
      exact List.mem_singleton.mp hx ▸ hs
    · intro x hx
      exact List.mem_singleton.mp hx ▸ hc
    · show max (depth (nested n).2.2) 0 + 1 = n + 1
      rw [hd, Nat.max_zero]

/-- the round trip gives a value that is `===` to the first -/
def ReturnsEqual (h : Heap) (v : Val) : Prop :=
  RoundTrips (fun _ => ⟨0⟩) blank (fun _ => []) (fun _ => []) h v fun h' v' =>
    hpIdentEq h' v v' = some true

/-- 66 lists inside one another, a key with a quote, a string with a NUL -/
theorem json_roundTrip_fails :
    (Rep (nested 66).1 0 (nested 66).2.1 (nested 66).2.2 ∧ StringKeys (nested 66).2.2 ∧
      ¬ ReturnsEqual (nested 66).1 (nested 66).2.1) ∧
    (Rep [quoteMap] 0 (.arr (some 0)) (.map [(.str [34], .null)]) ∧
      StringKeys (.map [(.str [34], .null)]) ∧ ¬ ReturnsEqual [quoteMap] (.arr (some 0))) ∧
    (Rep [] 0 (.str (some [0])) (.str [0]) ∧ StringKeys (.str [0]) ∧
      ¬ ReturnsEqual [] (.str (some [0]))) := by
  refine ⟨?_, ⟨quoteMap_rep, ?_, ?_⟩, .str [0], .str trivial, ?_⟩
  · obtain ⟨hr, hs, hc, hd⟩ := nested_spec 66
    refine ⟨hr, hs, fun h => ?_⟩
    obtain ⟨h', v', heq, new, rfl, hrep⟩ := h.unique (roundTrips_copy hr hs hc)
    rw [hpIdentEq, identEq_spec hr hrep 65, hd] at heq
    cases heq
  · refine .map ⟨?_, List.nodup_singleton _⟩ ?_
    · exact fun k hk => ⟨[34], List.mem_singleton.mp hk⟩
    · exact fun kv hkv => List.mem_singleton.mp hkv ▸ .null
  · -- the key ends at its own quote
    rintro ⟨n, s, v', h', rest, hrun, heq⟩
    obtain ⟨he, hd⟩ := hrun (n + 5) (Nat.le_add_right n 5)
    rw [quoteMap_text] at he
    obtain rfl := Option.some.inj he
    obtain ⟨m, hm, hne⟩ : ∃ m, hpbiJsonDecode (fun _ => ⟨0⟩) blank (fun _ => []) (n + 5) [quoteMap]
        (.str (some [123, 34, 34, 34, 58, 110, 117, 108, 108, 125])) =
          some (.arr (some 1), [quoteMap, m], []) ∧
        hpIdentEq [quoteMap, m] (.arr (some 0)) (.arr (some 1)) = some false := ⟨_, rfl, rfl⟩
    obtain ⟨rfl, h2⟩ := Prod.mk.inj (Option.some.inj (hm.symm.trans hd))
    obtain ⟨rfl, -⟩ := Prod.mk.inj h2
    rw [hne] at heq
    cases heq
  · -- the text ends in front of the NUL
    rintro ⟨n, s, v', h', rest, hrun, heq⟩
    obtain ⟨he, hd⟩ := hrun (n + 1) (Nat.le_add_right n 1)
    have ht : hpbiJsonEncode (fun _ => []) (fun _ => []) (n + 1) [] (.str (some [0])) =
        some (.str (some [34])) := rfl
    obtain rfl := Option.some.inj (ht.symm.trans he)
    have hm : hpbiJsonDecode (fun _ => ⟨0⟩) blank (fun _ => []) (n + 1) [] (.str (some [34])) =
        some (.str (some []), [], []) := rfl
    obtain ⟨rfl, h2⟩ := Prod.mk.inj (Option.some.inj (hm.symm.trans hd))
    cases heq

end Std
end HolyPhp
