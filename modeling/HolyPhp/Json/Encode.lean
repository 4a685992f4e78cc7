import HolyPhp.Json.DecodeSpec
import HolyPhp.Lib.Substr

/-!
# `hpbi_json_encode`

* `hbufJsonR`   the bytes that are put into the buffer, by fuel; `none` is a fault or no return;
* `printKey`    the one `hbuf_printf` of a key, which escapes nothing;
* `cst`         the tree whose text the encoder writes, when `K` gives the characters of each key
                (`hbufJsonR_text`).
-/

set_option linter.unusedVariables false

namespace HolyPhp
namespace Std
open Arr hiding Key
open Str Json
open Substr (takeWhile_ne_iff)

/-! ## the code -/

/-- a character of a string value -/
def escByte (c : UInt8) : Bytes :=
  if c = 34 ∨ c = 92 then [92, c]
  else if c = 10 then [92, 110]
  else if c = 9 then [92, 116]
  else [c]

/-- `%.*s` with the precision `(int)len`: as far as a NUL; a negative precision is none -/
def keyText (s : Bytes) : Bytes :=
  let p := Int.bmod s.length (2 ^ 32)
  (if p < 0 then s else s.take p.toNat).takeWhile (· ≠ 0)

/-- `hbuf_printf(b, "\"%.*s\":", ...)`, which prints nothing when the length overflows `int` -/
def printKey (s : Bytes) : Bytes :=
  let t := 34 :: (keyText s ++ [34, 58])
  if t.length < 2 ^ 31 then t else []

/-- the loop over the elements, with `,` in front of all but the first -/
def commas (f : Nat → Option Bytes) : Nat → Option Bytes
  | 0 => some []
  | n + 1 => (commas f n).bind fun b => (f n).map fun t => b ++ ((if n = 0 then [] else [44]) ++ t)

section
variable (percentG fromDouble : Double → Bytes)

/-- `percentG` is what `"%g"` makes of a `double` -/
def hbufJsonR (h : Heap) : Nat → Val → Option Bytes
  | 0, _ => none
  | fuel + 1, v =>
    match v with
    | .null => some (text "null")
    | .bool b => some (if b then text "true" else text "false")
    | .int i => some (hpStrFromInt i)
    | .float f => some (percentG f)
    | .str (some s) => some (34 :: (s.flatMap escByte ++ [34]))
    | .str none => none
    | .arr (some p) => h[p]?.bind fun a =>
      if a.isMap then
        (commas (fun i => (hbufJsonR h fuel (a.vals i)).map fun t =>
          printKey (hpValToStr fromDouble (a.key i)) ++ t) a.len).map fun t => 123 :: (t ++ [125])
      else
        (commas (fun i => hbufJsonR h fuel (a.vals i)) a.len).map fun t => 91 :: (t ++ [93])
    | .arr none => none
    | _ => some (text "null")

theorem hbufJsonR_arr (h : Heap) (fuel p : Nat) :
    hbufJsonR percentG fromDouble h (fuel + 1) (.arr (some p)) = h[p]?.bind fun a =>
      if a.isMap then
        (commas (fun i => (hbufJsonR percentG fromDouble h fuel (a.vals i)).map fun t =>
          printKey (hpValToStr fromDouble (a.key i)) ++ t) a.len).map fun t => 123 :: (t ++ [125])
      else
        (commas (fun i => hbufJsonR percentG fromDouble h fuel (a.vals i)) a.len).map
          fun t => 91 :: (t ++ [93]) := rfl

/-- the buffer as far as its first NUL -/
def hpbiJsonEncode (fuel : Nat) (h : Heap) (v : Val) : Option Val :=
  (hbufJsonR percentG fromDouble h fuel v).map fun b => .str (some (b.takeWhile (· ≠ 0)))

end

/-! ## what is written -/

def keyBytes : Key → Bytes
  | .int i => hpStrFromInt i
  | .str s => s

def escCh (c : UInt8) : Ch :=
  if c = 34 then .esc .quote
  else if c = 92 then .esc .backslash
  else if c = 10 then .esc .n
  else if c = 9 then .esc .t
  else .raw c

def numOf (i : Int64) : Number := ⟨decide (i.toInt < 0), i.toInt.natAbs, [], none⟩

def itemsOf : Cst → List Cst → Items
  | x, [] => .last [] x []
  | x, y :: ys => .cons [] x [] (itemsOf y ys)

def membersOf : List Ch × Cst → List (List Ch × Cst) → Members
  | (k, x), [] => .last [] k [] [] x []
  | (k, x), y :: ys => .cons [] k [] [] x [] (membersOf y ys)

def arrOf : List Cst → Cst
  | [] => .arrEmpty []
  | x :: xs => .arr (itemsOf x xs)

def objOf : List (List Ch × Cst) → Cst
  | [] => .objEmpty []
  | x :: xs => .obj (membersOf x xs)

section
variable (K : Key → List Ch)

mutual

def cst : Value → Cst
  | .null => .null
  | .bool true => .true
  | .bool false => .false
  | .int i => .num (numOf i)
  | .str s => .str (s.map escCh)
  | .list xs => arrOf (cstList xs)
  | .map kvs => objOf (cstMap kvs)

def cstList : List Value → List Cst
  | [] => []
  | x :: xs => cst x :: cstList xs

def cstMap : List (Key × Value) → List (List Ch × Cst)
  | [] => []
  | (k, x) :: kvs => (K k, cst x) :: cstMap kvs

end

theorem cstList_eq (xs : List Value) : cstList K xs = xs.map (cst K) := by
  induction xs with
  | nil => rw [cstList, List.map_nil]
  | cons x xs ih => rw [cstList, ih, List.map_cons]

theorem cstMap_eq (kvs : List (Key × Value)) :
    cstMap K kvs = kvs.map fun kv => (K kv.1, cst K kv.2) := by
  induction kvs with
  | nil => rw [cstMap, List.map_nil]
  | cons kv kvs ih => rw [cstMap, ih, List.map_cons]

end

mutual

/-- the arrays inside one another -/
def depth : Value → Nat
  | .list xs => depthList xs + 1
  | .map kvs => depthMap kvs + 1
  | _ => 0

def depthList : List Value → Nat
  | [] => 0
  | x :: xs => max (depth x) (depthList xs)

def depthMap : List (Key × Value) → Nat
  | [] => 0
  | (_, x) :: kvs => max (depth x) (depthMap kvs)

end

theorem depthList_le {n : Nat} (xs : List Value) : depthList xs ≤ n ↔ ∀ x ∈ xs, depth x ≤ n := by
  induction xs with
  | nil => simp [depthList]
  | cons x xs ih => simp [depthList, ih]

theorem depthMap_le {n : Nat} (kvs : List (Key × Value)) :
    depthMap kvs ≤ n ↔ ∀ kv ∈ kvs, depth kv.2 ≤ n := by
  induction kvs with
  | nil => simp [depthMap]
  | cons kv kvs ih => simp [depthMap, ih]

/-! ## the text of the tree -/

def commaText : List Bytes → Bytes
  | [] => []
  | x :: xs => x ++ xs.flatMap (44 :: ·)

theorem commaText_concat (l : List Bytes) (x : Bytes) :
    commaText (l ++ [x]) = commaText l ++ ((if l = [] then [] else [44]) ++ x) := by
  cases l with
  | nil => simp [commaText]
  | cons y l => simp [commaText]

theorem commas_eq {f : Nat → Option Bytes} {l : List Bytes}
    (hf : ∀ i (hi : i < l.length), f i = some l[i]) {n : Nat} (hn : n ≤ l.length) :
    commas f n = some (commaText (l.take n)) := by
  induction n with
  | zero => rfl
  | succ n ih =>
    have hnil : l.take n = [] ↔ n = 0 := by
      rw [List.take_eq_nil_iff]
      constructor
      · rintro (h | h)
        · exact h
        · rw [h] at hn
          cases hn
      · exact .inl
    rw [commas, ih (Nat.le_of_succ_le hn), hf n hn, List.take_succ_eq_append_getElem hn,
      commaText_concat]
    simp only [hnil]
    rfl

theorem itemsOf_text (x : Cst) (xs : List Cst) :
    (itemsOf x xs).text = commaText (x.text :: xs.map Cst.text) := by
  induction xs generalizing x with
  | nil => simp [itemsOf, Items.text, commaText, ws]
  | cons y ys ih => simp [itemsOf, Items.text, ih, commaText, ws]

theorem arrOf_text (xs : List Cst) :
    (arrOf xs).text = 91 :: (commaText (xs.map Cst.text) ++ [93]) := by
  cases xs with
  | nil => rfl
  | cons x xs => rw [arrOf, Cst.text, itemsOf_text, List.map_cons]

def memberText (m : List Ch × Cst) : Bytes := string m.1 ++ 58 :: m.2.text

theorem membersOf_text (m : List Ch × Cst) (ms : List (List Ch × Cst)) :
    (membersOf m ms).text = commaText (memberText m :: ms.map memberText) := by
  induction ms generalizing m with
  | nil => simp [membersOf, Members.text, memberText, commaText, ws]
  | cons m' ms ih => simp [membersOf, Members.text, memberText, ih, commaText, ws]

theorem objOf_text (ms : List (List Ch × Cst)) :
    (objOf ms).text = 123 :: (commaText (ms.map memberText) ++ [125]) := by
  cases ms with
  | nil => rfl
  | cons m ms => rw [objOf, Cst.text, membersOf_text, List.map_cons]

theorem numOf_text (i : Int64) : (numOf i).text = hpStrFromInt i := by
  rw [numOf, Number.text, hpStrFromInt]
  simp [decimal]

theorem numOf_value (i : Int64) : (numOf i).value = i.toInt := by
  unfold numOf Number.value
  by_cases h : i.toInt < 0
  · rw [if_pos (decide_eq_true h)]
    show -((i.toInt.natAbs : Nat) : Int) = _
    omega
  · rw [if_neg (by simpa using h)]
    show ((i.toInt.natAbs : Nat) : Int) = _
    omega

theorem numOf_int64 (i : Int64) : (numOf i).Int64 where
  frac := rfl
  exp := rfl
  lower := by
    rw [numOf_value]
    exact Int64.le_toInt i
  upper := by
    rw [numOf_value]
    exact Int64.toInt_lt i

theorem hpStrFromInt_zero (i : Int64) : 0 ∉ (numOf i).text := by
  intro h
  have := (text_bytes (numOf_int64 i) 0 h).1
  cases this

theorem chars_escCh (s : Bytes) : chars (s.map escCh) = s.flatMap escByte := by
  induction s with
  | nil => rfl
  | cons c s ih =>
    have hc : (escCh c).text = escByte c := by
      unfold escCh escByte
      by_cases h1 : c = 34
      · rw [h1]
        rfl
      · by_cases h2 : c = 92
        · rw [h2]
          rfl
        · rw [if_neg h1, if_neg h2, if_neg (not_or.mpr ⟨h1, h2⟩)]
          split
          · rfl
          · split <;> rfl
    rw [List.map_cons, chars, List.flatMap_cons, List.flatMap_cons, hc, ← ih]
    rfl

theorem hpValToStr_keyVal (fromDouble : Double → Bytes) (k : Key) :
    hpValToStr fromDouble (keyVal k) = keyBytes k := by
  cases k <;> rfl

/-- the keys are printed as the strings that `K` gives -/
def Prints (K : Key → List Ch) (ks : List Key) : Prop :=
  ∀ k ∈ ks, printKey (keyBytes k) = string (K k) ++ [58]

/-- **The encoder writes the text of `cst`.** -/
theorem hbufJsonR_text {percentG fromDouble : Double → Bytes} {h : Heap} {lo : Nat} {v : Val}
    {j : Value} {K : Key → List Ch} {S : Bytes → Prop} (hr : Rep h lo v j)
    (hk : j.Each S (Prints K)) {fuel : Nat} (hd : depth j ≤ fuel) :
    hbufJsonR percentG fromDouble h (fuel + 1) v = some (cst K j).text := by
  induction hr generalizing fuel with
  | null => rfl
  | bool b => cases b <;> rfl
  | int i =>
    rw [cst, Cst.text, numOf_text]
    rfl
  | str s =>
    rw [cst, Cst.text, string, chars_escCh]
    rfl
  | @list p a xs _ hp hm _ hlen _ ih =>
    obtain ⟨fuel, rfl⟩ := Nat.exists_eq_add_of_le' (Nat.le_trans (Nat.le_add_left 1 _) hd)
    have hd' := (depthList_le xs).mp (Nat.le_of_succ_le_succ hd)
    cases hk with
    | list hk =>
      have hf : ∀ i (hi : i < (xs.map fun x => (cst K x).text).length),
          hbufJsonR percentG fromDouble h (fuel + 1) (a.vals i) =
            some (xs.map fun x => (cst K x).text)[i] := by
        intro i hi
        rw [List.length_map] at hi
        rw [List.getElem_map]
        exact ih i hi (hk _ (List.getElem_mem hi)) (hd' _ (List.getElem_mem hi))
      have hn : a.len ≤ (xs.map fun x => (cst K x).text).length := by
        rw [List.length_map, hlen]
      rw [hbufJsonR_arr, hp, Option.bind_some, hm, if_neg Bool.false_ne_true, commas_eq hf hn,
        List.take_of_length_le (by rw [List.length_map, hlen]), cst, arrOf_text, cstList_eq,
        List.map_map]
      rfl
  | @map p a kvs _ hp hm _ hlen hkey _ ih =>
    obtain ⟨fuel, rfl⟩ := Nat.exists_eq_add_of_le' (Nat.le_trans (Nat.le_add_left 1 _) hd)
    have hd' := (depthMap_le kvs).mp (Nat.le_of_succ_le_succ hd)
    cases hk with
    | map hM hk =>
      have hf : ∀ i (hi : i < (kvs.map fun kv => memberText (K kv.1, cst K kv.2)).length),
          ((hbufJsonR percentG fromDouble h (fuel + 1) (a.vals i)).map fun t =>
            printKey (hpValToStr fromDouble (a.key i)) ++ t) =
            some (kvs.map fun kv => memberText (K kv.1, cst K kv.2))[i] := by
        intro i hi
        rw [List.length_map] at hi
        have hmem := List.getElem_mem hi
        rw [List.getElem_map, ih i hi (hk _ hmem) (hd' _ hmem), hkey i hi, hpValToStr_keyVal,
          hM _ (List.mem_map_of_mem hmem), memberText, Option.map_some, List.append_assoc]
        rfl
      have hn : a.len ≤ (kvs.map fun kv => memberText (K kv.1, cst K kv.2)).length := by
        rw [List.length_map, hlen]
      rw [hbufJsonR_arr, hp, Option.bind_some, hm, if_pos rfl, commas_eq hf hn,
        List.take_of_length_le (by rw [List.length_map, hlen]), cst, objOf_text, cstMap_eq,
        List.map_map]
      rfl

/-! ## keys -/

def rawKey (k : Key) : List Ch := (keyBytes k).map Ch.raw

theorem chars_raw (s : Bytes) : chars (s.map Ch.raw) = s := by
  induction s with
  | nil => rfl
  | cons c s ih => exact congrArg (c :: ·) ih

theorem keyText_eq {s : Bytes} (hlen : s.length + 3 < 2 ^ 31) :
    keyText s = s.takeWhile (· ≠ 0) := by
  have hp : Int.bmod s.length (2 ^ 32) = s.length := Int.bmod_eq_of_le (by omega) (by omega)
  rw [keyText, hp, if_neg (by omega), Int.toNat_natCast, List.take_length]

theorem length_keyText {s : Bytes} (hlen : s.length + 3 < 2 ^ 31) :
    (keyText s).length ≤ s.length := by
  rw [keyText_eq hlen]
  exact (List.takeWhile_sublist _).length_le

theorem printKey_eq {s : Bytes} (hlen : s.length + 3 < 2 ^ 31) :
    printKey s = string ((keyText s).map Ch.raw) ++ [58] := by
  have hlt : (34 :: (keyText s ++ [34, 58])).length < 2 ^ 31 := by
    rw [List.length_cons, List.length_append]
    exact Nat.lt_of_le_of_lt (Nat.add_le_add_right (length_keyText hlen) 3) hlen
  rw [printKey, if_pos hlt, string, chars_raw, List.cons_append, List.append_assoc,
    List.singleton_append]

/-- a key without NUL is printed as it is -/
theorem printKey_raw {s : Bytes} (h0 : 0 ∉ s) (hlen : s.length + 3 < 2 ^ 31) :
    printKey s = string (s.map Ch.raw) ++ [58] := by
  rw [printKey_eq hlen, keyText_eq hlen, takeWhile_ne_iff.mpr h0]

/-! ## strings -/

theorem escCh_lax (s : Bytes) : LaxStr (s.map escCh) := by
  intro c hc
  obtain ⟨b, -, rfl⟩ := List.mem_map.mp hc
  unfold escCh
  by_cases h1 : b = 34
  · rw [if_pos h1]
    trivial
  · by_cases h2 : b = 92
    · rw [if_neg h1, if_pos h2]
      trivial
    · rw [if_neg h1, if_neg h2]
      split
      · trivial
      · split
        · trivial
        · exact ⟨h1, h2⟩

/-! ## a key that needs an escape -/

/-- `["\"" => null]` -/
def quoteMap : Harr := (emptyMap blank).append (.str (some [34])) .null

theorem quoteMap_rep :
    Rep [quoteMap] 0 (.arr (some 0)) (.map [(.str [34], .null)]) := by
  refine .map (Nat.zero_le 0) rfl rfl (fun _ => rfl) rfl ?_ ?_
  · intro i hi
    obtain rfl := Nat.lt_one_iff.mp hi
    rfl
  · intro i hi
    obtain rfl := Nat.lt_one_iff.mp hi
    exact .null

theorem quoteMap_text (percentG fromDouble : Double → Bytes) (fuel : Nat) :
    hpbiJsonEncode percentG fromDouble (fuel + 2) [quoteMap] (.arr (some 0)) =
      some (.str (some [123, 34, 34, 34, 58, 110, 117, 108, 108, 125])) := by
  have hk : Value.Each (fun _ => True) (Prints rawKey) (.map [(.str [34], .null)]) := by
    refine .map (fun k hk => ?_) fun kv hkv => ?_
    · obtain rfl := List.mem_singleton.mp hk
      exact printKey_raw (by decide) (by decide)
    · obtain rfl := List.mem_singleton.mp hkv
      exact .null
  rw [hpbiJsonEncode, hbufJsonR_text quoteMap_rep hk (Nat.le_add_left 1 fuel)]
  rfl

/-! ## conditions on the tree -/

section
variable {K : Key → List Ch} {j : Value} {S : Bytes → Prop} {M : List Key → Prop}
variable {S' : List Ch → Prop} {N' : Number → Prop} {M' : Members → Prop}

theorem itemsOf_all (x : Cst) (xs : List Cst) :
    (itemsOf x xs).All S' N' M' ↔ ∀ y ∈ x :: xs, y.All S' N' M' := by
  induction xs generalizing x with
  | nil => simp [itemsOf, Items.All]
  | cons y ys ih => simp [itemsOf, Items.All, ih]

theorem membersOf_all (m : List Ch × Cst) (ms : List (List Ch × Cst)) :
    (membersOf m ms).All S' N' M' ↔ ∀ x ∈ m :: ms, S' x.1 ∧ x.2.All S' N' M' := by
  induction ms generalizing m with
  | nil => simp [membersOf, Members.All]
  | cons m' ms ih => simp [membersOf, Members.All, ih, and_assoc]

/-- the tree meets conditions on its strings, numbers and objects -/
theorem cst_all (hS : ∀ s, S s → S' (s.map escCh)) (hN : ∀ i, N' (numOf i))
    (hK : ∀ ks, M ks → ∀ k ∈ ks, S' (K k))
    (hM : ∀ (kvs : List (Key × Value)) (m : List Ch × Cst) (ms : List (List Ch × Cst)),
      M (kvs.map Prod.fst) → cstMap K kvs = m :: ms → M' (membersOf m ms))
    (hj : j.Each S M) : (cst K j).All S' N' M' := by
  induction hj with
  | null => trivial
  | bool b => cases b <;> trivial
  | int i => exact hN i
  | str hs => exact hS _ hs
  | @list xs _ ih =>
    rw [cst, cstList_eq]
    cases xs with
    | nil => trivial
    | cons x xs =>
      refine (itemsOf_all (cst K x) (xs.map (cst K))).mpr fun y hy => ?_
      rw [← List.map_cons] at hy
      obtain ⟨z, hz, rfl⟩ := List.mem_map.mp hy
      exact ih z hz
  | @map kvs hks _ ih =>
    rw [cst]
    cases hkvs : cstMap K kvs with
    | nil => trivial
    | cons m ms =>
      refine ⟨hM kvs m ms hks hkvs, (membersOf_all m ms).mpr fun x hx => ?_⟩
      rw [← hkvs, cstMap_eq] at hx
      obtain ⟨kv, hkv, rfl⟩ := List.mem_map.mp hx
      exact ⟨hK _ hks kv.1 (List.mem_map_of_mem hkv), ih kv hkv⟩

/-- the value meets the conditions that its tree meets -/
theorem each_of_all (h : (cst K j).All S' N' M') :
    j.Each (fun s => S' (s.map escCh)) fun ks => ∀ k ∈ ks, S' (K k) := by
  induction j using Value.ind with
  | null => exact .null
  | bool b => exact .bool b
  | int i => exact .int i
  | str s => exact .str h
  | list xs ih =>
    rw [cst, cstList_eq] at h
    refine .list fun x hx => ih x hx ?_
    cases xs with
    | nil => cases hx
    | cons y ys =>
      refine (itemsOf_all (cst K y) (ys.map (cst K))).mp h (cst K x) ?_
      rw [← List.map_cons]
      exact List.mem_map_of_mem hx
  | map kvs ih =>
    rw [cst, cstMap_eq] at h
    have hall : ∀ kv ∈ kvs, S' (K kv.1) ∧ (cst K kv.2).All S' N' M' := by
      intro kv hkv
      cases kvs with
      | nil => cases hkv
      | cons p ps =>
        refine (membersOf_all (K p.1, cst K p.2) (ps.map fun kv => (K kv.1, cst K kv.2))).mp h.2
          (K kv.1, cst K kv.2) ?_
        rw [← List.map_cons (f := fun kv : Key × Value => (K kv.1, cst K kv.2))]
        exact List.mem_map_of_mem (f := fun kv : Key × Value => (K kv.1, cst K kv.2)) hkv
    refine .map (fun k hk => ?_) fun kv hkv => ih kv hkv (hall kv hkv).2
    obtain ⟨kv, hkv, rfl⟩ := List.mem_map.mp hk
    exact (hall kv hkv).1

end

end Std
end HolyPhp
