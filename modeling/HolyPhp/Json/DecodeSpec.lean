import HolyPhp.Json.Decode
import HolyPhp.Lib.Json
import HolyPhp.Runtime.ArrFill

/-!
# What the scanners and the loops of `hpbi_json_decode` do

`Rep h lo v j`: in the heap `h` the value `v` is `j`, with arrays from address `lo` on.

* `ListOf.push`, `MapOf.set`   one round of the loops behind `[` and `{`;
* `jpWs_ws`, `jpString_string`, `jpNumber_text`   the scanners on whitespace, strings and integers.
-/

set_option linter.unusedVariables false

namespace HolyPhp
namespace Std
open Arr hiding Key
open Json Assoc

/-! ## values in the heap -/

def keyVal : Key → Val
  | .int i => .int i
  | .str s => .str (some s)

theorem keyVal_inj {k l : Key} (h : keyVal k = keyVal l) : k = l := by
  cases k <;> cases l <;> simp_all [keyVal]

inductive Rep (h : Heap) (lo : Nat) : Val → Value → Prop
  | null : Rep h lo .null .null
  | bool (b : Bool) : Rep h lo (.bool b) (.bool b)
  | int (i : Int64) : Rep h lo (.int i) (.int i)
  | str (s : Bytes) : Rep h lo (.str (some s)) (.str s)
  | list {p : Nat} {a : Harr} {xs : List Value} : lo ≤ p → h[p]? = some a → a.isMap = false →
      a.keyed = false → a.len = xs.length →
      (∀ i (hi : i < xs.length), Rep h lo (a.vals i) xs[i]) → Rep h lo (.arr (some p)) (.list xs)
  | map {p : Nat} {a : Harr} {kvs : List (Key × Value)} : lo ≤ p → h[p]? = some a →
      a.isMap = true → (0 < a.len → a.keyed = true) → a.len = kvs.length →
      (∀ i (hi : i < kvs.length), a.key i = keyVal kvs[i].1) →
      (∀ i (hi : i < kvs.length), Rep h lo (a.vals i) kvs[i].2) →
      Rep h lo (.arr (some p)) (.map kvs)

section
variable {h : Heap} {lo : Nat} {v : Val} {j : Value}

theorem Rep.append (new : Heap) (hr : Rep h lo v j) : Rep (h ++ new) lo v j := by
  induction hr with
  | null => exact .null
  | bool b => exact .bool b
  | int i => exact .int i
  | str s => exact .str s
  | list hlo hp hm hk hlen _ ih => exact .list hlo (getElem?_append hp new) hm hk hlen ih
  | map hlo hp hm hk hlen hkeys _ ih => exact .map hlo (getElem?_append hp new) hm hk hlen hkeys ih

/-- an array that the loop behind `[` fills -/
structure ListOf (h : Heap) (lo : Nat) (a : Harr) (xs : List Value) : Prop where
  map : a.isMap = false
  keyed : a.keyed = false
  len : a.len = xs.length
  vals : ∀ i (hi : i < xs.length), Rep h lo (a.vals i) xs[i]

def Entry (h : Heap) (lo : Nat) (p : Val × Val) (q : Key × Value) : Prop :=
  p.1 = keyVal q.1 ∧ Rep h lo p.2 q.2

/-- an array that the loop behind `{` fills -/
structure MapOf (h : Heap) (lo : Nat) (a : Harr) (kvs : List (Key × Value)) : Prop where
  filled : Filled a
  entries : List.Forall₂ (Entry h lo) a.entries kvs

variable {a : Harr} {xs : List Value} {kvs : List (Key × Value)} {k : Key}

theorem ListOf.new (junk : Nat → Val) : ListOf h lo (hpArrNew junk) [] where
  map := rfl
  keyed := rfl
  len := rfl
  vals i hi := absurd hi (Nat.not_lt_zero i)

theorem ListOf.append (new : Heap) (ha : ListOf h lo a xs) : ListOf (h ++ new) lo a xs :=
  { ha with vals := fun i hi => (ha.vals i hi).append new }

theorem ListOf.push (ha : ListOf h lo a xs) (hv : Rep h lo v j) :
    ListOf h lo (hpArrPush a v) (xs ++ [j]) := by
  obtain ⟨hp, hm, -⟩ := push_spec a v
  refine ⟨hm.trans ha.map, ?_, ?_, fun i hi => ?_⟩
  · show (hpArrGrow a (a.len + 1)).keyed = false
    unfold hpArrGrow
    split
    · exact ha.keyed
    · show (a.keyed || a.isMap) = false
      rw [ha.keyed, ha.map]
      rfl
  · rw [hp.len, ha.len, List.length_append]
    rfl
  · rw [hp.vals]
    by_cases e : i = a.len
    · subst e
      rw [Function.update_self, List.getElem_append_right (Nat.le_of_eq ha.len.symm)]
      simpa using hv
    · have hi' : i < xs.length := by
        rw [List.length_append, ← ha.len] at hi
        simp only [List.length_singleton] at hi
        rw [← ha.len]
        omega
      rw [Function.update_of_ne e, List.getElem_append_left hi']
      exact ha.vals i hi'

theorem ListOf.rep (ha : ListOf h lo a xs) (hlo : lo ≤ h.length) :
    Rep (h ++ [a]) lo (.arr (some h.length)) (.list xs) :=
  .list hlo (by simp) ha.map ha.keyed ha.len fun i hi => (ha.vals i hi).append [a]

theorem MapOf.new (junk : Nat → Val) : MapOf h lo (emptyMap junk) [] where
  filled := emptyMap_filled junk
  entries := .nil

theorem MapOf.append (new : Heap) (ha : MapOf h lo a kvs) : MapOf (h ++ new) lo a kvs where
  filled := ha.filled
  entries := ha.entries.imp fun _ _ he => ⟨he.1, he.2.append new⟩

theorem MapOf.len (ha : MapOf h lo a kvs) : a.len = kvs.length := by
  rw [← length_entries, ha.entries.length_eq]

theorem assign_forall₂ {l : List (Val × Val)} (hl : List.Forall₂ (Entry h lo) l kvs)
    (hv : Rep h lo v j) : List.Forall₂ (Entry h lo) (assign l (keyVal k) v) (assign kvs k j) := by
  induction hl with
  | nil => exact .cons ⟨rfl, hv⟩ .nil
  | @cons p q l m he hl ih =>
    rw [assign, assign]
    by_cases e : q.1 = k
    · rw [if_pos (he.1.trans (congrArg keyVal e)), if_pos e]
      exact .cons ⟨rfl, hv⟩ hl
    · rw [if_neg fun h => e (keyVal_inj (he.1.symm.trans h)), if_neg e]
      exact .cons he ih

/-- the loop behind `{` writes one member -/
theorem MapOf.set {s : Bytes} (ha : MapOf h lo a kvs) (hv : Rep h lo v j)
    (hlen : (assign kvs (.str s) j).length < full) :
    ∃ b, hpArrSet a (.str (some s)) v = some b ∧ MapOf h lo b (assign kvs (.str s) j) := by
  have hall := assign_forall₂ (k := .str s) ha.entries hv
  obtain ⟨b, hb, hf, he⟩ := ha.filled.set (k := .str (some s)) (v := v) rfl (by simp) fun hs => by
    have hne : ∀ p ∈ a.entries, p.1 ≠ .str (some s) := by
      intro p hp e
      obtain ⟨i, hi, rfl⟩ := List.mem_map.mp hp
      exact List.find?_eq_none.mp hs i hi (keyEq_iff.mpr ⟨e, rfl⟩)
    have := hall.length_eq
    rw [show keyVal (.str s) = .str (some s) from rfl, assign_new hne, List.length_append,
      length_entries] at this
    exact Nat.lt_of_le_of_lt (Nat.le_of_eq this) hlen
  exact ⟨b, hb, hf, he ▸ hall⟩

/-- a key that is one too many: the write does not end -/
theorem MapOf.set_full {s : Bytes} (ha : MapOf h lo a kvs) (hv : Rep h lo v j)
    (hlt : kvs.length < full) (hfull : full ≤ (assign kvs (.str s) j).length) :
    hpArrSet a (.str (some s)) v = none := by
  have hall := (assign_forall₂ (k := .str s) ha.entries hv).length_eq
  have hlen := ha.len
  have hne : ∀ p ∈ a.entries, p.1 ≠ keyVal (.str s) := by
    intro p hp e
    rw [length_assign_mem ⟨p, hp, e⟩, length_entries] at hall
    omega
  refine ha.filled.set_full rfl (List.find?_eq_none.mpr fun i hi he => ?_) ?_
  · exact hne (a.key i, a.vals i) (List.mem_map.mpr ⟨i, hi, rfl⟩) (keyEq_iff.mp he).1
  · rw [assign_new hne, List.length_append, length_entries, List.length_singleton] at hall
    omega

theorem MapOf.rep (ha : MapOf h lo a kvs) (hlo : lo ≤ h.length) :
    Rep (h ++ [a]) lo (.arr (some h.length)) (.map kvs) := by
  have hlen := ha.entries.length_eq
  have hat : ∀ i (hi : i < kvs.length), Entry h lo (a.key i, a.vals i) kvs[i] := by
    intro i hi
    have := List.Forall₂.get ha.entries (hlen ▸ hi) hi
    simpa [getElem_entries] using this
  refine .map hlo (by simp) ha.filled.map (fun hpos => ?_) ha.len (fun i hi => (hat i hi).1)
    fun i hi => (hat i hi).2.append [a]
  have := ha.filled.sound.steady.len_le
  exact ha.filled.sound.keyed ha.filled.map (by omega)

end

/-! ## whitespace -/

section
variable {w : List Ws} {c d : UInt8} {s cs rest : Bytes}

theorem jpWs_ws (w : List Ws) (s : Bytes) : jpWs (ws w ++ s) = jpWs s := by
  induction w with
  | nil => rfl
  | cons b w ih =>
    rw [← ih]
    cases b <;> rfl

/-- not the first byte of whitespace -/
def Solid (c : UInt8) : Prop := ¬(c = 32 ∨ c = 9 ∨ c = 10 ∨ c = 13)

instance (c : UInt8) : Decidable (Solid c) := inferInstanceAs (Decidable (¬ _))

theorem jpWs_solid (h : Solid c) : jpWs (c :: cs) = c :: cs := if_neg h

theorem jpWs_jpWs (s : Bytes) : jpWs (jpWs s) = jpWs s := by
  induction s with
  | nil => rfl
  | cons c cs ih =>
    rw [jpWs]
    split
    · exact ih
    · rename_i h
      exact jpWs_solid h

/-- a number ends in front of these bytes -/
def Ends (s : Bytes) : Prop := ∀ c ∈ s.head?, isNumByte c = false

theorem Ends.cons (h : isNumByte c = false) : Ends (c :: cs) := fun d hd => by
  obtain rfl := Option.some.inj hd
  exact h

theorem Ends.ws (hs : Ends s) : Ends (ws w ++ s) := by
  cases w with
  | nil => exact hs
  | cons b w => cases b <;> exact Ends.cons rfl

/-! ## strings -/

/-- no raw quote or backslash, and no surrogate -/
def Plain : Ch → Prop
  | .raw b => b ≠ 34 ∧ b ≠ 92
  | .esc _ => True
  | .hex a b c d => codePoint a b c d < 0xD800 ∨ 0xE000 ≤ codePoint a b c d

def LaxStr (s : List Ch) : Prop := ∀ c ∈ s, Plain c

theorem jpChars_raw (h1 : c ≠ 34) (h2 : c ≠ 92) :
    jpChars (c :: cs) = (c :: (jpChars cs).1, (jpChars cs).2) := by
  rw [jpChars] <;> simp_all

theorem hexDigit_byte (d : Hex) : hexDigit d.byte = UInt32.ofNat d.val.val := by
  obtain ⟨v, u⟩ := d
  revert v u
  decide

theorem hexCode_byte (a b c d : Hex) :
    hexCode a.byte b.byte c.byte d.byte = UInt32.ofNat (codePoint a b c d) := by
  unfold hexCode codePoint
  simp only [hexDigit_byte, UInt32.ofNat_add, UInt32.ofNat_mul]
  rfl

theorem lt_iff_le {a n m : UInt32} (h : m.toNat = n.toNat + 1) : a < m ↔ a ≤ n := by
  rw [UInt32.lt_iff_toNat_lt, UInt32.le_iff_toNat_le, h, Nat.lt_succ_iff]

theorem toUInt8_mask {x : UInt32} {m : UInt8} (n : Nat) (hm : m.toNat = 2 ^ n - 1) (h8 : n ≤ 8)
    (hx : x.toNat < 2 ^ n) : x.toUInt8 &&& m = x.toUInt8 := by
  have : x.toNat < 2 ^ 8 := Nat.lt_of_lt_of_le hx (Nat.pow_le_pow_right (by decide) h8)
  apply UInt8.toNat_inj.mp
  rw [UInt8.toNat_and, hm, Nat.and_two_pow_sub_one_eq_mod, UInt32.toNat_toUInt8,
    Nat.mod_eq_of_lt this, Nat.mod_eq_of_lt hx]

/-- the three cases are those of UTF-8 -/
theorem utf8_eq {c : Char} (h : c.toNat < 0x10000) : utf8 c.val = String.utf8EncodeChar c := by
  have hv : c.val.toNat < 0x10000 := h
  rw [String.utf8EncodeChar_eq_utf8EncodeCharFast]
  unfold utf8 String.utf8EncodeCharFast
  dsimp only
  by_cases h1 : c.val < 0x80
  · rw [if_pos h1, if_pos ((lt_iff_le rfl).mp h1)]
  · rw [if_neg h1, if_neg fun h => h1 ((lt_iff_le rfl).mpr h)]
    by_cases h2 : c.val < 0x800
    · have h2' : c.val.toNat < 0x800 := UInt32.lt_iff_toNat_lt.mp h2
      have hs : (c.val >>> 6).toNat < 2 ^ 5 := by
        rw [UInt32.toNat_shiftRight, Nat.shiftRight_eq_div_pow]
        show c.val.toNat / 2 ^ 6 < 2 ^ 5
        omega
      rw [if_pos h2, if_pos ((lt_iff_le rfl).mp h2), UInt32.toUInt8_or, UInt32.toUInt8_or,
        UInt32.toUInt8_and, toUInt8_mask 5 rfl (by decide) hs]
      rfl
    · have hs : (c.val >>> 12).toNat < 2 ^ 4 := by
        rw [UInt32.toNat_shiftRight, Nat.shiftRight_eq_div_pow]
        show c.val.toNat / 2 ^ 12 < 2 ^ 4
        omega
      rw [if_neg h2, if_neg fun h => h2 ((lt_iff_le rfl).mpr h),
        if_pos (UInt32.le_iff_toNat_le.mpr (Nat.le_of_lt_succ hv))]
      simp only [UInt32.toUInt8_or, UInt32.toUInt8_and,
        toUInt8_mask (m := 0x0f) 4 rfl (by decide) hs]
      rfl

theorem codePoint_lt (a b c d : Hex) : codePoint a b c d < 0x10000 := by
  have ha := a.val.isLt
  have hb := b.val.isLt
  have hc := c.val.isLt
  have hd := d.val.isLt
  unfold codePoint
  omega

theorem utf8_hexCode {a b c d : Hex} (h : Plain (.hex a b c d)) :
    utf8 (hexCode a.byte b.byte c.byte d.byte) = (Ch.hex a b c d).denote := by
  have hlt := codePoint_lt a b c d
  have hv : (codePoint a b c d).isValidChar := by
    rcases h with h | h
    · exact .inl h
    · exact .inr ⟨h, by omega⟩
  have hto : (Char.ofNat (codePoint a b c d)).toNat = codePoint a b c d := by
    rw [Char.ofNat, dif_pos hv]
    rfl
  rw [hexCode_byte, Ch.denote, ← utf8_eq (by rw [hto]; exact hlt)]
  congr 1
  apply UInt32.toNat_inj.mp
  rw [UInt32.toNat_ofNat', Nat.mod_eq_of_lt (by omega)]
  exact hto.symm

/-- the loop of `jp_string` up to the closing quote -/
theorem jpChars_chars {t : List Ch} (ht : LaxStr t) :
    jpChars (chars t ++ 34 :: rest) = (bytes t, rest) := by
  induction t with
  | nil => rfl
  | cons x t ih =>
    have ih := ih fun c hc => ht c (List.mem_cons_of_mem x hc)
    have hx := ht x List.mem_cons_self
    rw [chars, bytes, List.flatMap_cons, List.flatMap_cons, List.append_assoc]
    change jpChars (x.text ++ (chars t ++ 34 :: rest)) = (x.denote ++ bytes t, rest)
    cases x with
    | raw b =>
      show jpChars (b :: (chars t ++ 34 :: rest)) = _
      rw [jpChars_raw hx.1 hx.2, ih]
      rfl
    | esc e =>
      have : jpChars (92 :: e.letter :: (chars t ++ 34 :: rest)) =
          (e.byte :: (jpChars (chars t ++ 34 :: rest)).1, (jpChars (chars t ++ 34 :: rest)).2) := by
        cases e <;> rfl
      rw [ih] at this
      exact this
    | hex a b c d =>
      have : jpChars ((Ch.hex a b c d).text ++ (chars t ++ 34 :: rest)) =
          (utf8 (hexCode a.byte b.byte c.byte d.byte) ++ (jpChars (chars t ++ 34 :: rest)).1,
            (jpChars (chars t ++ 34 :: rest)).2) := rfl
      rw [this, ih, utf8_hexCode hx]

theorem jpString_string {t : List Ch} (ht : LaxStr t) :
    jpString (string t ++ rest) = (bytes t, rest) := by
  rw [← jpChars_chars ht, string, List.cons_append, List.append_assoc]
  rfl

end

/-! ## numbers -/

section
variable {n m : Nat} {s t rest : Bytes}

def digitByte (d : Nat) : UInt8 := d.digitChar.toNat.toUInt8

theorem digitByte_spec : ∀ d < 10, isDigit (digitByte d) = true ∧ (digitByte d).toNat - 48 = d := by
  decide

theorem decimal_lt (h : n < 10) : decimal n = [digitByte n] := by
  rw [decimal, Nat.toDigits_of_lt_base h]
  rfl

theorem decimal_step (h : 10 ≤ n) : decimal n = decimal (n / 10) ++ [digitByte (n % 10)] := by
  rw [decimal, Nat.toDigits_of_base_le (by decide) h, List.map_append]
  rfl

theorem decimal_digits (n : Nat) : ∀ c ∈ decimal n, isDigit c = true := by
  induction n using Nat.strongRecOn with
  | ind n ih =>
    intro c hc
    by_cases h : n < 10
    · rw [decimal_lt h] at hc
      obtain rfl := List.mem_singleton.mp hc
      exact (digitByte_spec n h).1
    · rw [decimal_step (Nat.le_of_not_lt h)] at hc
      rcases List.mem_append.mp hc with hc | hc
      · exact ih (n / 10) (by omega) c hc
      · obtain rfl := List.mem_singleton.mp hc
        exact (digitByte_spec (n % 10) (Nat.mod_lt n (by decide))).1

theorem leadingNat_append (h : ∀ c ∈ s, isDigit c = true) :
    leadingNat m (s ++ t) = leadingNat (leadingNat m s) t := by
  induction s generalizing m with
  | nil => rfl
  | cons c s ih =>
    rw [List.cons_append, leadingNat, leadingNat, if_pos (h c List.mem_cons_self),
      if_pos (h c List.mem_cons_self), ih fun d hd => h d (List.mem_cons_of_mem c hd)]

theorem leadingNat_decimal (n : Nat) : leadingNat 0 (decimal n) = n := by
  induction n using Nat.strongRecOn with
  | ind n ih =>
    by_cases h : n < 10
    · obtain ⟨h1, h2⟩ := digitByte_spec n h
      rw [decimal_lt h, leadingNat, if_pos h1, h2, leadingNat, Nat.zero_mul, Nat.zero_add]
    · obtain ⟨h1, h2⟩ := digitByte_spec (n % 10) (Nat.mod_lt n (by decide))
      rw [decimal_step (Nat.le_of_not_lt h), leadingNat_append (decimal_digits (n / 10)),
        ih (n / 10) (by omega), leadingNat, if_pos h1, h2, leadingNat]
      omega

theorem decimal_cons (n : Nat) : ∃ c cs, decimal n = c :: cs ∧ isDigit c = true := by
  have hd := decimal_digits n
  cases h : decimal n with
  | nil =>
    have := Nat.length_toDigits_pos (b := 10) (n := n)
    rw [decimal, List.map_eq_nil_iff] at h
    rw [h] at this
    exact absurd this (Nat.lt_irrefl 0)
  | cons c cs => exact ⟨c, cs, rfl, hd c (h ▸ List.mem_cons_self)⟩

theorem text_int {x : Number} (hx : x.Int64) :
    x.text = (if x.neg then [45] else []) ++ decimal x.int := by
  rw [Number.text, hx.frac, hx.exp]
  simp

/-- a digit may stand in a string -/
theorem isDigit_plain {c : UInt8} (h : isDigit c = true) :
    32 ≤ c.toNat ∧ c.toNat < 128 ∧ c ≠ 34 ∧ c ≠ 92 := by
  have hc := h
  simp only [isDigit, Bool.and_eq_true, decide_eq_true_eq, UInt8.le_iff_toNat_le] at hc
  have h1 : (48 : UInt8).toNat = 48 := rfl
  have h2 : (57 : UInt8).toNat = 57 := rfl
  refine ⟨by omega, by omega, ?_, ?_⟩
  · rintro rfl
    cases h
  · rintro rfl
    cases h

theorem isDigit_space {c : UInt8} (h : isDigit c = true) : isSpace c = false := by
  simp only [isDigit, Bool.and_eq_true, decide_eq_true_eq, UInt8.le_iff_toNat_le] at h
  simp only [isSpace, Bool.or_eq_false_iff, beq_eq_false_iff_ne, ne_eq, Bool.and_eq_false_iff,
    decide_eq_false_iff_not, UInt8.le_iff_toNat_le, ← UInt8.toNat_inj]
  have h1 : (48 : UInt8).toNat = 48 := rfl
  have h2 : (13 : UInt8).toNat = 13 := rfl
  have h3 : (32 : UInt8).toNat = 32 := rfl
  omega

theorem isDigit_mark {c : UInt8} (h : isDigit c = true) : isFloatMark c = false := by
  simp only [isDigit, Bool.and_eq_true, decide_eq_true_eq, UInt8.le_iff_toNat_le] at h
  simp only [isFloatMark, Bool.or_eq_false_iff, beq_eq_false_iff_ne, ne_eq, ← UInt8.toNat_inj]
  have h1 : (48 : UInt8).toNat = 48 := rfl
  have h2 : (57 : UInt8).toNat = 57 := rfl
  have h3 : (46 : UInt8).toNat = 46 := rfl
  have h4 : (101 : UInt8).toNat = 101 := rfl
  have h5 : (69 : UInt8).toNat = 69 := rfl
  omega

theorem isDigit_num {c : UInt8} (h : isDigit c = true) : isNumByte c = true := by
  simp [isNumByte, h]

/-- digits, and what is behind them -/
theorem decimal_scan (hs : ∀ m, leadingNat m s = m) :
    ∃ d ds, decimal n ++ s = d :: ds ∧ isDigit d = true ∧
      (d :: ds).dropWhile isSpace = d :: ds ∧ leadingNat 0 (d :: ds) = n := by
  obtain ⟨d, ds, hd, hdigit⟩ := decimal_cons n
  refine ⟨d, ds ++ s, by rw [hd]; rfl, hdigit, ?_, ?_⟩
  · exact List.dropWhile_cons_of_neg (by rw [isDigit_space hdigit]; exact Bool.false_ne_true)
  · rw [← List.cons_append, ← hd, leadingNat_append (decimal_digits n), hs, leadingNat_decimal]

theorem strtoll_decimal (h : n < 2 ^ 63) (hs : ∀ m, leadingNat m s = m) :
    (strtoll (decimal n ++ s)).toInt = n := by
  obtain ⟨d, ds, hd, hdigit, hspace, hval⟩ := decimal_scan (n := n) hs
  have hv : strtoll (d :: ds) = Int64.ofInt n := by
    rw [strtoll, hspace]
    split
    · next h' =>
      cases h'
      cases hdigit
    · next h' =>
      cases h'
      cases hdigit
    · rw [hval, if_neg (by omega), if_neg (by omega)]
  rw [hd, hv]
  exact Int64.toInt_ofInt_of_le (by omega) (by omega)

theorem strtoll_text {x : Number} (hx : x.Int64) : strtoll x.text = Int64.ofInt x.value := by
  obtain ⟨c, cs, hc, hd⟩ := decimal_cons x.int
  have hn := leadingNat_decimal x.int
  have hlo := hx.lower
  have hup := hx.upper
  have hv : ∀ v : Int, v = x.value → (if 2 ^ 63 ≤ v then Int64.maxValue
      else if v < -2 ^ 63 then Int64.minValue else Int64.ofInt v) = Int64.ofInt x.value := by
    rintro v rfl
    rw [if_neg (by omega), if_neg (by omega)]
  unfold strtoll
  apply hv
  rw [text_int hx, Number.value]
  cases x.neg with
  | true =>
    show -(leadingNat 0 (decimal x.int) : Int) = _
    rw [hn]
    rfl
  | false =>
    have hsp : isSpace c = false := isDigit_space hd
    rw [if_neg Bool.false_ne_true, List.nil_append, hc,
      List.dropWhile_cons_of_neg (by rw [hsp]; exact Bool.false_ne_true)]
    split
    · rename_i e
      cases e
      cases hd
    · rename_i e
      cases e
      cases hd
    · rw [← hc, hn]
      rfl

theorem text_bytes {x : Number} (hx : x.Int64) :
    ∀ c ∈ x.text, isNumByte c = true ∧ isFloatMark c = false := by
  intro c hc
  rw [text_int hx] at hc
  rcases List.mem_append.mp hc with hc | hc
  · split at hc
    · obtain rfl := List.mem_singleton.mp hc
      exact ⟨rfl, rfl⟩
    · cases hc
  · have hd := decimal_digits x.int c hc
    exact ⟨isDigit_num hd, isDigit_mark hd⟩

/-- it fits into `tmp` -/
theorem length_text {x : Number} (hx : x.Int64) : x.text.length ≤ 63 := by
  have hlt : x.int < 10 ^ 19 := by
    have hlo := hx.lower
    have hup := hx.upper
    unfold Number.value at hlo hup
    cases h : x.neg <;> simp [h] at hlo hup <;> omega
  have := (Nat.length_toDigits_le_iff (b := 10) (by decide) (by decide)).mpr hlt
  rw [text_int hx, List.length_append, decimal, List.length_map]
  split <;> simp <;> omega

theorem jpNumber_text (strtod : Bytes → Double) {x : Number} (hx : x.Int64) (hr : Ends rest) :
    jpNumber strtod (x.text ++ rest) = (.int (Int64.ofInt x.value), rest) := by
  have hb := text_bytes hx
  have hall : ∀ c ∈ x.text, isNumByte c = true := fun c hc => (hb c hc).1
  have htake : (x.text ++ rest).takeWhile isNumByte = x.text := by
    rw [List.takeWhile_append_of_pos hall]
    cases rest with
    | nil => exact List.append_nil _
    | cons c cs =>
      rw [List.takeWhile_cons_of_neg (by rw [hr c rfl]; exact Bool.false_ne_true), List.append_nil]
  have hdrop : (x.text ++ rest).dropWhile isNumByte = rest := by
    rw [List.dropWhile_append_of_pos hall]
    cases rest with
    | nil => rfl
    | cons c cs => exact List.dropWhile_cons_of_neg (by rw [hr c rfl]; exact Bool.false_ne_true)
  have hne : x.text ≠ [] := by
    obtain ⟨c, cs, hc, -⟩ := decimal_cons x.int
    rw [text_int hx, hc]
    simp
  have hany : x.text.any isFloatMark = false := by
    rw [List.any_eq_false]
    exact fun c hc => by rw [(hb c hc).2]; exact Bool.false_ne_true
  unfold jpNumber
  simp only [htake, hdrop, if_neg hne, List.take_of_length_le (length_text hx), hany,
    strtoll_text hx, Bool.false_eq_true, if_false]

end

end Std
end HolyPhp
