import HolyPhp.Lib.Assoc
import Mathlib.Algebra.Group.Int.Defs

/-!
# JSON texts

The concrete syntax trees of the JSON grammar, over bytes: a tree holds everything that its text
shows, so a text of the grammar is the `text` of a tree.

* `Value`        what texts denote; a map is a list of entries, in order;
* `Ch`, `Number`, `Cst`   characters of strings, numbers, values with their whitespace;
* `Cst.text`, `Cst.denote`   the bytes of a tree and the value it denotes: the last value of a
                 repeated key wins, in the place of the first;
* `Cst.All`      a condition on all strings, numbers and objects of a tree;
* `Cst.Rfc`      the strings are UTF-8 without raw control characters, quotes or backslashes.
-/

namespace Json
open Assoc

abbrev Bytes := List UInt8

/-! ## values -/

inductive Key where
  | int (i : Int64)
  | str (s : Bytes)
  deriving DecidableEq

inductive Value where
  | null
  | bool (b : Bool)
  | int (i : Int64)
  | str (s : Bytes)
  | list (xs : List Value)
  | map (kvs : List (Key × Value))

/-- induction over a value with lists and maps of values -/
theorem Value.ind {P : Value → Prop} (null : P .null) (bool : ∀ b, P (.bool b))
    (int : ∀ i, P (.int i)) (str : ∀ s, P (.str s))
    (list : ∀ xs, (∀ x ∈ xs, P x) → P (.list xs))
    (map : ∀ kvs, (∀ kv ∈ kvs, P kv.2) → P (.map kvs)) (v : Value) : P v := by
  cases v with
  | null => exact null
  | bool b => exact bool b
  | int i => exact int i
  | str s => exact str s
  | list xs => exact list xs fun x hx => Value.ind null bool int str list map x
  | map kvs => exact map kvs fun kv hkv => Value.ind null bool int str list map kv.2
termination_by sizeOf v
decreasing_by
  · have := List.sizeOf_lt_of_mem hx
    subst_vars
    simp only [Value.list.sizeOf_spec]
    omega
  · have := List.sizeOf_lt_of_mem hkv
    obtain ⟨k, v'⟩ := kv
    subst_vars
    simp only [Value.map.sizeOf_spec, Prod.mk.sizeOf_spec] at this ⊢
    omega

/-- all strings satisfy `S`, and the keys of every map satisfy `M` -/
inductive Value.Each (S : Bytes → Prop) (M : List Key → Prop) : Value → Prop
  | null : Each S M .null
  | bool (b : Bool) : Each S M (.bool b)
  | int (i : Int64) : Each S M (.int i)
  | str {s : Bytes} : S s → Each S M (.str s)
  | list {xs : List Value} : (∀ x ∈ xs, Each S M x) → Each S M (.list xs)
  | map {kvs : List (Key × Value)} : M (kvs.map Prod.fst) → (∀ kv ∈ kvs, Each S M kv.2) →
      Each S M (.map kvs)

theorem Value.Each.and {S S₁ S₂ : Bytes → Prop} {M M₁ M₂ : List Key → Prop} {v : Value}
    (hS : ∀ s, S₁ s → S₂ s → S s) (hM : ∀ ks, M₁ ks → M₂ ks → M ks) (h₁ : v.Each S₁ M₁)
    (h₂ : v.Each S₂ M₂) : v.Each S M := by
  induction h₁ with
  | null => exact .null
  | bool b => exact .bool b
  | int i => exact .int i
  | str h =>
    cases h₂ with
    | str h' => exact .str (hS _ h h')
  | list _ ih =>
    cases h₂ with
    | list h' => exact .list fun x hx => ih x hx (h' x hx)
  | map h _ ih =>
    cases h₂ with
    | map h' hv => exact .map (hM _ h h') fun kv hkv => ih kv hkv (hv kv hkv)

/-! ## characters -/

inductive Ws where
  | space | tab | lf | cr
  deriving DecidableEq

def Ws.byte : Ws → UInt8
  | space => 32
  | tab => 9
  | lf => 10
  | cr => 13

def ws (w : List Ws) : Bytes := w.map Ws.byte

structure Hex where
  val : Fin 16
  upper : Bool

def Hex.byte (h : Hex) : UInt8 :=
  if h.val.val < 10 then UInt8.ofNat (48 + h.val.val)
  else UInt8.ofNat ((if h.upper then 55 else 87) + h.val.val)

/-- the characters behind a backslash other than `u` -/
inductive Esc where
  | quote | backslash | slash | b | f | n | r | t
  deriving DecidableEq

def Esc.letter : Esc → UInt8
  | quote => 34
  | backslash => 92
  | slash => 47
  | b => 98
  | f => 102
  | n => 110
  | r => 114
  | t => 116

def Esc.byte : Esc → UInt8
  | quote => 34
  | backslash => 92
  | slash => 47
  | b => 8
  | f => 12
  | n => 10
  | r => 13
  | t => 9

inductive Ch where
  | raw (b : UInt8)
  | esc (e : Esc)
  | hex (a b c d : Hex)

/-- the code point of four digits -/
def codePoint (a b c d : Hex) : Nat :=
  ((a.val.val * 16 + b.val.val) * 16 + c.val.val) * 16 + d.val.val

def Ch.text : Ch → Bytes
  | raw b => [b]
  | esc e => [92, e.letter]
  | hex a b c d => [92, 117, a.byte, b.byte, c.byte, d.byte]

def Ch.denote : Ch → Bytes
  | raw b => [b]
  | esc e => [e.byte]
  | hex a b c d => String.utf8EncodeChar (Char.ofNat (codePoint a b c d))

def chars (s : List Ch) : Bytes := s.flatMap Ch.text

def bytes (s : List Ch) : Bytes := s.flatMap Ch.denote

/-- a byte of a UTF-8 sequence is the character itself, or no ASCII -/
theorem utf8_byte {c : Char} {b : UInt8} (h : b ∈ String.utf8EncodeChar c) :
    128 ≤ b.toNat ∨ (c.toNat < 128 ∧ b.toNat = c.toNat) := by
  have hc : c.toNat = c.val.toNat := rfl
  unfold String.utf8EncodeChar at h
  dsimp only at h
  split at h
  · rename_i h1
    obtain rfl := List.mem_singleton.mp h
    right
    refine ⟨by omega, ?_⟩
    rw [UInt8.toNat_ofNat', Nat.mod_eq_of_lt (by omega), hc]
  · left
    have hge : ∀ a m k : Nat, 0 < m → 128 ≤ k → m + k ≤ 256 →
        128 ≤ (UInt8.ofNat (a % m + k)).toNat := by
      intro a m k hm hk hmk
      have := Nat.mod_lt a hm
      rw [UInt8.toNat_ofNat', Nat.mod_eq_of_lt (by omega)]
      omega
    split at h
    · simp only [List.mem_cons, List.not_mem_nil, or_false] at h
      rcases h with rfl | rfl <;> exact hge _ _ _ (by decide) (by decide) (by decide)
    · split at h <;> simp only [List.mem_cons, List.not_mem_nil, or_false] at h
      · rcases h with rfl | rfl | rfl <;> exact hge _ _ _ (by decide) (by decide) (by decide)
      · rcases h with rfl | rfl | rfl | rfl <;> exact hge _ _ _ (by decide) (by decide) (by decide)

theorem utf8_ascii {b : UInt8} (h : b.toNat < 128) :
    (Char.ofNat b.toNat).toNat = b.toNat ∧ String.utf8EncodeChar (Char.ofNat b.toNat) = [b] := by
  have hc : (Char.ofNat b.toNat).val.toNat = b.toNat := by
    rw [Char.ofNat, dif_pos (.inl (by omega))]
    rfl
  refine ⟨hc, ?_⟩
  unfold String.utf8EncodeChar
  dsimp only
  rw [hc, if_pos (by omega), UInt8.ofNat_toNat]

/-- with its quotes -/
def string (s : List Ch) : Bytes := 34 :: (chars s ++ [34])

/-- UTF-8 without control characters, quotes and backslashes, and escapes -/
inductive StrOk : List Ch → Prop
  | nil : StrOk []
  | char {c : Char} {s : List Ch} : 32 ≤ c.toNat → c ≠ '"' → c ≠ '\\' → StrOk s →
      StrOk ((String.utf8EncodeChar c).map Ch.raw ++ s)
  | esc {e : Esc} {s : List Ch} : StrOk s → StrOk (.esc e :: s)
  | hex {a b c d : Hex} {s : List Ch} : StrOk s → StrOk (.hex a b c d :: s)

/-- the bytes of a character that needs no escape need none -/
theorem utf8_plain {c : Char} {b : UInt8} (h32 : 32 ≤ c.toNat) (hq : c ≠ '"') (hb : c ≠ '\\')
    (h : b ∈ String.utf8EncodeChar c) : 32 ≤ b.toNat ∧ b ≠ 34 ∧ b ≠ 92 := by
  have hne : ∀ y : Char, y.toNat < 128 → c ≠ y → b.toNat ≠ y.toNat := by
    intro y hy hcy he
    rcases utf8_byte h with h | ⟨-, h⟩
    · omega
    · exact hcy (Char.toNat_inj.mp (h.symm.trans he))
  refine ⟨?_, ?_, ?_⟩
  · rcases utf8_byte h with h | ⟨-, h⟩ <;> omega
  · rintro rfl
    exact hne '"' (by decide) hq rfl
  · rintro rfl
    exact hne '\\' (by decide) hb rfl

theorem StrOk.raw_plain {s : List Ch} (hs : StrOk s) {b : UInt8} (hb : .raw b ∈ s) :
    32 ≤ b.toNat ∧ b ≠ 34 ∧ b ≠ 92 := by
  induction hs with
  | nil => cases hb
  | char h32 hq hbs _ ih =>
    rcases List.mem_append.mp hb with hb | hb
    · obtain ⟨c, hc, h⟩ := List.mem_map.mp hb
      exact utf8_plain h32 hq hbs (Ch.raw.inj h ▸ hc)
    · exact ih hb
  | esc _ ih =>
    rcases List.mem_cons.mp hb with h | hb
    · cases h
    · exact ih hb
  | hex _ ih =>
    rcases List.mem_cons.mp hb with h | hb
    · cases h
    · exact ih hb

/-- a raw character of ASCII -/
theorem StrOk.raw {b : UInt8} {s : List Ch} (h32 : 32 ≤ b.toNat) (h128 : b.toNat < 128)
    (hq : b ≠ 34) (hb : b ≠ 92) (hs : StrOk s) : StrOk (.raw b :: s) := by
  obtain ⟨hn, he⟩ := utf8_ascii h128
  have hne : ∀ (c : UInt8) (x : Char), x.toNat = c.toNat → b ≠ c → Char.ofNat b.toNat ≠ x := by
    rintro c x hx hc rfl
    exact hc (UInt8.toNat_inj.mp (hn.symm.trans hx))
  have := StrOk.char (c := Char.ofNat b.toNat) (by omega) (hne 34 '"' rfl hq)
    (hne 92 '\\' rfl hb) hs
  rwa [he] at this

theorem StrOk.of_raw {l : Bytes} (h : ∀ b ∈ l, 32 ≤ b.toNat ∧ b.toNat < 128 ∧ b ≠ 34 ∧ b ≠ 92) :
    StrOk (l.map Ch.raw) := by
  induction l with
  | nil => exact .nil
  | cons b l ih =>
    obtain ⟨h32, h128, hq, hb⟩ := h b List.mem_cons_self
    exact .raw h32 h128 hq hb (ih fun c hc => h c (List.mem_cons_of_mem b hc))

/-! ## numbers -/

def decimal (n : Nat) : Bytes := (Nat.toDigits 10 n).map fun c => c.toNat.toUInt8

def digits (l : List (Fin 10)) : Bytes := l.map fun d => UInt8.ofNat (48 + d.val)

structure Exp where
  upper : Bool
  /-- the sign, if there is one: true for `-` -/
  sign : Option Bool
  first : Fin 10
  rest : List (Fin 10)

structure Number where
  neg : Bool
  int : Nat
  /-- empty: no fraction -/
  frac : List (Fin 10)
  exp : Option Exp

def Exp.text (e : Exp) : Bytes :=
  (if e.upper then 69 else 101) ::
    ((match e.sign with
      | none => []
      | some true => [45]
      | some false => [43]) ++ digits (e.first :: e.rest))

def Number.text (n : Number) : Bytes :=
  (if n.neg then [45] else []) ++ decimal n.int ++
    (if n.frac = [] then [] else 46 :: digits n.frac) ++
    match n.exp with
    | none => []
    | some e => e.text

/-- the value of a number without fraction and exponent -/
def Number.value (n : Number) : Int := if n.neg then -(n.int : Int) else n.int

/-- an integer of 64 bits -/
structure Number.Int64 (n : Number) : Prop where
  frac : n.frac = []
  exp : n.exp = none
  lower : -2 ^ 63 ≤ n.value
  upper : n.value < 2 ^ 63

/-! ## values with their whitespace -/

mutual

inductive Cst where
  | null
  | true
  | false
  | num (n : Number)
  | str (s : List Ch)
  | arrEmpty (w : List Ws)
  | arr (xs : Items)
  | objEmpty (w : List Ws)
  | obj (ms : Members)

inductive Items where
  | last (w : List Ws) (v : Cst) (w' : List Ws)
  | cons (w : List Ws) (v : Cst) (w' : List Ws) (xs : Items)

inductive Members where
  | last (w : List Ws) (k : List Ch) (w₁ w₂ : List Ws) (v : Cst) (w' : List Ws)
  | cons (w : List Ws) (k : List Ch) (w₁ w₂ : List Ws) (v : Cst) (w' : List Ws) (ms : Members)

end

mutual

def Cst.text : Cst → Bytes
  | .null => [110, 117, 108, 108]
  | .true => [116, 114, 117, 101]
  | .false => [102, 97, 108, 115, 101]
  | .num n => n.text
  | .str s => string s
  | .arrEmpty w => 91 :: (ws w ++ [93])
  | .arr xs => 91 :: (xs.text ++ [93])
  | .objEmpty w => 123 :: (ws w ++ [125])
  | .obj ms => 123 :: (ms.text ++ [125])

def Items.text : Items → Bytes
  | .last w v w' => ws w ++ v.text ++ ws w'
  | .cons w v w' xs => ws w ++ v.text ++ ws w' ++ 44 :: xs.text

def Members.text : Members → Bytes
  | .last w k w₁ w₂ v w' => ws w ++ string k ++ ws w₁ ++ 58 :: (ws w₂ ++ v.text ++ ws w')
  | .cons w k w₁ w₂ v w' ms =>
    ws w ++ string k ++ ws w₁ ++ 58 :: (ws w₂ ++ v.text ++ ws w') ++ 44 :: ms.text

end

mutual

def Cst.denote : Cst → Value
  | .null => .null
  | .true => .bool Bool.true
  | .false => .bool Bool.false
  | .num n => .int (Int64.ofInt n.value)
  | .str s => .str (bytes s)
  | .arrEmpty _ => .list []
  | .arr xs => .list xs.denote
  | .objEmpty _ => .map []
  | .obj ms => .map (ms.denote [])

def Items.denote : Items → List Value
  | .last _ v _ => [v.denote]
  | .cons _ v _ xs => v.denote :: xs.denote

/-- the entries after these members -/
def Members.denote : Members → List (Key × Value) → List (Key × Value)
  | .last _ k _ _ v _, l => assign l (.str (bytes k)) v.denote
  | .cons _ k _ _ v _ ms, l => ms.denote (assign l (.str (bytes k)) v.denote)

end

section
variable (S : List Ch → Prop) (N : Number → Prop) (M : Members → Prop)

mutual

/-- all strings, numbers and objects of the tree meet the conditions -/
def Cst.All : Cst → Prop
  | .num n => N n
  | .str s => S s
  | .arr xs => xs.All
  | .obj ms => M ms ∧ ms.All
  | _ => True

def Items.All : Items → Prop
  | .last _ v _ => v.All
  | .cons _ v _ xs => v.All ∧ xs.All

def Members.All : Members → Prop
  | .last _ k _ _ v _ => S k ∧ v.All
  | .cons _ k _ _ v _ ms => S k ∧ v.All ∧ ms.All

end
end

/-- a text of the grammar -/
def Cst.Rfc (t : Cst) : Prop := t.All StrOk (fun _ => True) fun _ => True

section
variable {S S₁ S₂ : List Ch → Prop} {N N₁ N₂ : Number → Prop} {M M₁ M₂ : Members → Prop}

mutual

theorem Cst.All.and (hS : ∀ s, S₁ s → S₂ s → S s) (hN : ∀ n, N₁ n → N₂ n → N n)
    (hM : ∀ m, M₁ m → M₂ m → M m) : ∀ t : Cst, t.All S₁ N₁ M₁ → t.All S₂ N₂ M₂ → t.All S N M
  | .null, h, _ => h
  | .true, h, _ => h
  | .false, h, _ => h
  | .num n, h₁, h₂ => hN n h₁ h₂
  | .str s, h₁, h₂ => hS s h₁ h₂
  | .arrEmpty _, h, _ => h
  | .arr xs, h₁, h₂ => Items.All.and hS hN hM xs h₁ h₂
  | .objEmpty _, h, _ => h
  | .obj ms, h₁, h₂ => ⟨hM ms h₁.1 h₂.1, Members.All.and hS hN hM ms h₁.2 h₂.2⟩

theorem Items.All.and (hS : ∀ s, S₁ s → S₂ s → S s) (hN : ∀ n, N₁ n → N₂ n → N n)
    (hM : ∀ m, M₁ m → M₂ m → M m) :
    ∀ xs : Items, xs.All S₁ N₁ M₁ → xs.All S₂ N₂ M₂ → xs.All S N M
  | .last _ v _, h₁, h₂ => Cst.All.and hS hN hM v h₁ h₂
  | .cons _ v _ xs, h₁, h₂ =>
    ⟨Cst.All.and hS hN hM v h₁.1 h₂.1, Items.All.and hS hN hM xs h₁.2 h₂.2⟩

theorem Members.All.and (hS : ∀ s, S₁ s → S₂ s → S s) (hN : ∀ n, N₁ n → N₂ n → N n)
    (hM : ∀ m, M₁ m → M₂ m → M m) :
    ∀ ms : Members, ms.All S₁ N₁ M₁ → ms.All S₂ N₂ M₂ → ms.All S N M
  | .last _ k _ _ v _, h₁, h₂ => ⟨hS k h₁.1 h₂.1, Cst.All.and hS hN hM v h₁.2 h₂.2⟩
  | .cons _ k _ _ v _ ms, h₁, h₂ => ⟨hS k h₁.1 h₂.1, Cst.All.and hS hN hM v h₁.2.1 h₂.2.1,
      Members.All.and hS hN hM ms h₁.2.2 h₂.2.2⟩

end
end

section
variable {M : Members → Prop}

theorem zero_ws (w : List Ws) : 0 ∉ ws w := by
  rw [ws, List.mem_map]
  rintro ⟨c, -, hc⟩
  cases c <;> cases hc

theorem zero_string {s : List Ch} (h : 0 ∉ chars s) : 0 ∉ string s := by
  simp [string, h]

mutual

/-- a text without NUL -/
theorem Cst.zero_text : ∀ t : Cst, t.All (0 ∉ chars ·) (0 ∉ ·.text) M → 0 ∉ t.text
  | .null, _ => by decide
  | .true, _ => by decide
  | .false, _ => by decide
  | .num n, h => h
  | .str s, h => zero_string h
  | .arrEmpty w, _ => by simp [Cst.text, zero_ws]
  | .arr xs, h => by simp [Cst.text, Items.zero_text xs h]
  | .objEmpty w, _ => by simp [Cst.text, zero_ws]
  | .obj ms, h => by simp [Cst.text, Members.zero_text ms h.2]

theorem Items.zero_text : ∀ xs : Items, xs.All (0 ∉ chars ·) (0 ∉ ·.text) M → 0 ∉ xs.text
  | .last w v w', h => by simp [Items.text, zero_ws, Cst.zero_text v h]
  | .cons w v w' xs, h => by
    simp [Items.text, zero_ws, Cst.zero_text v h.1, Items.zero_text xs h.2]

theorem Members.zero_text : ∀ ms : Members, ms.All (0 ∉ chars ·) (0 ∉ ·.text) M → 0 ∉ ms.text
  | .last w k w₁ w₂ v w', h => by
    simp [Members.text, zero_ws, zero_string h.1, Cst.zero_text v h.2]
  | .cons w k w₁ w₂ v w' ms, h => by
    simp [Members.text, zero_ws, zero_string h.1, Cst.zero_text v h.2.1,
      Members.zero_text ms h.2.2]

end
end

end Json
