import Mathlib.Data.List.TakeWhile
import Mathlib.Tactic.Common

/-!
# String literals and integer constants of C11

The text of a literal goes through the first phases of a translation: trigraphs are replaced, a
backslash and the newline behind it are taken out, and the escapes of the literal are read.

* `trigraphs`, `splices`  the phases before the tokens;
* `escape`                an escape, behind its backslash; an octal one has up to three digits, a
                          hexadecimal one has as many as there are;
* `body`                  the characters up to the closing quote, and what is behind it;
* `literal`               the value of a text that is one literal;
* `Compiler`              what C11 leaves to the compiler;
* `constant`              the value of an integer constant without a suffix, octal behind a zero.
-/

set_option autoImplicit false

namespace CLiteral

/-! ## digits -/

def isOct (c : UInt8) : Bool := 48 ≤ c && c ≤ 55

def isHex (c : UInt8) : Bool :=
  (48 ≤ c && c ≤ 57) || (65 ≤ c && c ≤ 70) || (97 ≤ c && c ≤ 102)

def digitValue (c : UInt8) : Nat :=
  if c ≤ 57 then c.toNat - 48 else if c ≤ 70 then c.toNat - 55 else c.toNat - 87

def number (base : Nat) (ds : List UInt8) : Nat :=
  ds.foldl (fun v c => base * v + digitValue c) 0

def isDec (c : UInt8) : Bool := 48 ≤ c && c ≤ 57

def constant : List UInt8 → Option Nat
  | [] => none
  | c :: s =>
    if c = 48 then if s.all isOct then some (number 8 s) else none
    else if (c :: s).all isDec then some (number 10 (c :: s))
    else none

/-! ## the phases before the tokens -/

/-- what two question marks and the character stand for -/
def trigraph (c : UInt8) : Option UInt8 :=
  if c = 61 then some 35
  else if c = 40 then some 91
  else if c = 47 then some 92
  else if c = 41 then some 93
  else if c = 39 then some 94
  else if c = 60 then some 123
  else if c = 33 then some 124
  else if c = 62 then some 125
  else if c = 45 then some 126
  else none

def trigraphs : List UInt8 → List UInt8
  | [] => []
  | [a] => [a]
  | [a, b] => [a, b]
  | a :: b :: c :: s =>
    match if a = 63 ∧ b = 63 then trigraph c else none with
    | some d => d :: trigraphs s
    | none => a :: trigraphs (b :: c :: s)

def splices : List UInt8 → List UInt8
  | [] => []
  | [a] => [a]
  | a :: b :: s => if a = 92 ∧ b = 10 then splices s else a :: splices (b :: s)

/-! ## escapes -/

structure Compiler where
  /-- a value that does not fit in a byte -/
  outOfRange : Nat → Option UInt8
  /-- a backslash in front of a character that begins no escape -/
  unknown : UInt8 → Option UInt8

/-- the escapes of one character -/
def simple (c : UInt8) : Option UInt8 :=
  if c = 39 ∨ c = 34 ∨ c = 63 ∨ c = 92 then some c
  else if c = 97 then some 7
  else if c = 98 then some 8
  else if c = 102 then some 12
  else if c = 110 then some 10
  else if c = 114 then some 13
  else if c = 116 then some 9
  else if c = 118 then some 11
  else none

/-- a universal character name, in UTF-8 -/
def universal (v : Nat) : Option (List UInt8) :=
  if (v = 36 ∨ v = 64 ∨ v = 96 ∨ 160 ≤ v) ∧ (v < 0xD800 ∨ (0xDFFF < v ∧ v < 0x110000)) then
    some (String.utf8EncodeChar (Char.ofNat v))
  else none

def ucn (n : Nat) (s : List UInt8) : Option (List UInt8 × List UInt8) :=
  let ds := (s.take n).takeWhile isHex
  if ds.length = n then (universal (number 16 ds)).map fun v => (v, s.drop n) else none

variable (k : Compiler)

def byteOf (v : Nat) : Option UInt8 :=
  if v < 256 then some (UInt8.ofNat v) else k.outOfRange v

/-- behind the backslash: the bytes of the value, and what follows -/
def escape : List UInt8 → Option (List UInt8 × List UInt8)
  | [] => none
  | c :: s =>
    match simple c with
    | some d => some ([d], s)
    | none =>
      if isOct c then
        let ds := ((c :: s).take 3).takeWhile isOct
        (byteOf k (number 8 ds)).map fun b => ([b], (c :: s).drop ds.length)
      else if c = 120 then
        let ds := s.takeWhile isHex
        if ds = [] then none
        else (byteOf k (number 16 ds)).map fun b => ([b], s.drop ds.length)
      else if c = 117 then ucn 4 s
      else if c = 85 then ucn 8 s
      else if c = 10 then none
      else (k.unknown c).map fun d => ([d], s)

theorem escape_lt {s v r : List UInt8} (h : escape k s = some (v, r)) : r.length < s.length := by
  cases s with
  | nil => cases h
  | cons c s =>
    have hucn : ∀ {n}, ucn n s = some (v, r) → r.length < (c :: s).length := by
      intro n h
      unfold ucn at h
      dsimp only at h
      split at h
      · obtain ⟨x, -, hx⟩ := Option.map_eq_some_iff.1 h
        cases hx
        rw [List.length_drop, List.length_cons]
        omega
      · cases h
    rw [escape] at h
    split at h
    · cases h
      exact Nat.lt_succ_self _
    split at h
    next hc =>
      obtain ⟨x, -, hx⟩ := Option.map_eq_some_iff.1 h
      cases hx
      have hpos : 0 < (((c :: s).take 3).takeWhile isOct).length := by
        rw [List.take_succ_cons, List.takeWhile_cons, if_pos hc]
        exact Nat.succ_pos _
      rw [List.length_drop, List.length_cons]
      omega
    split at h
    · dsimp only at h
      split at h
      · cases h
      · obtain ⟨x, -, hx⟩ := Option.map_eq_some_iff.1 h
        cases hx
        rw [List.length_drop, List.length_cons]
        omega
    split at h
    · exact hucn h
    split at h
    · exact hucn h
    split at h
    · cases h
    · obtain ⟨x, -, hx⟩ := Option.map_eq_some_iff.1 h
      cases hx
      exact Nat.lt_succ_self _

/-! ## literals -/

/-- the characters of a literal: their value, and what is behind the closing quote -/
def body (s : List UInt8) : Option (List UInt8 × List UInt8) :=
  match s with
  | [] => none
  | c :: s =>
    if c = 34 then some ([], s)
    else if c = 10 then none
    else if c = 92 then
      match _ : escape k s with
      | none => none
      | some (v, r) => (body r).map fun p => (v ++ p.1, p.2)
    else (body s).map fun p => (c :: p.1, p.2)
  termination_by s.length
  decreasing_by
    · exact (escape_lt k ‹_›).trans (Nat.lt_succ_self _)
    · exact Nat.lt_succ_self _

/-- the value of a text that is one literal and nothing else -/
def literal (s : List UInt8) : Option (List UInt8) :=
  match splices (trigraphs s) with
  | c :: t =>
    if c = 34 then
      match body k t with
      | some (v, []) => some v
      | _ => none
    else none
  | [] => none

/-! ## the phases, step by step -/

section
variable {k} {a c d : UInt8} {s r v w : List UInt8}

theorem trigraphs_char (h : ∀ c t, a = 63 → s = 63 :: c :: t → trigraph c = none) :
    trigraphs (a :: s) = a :: trigraphs s := by
  match s with
  | [] => rfl
  | [b] => rfl
  | b :: c :: t =>
    rw [trigraphs]
    by_cases hab : a = 63 ∧ b = 63
    · rw [if_pos hab, h c t hab.1 (by rw [hab.2])]
    · rw [if_neg hab]

theorem trigraphs_ne (h : a ≠ 63) : trigraphs (a :: s) = a :: trigraphs s :=
  trigraphs_char fun _ _ ha => absurd ha h

theorem trigraphs_some (h : trigraph c = some d) :
    trigraphs (63 :: 63 :: c :: s) = d :: trigraphs s := by
  rw [trigraphs, if_pos ⟨rfl, rfl⟩, h]

theorem trigraphs_append (h : ∀ a ∈ w, a ≠ 63) : trigraphs (w ++ s) = w ++ trigraphs s := by
  induction w with
  | nil => rfl
  | cons a w ih =>
    rw [List.cons_append, trigraphs_ne (h a List.mem_cons_self),
      ih fun b hb => h b (List.mem_cons_of_mem a hb)]
    rfl

theorem splices_id (h : 10 ∉ s) : splices s = s := by
  fun_induction splices s with
  | case1 => rfl
  | case2 => rfl
  | case3 a b s hab _ => exact absurd (by simp [hab.2]) h
  | case4 a b s _ ih => rw [ih fun hm => h (List.mem_cons_of_mem a hm)]

/-- what a trigraph stands for is no digit, no quote, no question mark and no newline -/
theorem trigraph_plain (h : trigraph c = some d) :
    isHex d = false ∧ d ≠ 34 ∧ d ≠ 10 ∧ d ≠ 63 ∧ (d = 92 ∨ simple d = none) ∧ d ≠ 120 ∧
      d ≠ 117 ∧ d ≠ 85 := by
  unfold trigraph at h
  split_ifs at h <;> cases h <;> decide

/-! ## literals, step by step -/

theorem body_quote : body k (34 :: s) = some ([], s) := by
  rw [body, if_pos rfl]

theorem body_char (h34 : c ≠ 34) (h10 : c ≠ 10) (h92 : c ≠ 92) :
    body k (c :: s) = (body k s).map fun p => (c :: p.1, p.2) := by
  rw [body, if_neg h34, if_neg h10, if_neg h92]

theorem body_escape (h : escape k s = some (v, r)) :
    body k (92 :: s) = (body k r).map fun p => (v ++ p.1, p.2) := by
  rw [body, if_neg (by decide), if_neg (by decide), if_pos rfl]
  split
  next h' =>
    rw [h] at h'
    cases h'
  next h' =>
    rw [h] at h'
    cases h'
    rfl

theorem body_escape_none (h : escape k s = none) : body k (92 :: s) = none := by
  rw [body, if_neg (by decide), if_neg (by decide), if_pos rfl]
  split
  · rfl
  next h' =>
    rw [h] at h'
    cases h'

theorem escape_simple (h : simple c = some d) : escape k (c :: s) = some ([d], s) := by
  rw [escape, h]

theorem escape_hex {ds : List UInt8} (hd : ds ≠ []) (h : ∀ c ∈ ds, isHex c = true)
    (hr : ∀ c t, r = c :: t → isHex c = false) :
    escape k (120 :: (ds ++ r)) = (byteOf k (number 16 ds)).map fun b => ([b], r) := by
  have ht : (ds ++ r).takeWhile isHex = ds := by
    rw [List.takeWhile_append_of_pos h]
    cases r with
    | nil => simp
    | cons c t => rw [List.takeWhile_cons_of_neg (by simp [hr c t rfl]), List.append_nil]
  rw [escape]
  show (if isOct 120 = true then _ else _) = _
  rw [if_neg (by decide), if_pos rfl]
  dsimp only
  rw [ht, if_neg hd, List.drop_left]

end

end CLiteral
