import HolyPhp.Runtime.Value

/-!
# `mysql_escape`

* `hpbiMysqlEscape`   the function;
* `scan`              a string literal of the server: its value, and what is behind it.

**`scan_escape`**: in quotes, what is escaped is one literal.
-/

set_option autoImplicit false

namespace HolyPhp
namespace Mysql

/-- the branches of the `switch` -/
def escapeByte (ch : UInt8) : Bytes :=
  if ch = 0 then [92, 48]
  else if ch = 10 then [92, 110]
  else if ch = 13 then [92, 114]
  else if ch = 92 then [92, 92]
  else if ch = 39 then [92, 39]
  else if ch = 34 then [92, 34]
  else if ch = 26 then [92, 90]
  else [ch]

def hpbiMysqlEscape (s : Bytes) : Bytes := s.flatMap escapeByte

/-! ## string literals -/

/-- what a backslash and `c` stand for; before `%` and `_` the backslash stays -/
def escapeValue (c : UInt8) : Bytes :=
  if c = 48 then [0]
  else if c = 98 then [8]
  else if c = 110 then [10]
  else if c = 114 then [13]
  else if c = 116 then [9]
  else if c = 90 then [26]
  else if c = 37 ∨ c = 95 then [92, c]
  else [c]

/-- from behind the opening quote `q` on -/
def literal (q : UInt8) : Bytes → Option (Bytes × Bytes)
  | [] => none
  | [c] => if c = q then some ([], []) else none
  | c :: d :: s =>
    if c = 92 then (literal q s).map fun r => (escapeValue d ++ r.1, r.2)
    else if c = q then some ([], d :: s)
    else (literal q (d :: s)).map fun r => (c :: r.1, r.2)

def scan : Bytes → Option (Bytes × Bytes)
  | [] => none
  | q :: s => if q = 39 ∨ q = 34 then literal q s else none

section
variable {q c : UInt8} {s : Bytes}

theorem literal_end (hq : q ≠ 92) (s : Bytes) : literal q (q :: s) = some ([], s) := by
  cases s with
  | nil => exact if_pos rfl
  | cons d s => rw [literal, if_neg hq, if_pos rfl]

theorem literal_plain (hc : c ≠ 92) (hq : c ≠ q) (s : Bytes) :
    literal q (c :: s) = (literal q s).map fun r => (c :: r.1, r.2) := by
  cases s with
  | nil => exact if_neg hq
  | cons d s => rw [literal, if_neg hc, if_neg hq]

/-- **One byte** of the string is one character of the literal. -/
theorem literal_escapeByte (hq : q = 39 ∨ q = 34) (c : UInt8) (s : Bytes) :
    literal q (escapeByte c ++ s) = (literal q s).map fun r => (c :: r.1, r.2) := by
  have hpair : ∀ d, literal q ([92, d] ++ s) =
      (literal q s).map fun r => (escapeValue d ++ r.1, r.2) := fun d => if_pos rfl
  unfold escapeByte
  split_ifs with h0 h10 h13 h92 h39 h34 h26
  · rw [hpair, h0]
    rfl
  · rw [hpair, h10]
    rfl
  · rw [hpair, h13]
    rfl
  · rw [hpair, h92]
    rfl
  · rw [hpair, h39]
    rfl
  · rw [hpair, h34]
    rfl
  · rw [hpair, h26]
    rfl
  · refine literal_plain h92 ?_ s
    rcases hq with rfl | rfl
    · exact h39
    · exact h34

/-- from any place of the string to the closing quote -/
theorem literal_escape (hq : q = 39 ∨ q = 34) (s rest : Bytes) :
    literal q (hpbiMysqlEscape s ++ q :: rest) = some (s, rest) := by
  have h92 : q ≠ 92 := by
    rcases hq with rfl | rfl <;> decide
  unfold hpbiMysqlEscape
  induction s with
  | nil => exact literal_end h92 rest
  | cons c s ih =>
    rw [List.flatMap_cons, List.append_assoc, literal_escapeByte hq, ih]
    rfl

/-- **Nothing breaks out**: the literal ends at the quote behind the string, whatever follows, and
its value is the string. -/
theorem scan_escape (s rest : Bytes) :
    scan ([39] ++ hpbiMysqlEscape s ++ [39] ++ rest) = some (s, rest) ∧
      scan ([34] ++ hpbiMysqlEscape s ++ [34] ++ rest) = some (s, rest) := by
  have hscan : ∀ q : UInt8, q = 39 ∨ q = 34 →
      scan ([q] ++ hpbiMysqlEscape s ++ [q] ++ rest) = some (s, rest) := by
    intro q hq
    rw [List.append_assoc, List.append_assoc]
    show (if q = 39 ∨ q = 34 then literal q (hpbiMysqlEscape s ++ q :: rest) else none) = _
    rw [if_pos hq, literal_escape hq]
  exact ⟨hscan 39 (.inl rfl), hscan 34 (.inr rfl)⟩

/-- `' OR 1=1 --` and a backslash at the end -/
example : hpbiMysqlEscape [39, 32, 79, 82, 92] = [92, 39, 32, 79, 82, 92, 92] := by decide

end

end Mysql
end HolyPhp
