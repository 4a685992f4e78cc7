import HolyPhp.Codegen.Binop
import HolyPhp.Runtime.IntDiv

/-!
# Operators on two integer literals

The compiler computes them itself and emits the literal.  It is a C program too: the remainder it
takes is a division instruction, and that traps where the one of the emitted code would.

* `foldIntBinop`     what the compiler computes, and `COp.run` what the emitted operator does;
* `emitBinop_text`   the code that is emitted for two literals, as `Code`;
* `Agrees`           the folding does not trap, and its literal is what the operator gives;
* `agrees_iff`       **they agree on all operands but `INT64_MIN % -1`.**
-/

set_option autoImplicit false

namespace HolyPhp
namespace Fold
open HolyPhp.Std
open Lexer (TokKind)
open Str (hpStrFromInt)
open IntDiv (Outcome DivTraps cRem hpModI)
open Binop (Shape Flags Expr printed)

/-! ## the two sides -/

/-- `fold_int_binop`; `none` is its `false` -/
def foldIntBinop (op : TokKind) (a b : Int64) : Option Outcome :=
  match op with
  | .plus => some (.value (a + b))
  | .minus => some (.value (a - b))
  | .star => some (.value (a * b))
  | .percent => if b = 0 then none else some (cRem a b)
  | .shl => if b < 0 ∨ 63 < b then none else some (.value (a <<< b))
  | .shr => if b < 0 ∨ 63 < b then none else some (.value (a >>> b))
  | .amp => some (.value (a &&& b))
  | .pipe => some (.value (a ||| b))
  | .caret => some (.value (a ^^^ b))
  | _ => none

/-- what is emitted for the operators of two integers -/
inductive COp where
  | add | sub | mul | shl | shr | modI | and | or | xor
  deriving DecidableEq

namespace COp

def shape : COp → Shape
  | add => Binop.shape "((" ") + (" "))"
  | sub => Binop.shape "((" ") - (" "))"
  | mul => Binop.shape "((" ") * (" "))"
  | shl => Binop.shape "(hp_val_to_int(hv(" ")) << hp_val_to_int(hv(" ")))"
  | shr => Binop.shape "(hp_val_to_int(hv(" ")) >> hp_val_to_int(hv(" ")))"
  | modI => Binop.shape "hp_mod_i(" ", " ")"
  | and => Binop.shape "((" ") & (" "))"
  | or => Binop.shape "((" ") | (" "))"
  | xor => Binop.shape "((" ") ^ (" "))"

/-- the shift by a count outside of the word is not defined -/
def shift (f : Int64 → Int64 → Int64) (a b : Int64) : Option Outcome :=
  if 0 ≤ b ∧ b < 64 then some (.value (f a b)) else none

/-- sums, differences and products wrap; `hv` boxes the operands of a shift -/
def run (c : COp) (a b : Int64) : Option Outcome :=
  match c with
  | add => some (.value (a + b))
  | sub => some (.value (a - b))
  | mul => some (.value (a * b))
  | shl => shift (· <<< ·) (hpValToInt (.int a)) (hpValToInt (.int b))
  | shr => shift (· >>> ·) (hpValToInt (.int a)) (hpValToInt (.int b))
  | modI => some (hpModI a b)
  | and => some (.value (a &&& b))
  | or => some (.value (a ||| b))
  | xor => some (.value (a ^^^ b))

end COp

def cOp : TokKind → Option COp
  | .plus => some .add
  | .minus => some .sub
  | .star => some .mul
  | .percent => some .modI
  | .shl => some .shl
  | .shr => some .shr
  | .amp => some .and
  | .pipe => some .or
  | .caret => some .xor
  | _ => none

/-- the emitted code of the operator, without the folding, on the two integers -/
def unfolded (op : TokKind) (a b : Int64) : Option Outcome := (cOp op).bind fun c => c.run a b

structure Agrees (op : TokKind) (a b : Int64) : Prop where
  no_trap : foldIntBinop op a b ≠ some .trap
  value : ∀ v, foldIntBinop op a b = some (.value v) → unfolded op a b = some (.value v)

/-! ## the emitted code -/

section
variable {op : TokKind} {c : COp} {a b : Int64} {f : Flags}

theorem format_cOp (hc : cOp op = some c) (hf : f.numeric = true) :
    Binop.format op f = c.shape := by
  cases op
  case plus =>
    cases hc
    exact if_pos hf
  case minus =>
    cases hc
    exact if_pos hf
  case star =>
    cases hc
    exact if_pos hf
  case percent =>
    cases hc
    exact if_pos hf
  case shl =>
    cases hc
    rfl
  case shr =>
    cases hc
    rfl
  case amp =>
    cases hc
    rfl
  case pipe =>
    cases hc
    rfl
  case caret =>
    cases hc
    rfl
  all_goals exact nomatch hc

/-- what is folded has an operator in C -/
theorem cOp_of_fold (h : foldIntBinop op a b ≠ none) : ∃ c, cOp op = some c := by
  cases op
  case plus => exact ⟨_, rfl⟩
  case minus => exact ⟨_, rfl⟩
  case star => exact ⟨_, rfl⟩
  case percent => exact ⟨_, rfl⟩
  case shl => exact ⟨_, rfl⟩
  case shr => exact ⟨_, rfl⟩
  case amp => exact ⟨_, rfl⟩
  case pipe => exact ⟨_, rfl⟩
  case caret => exact ⟨_, rfl⟩
  all_goals exact absurd rfl h

/-- the code of an operator on two literals -/
inductive Code where
  | literal (v : Int64)
  | operator (c : COp)

def Code.text (ls rs : Bytes) : Code → Bytes
  | literal v => ascii "(int64_t)" ++ hpStrFromInt v ++ ascii "LL"
  | operator c => c.shape.fill ls rs

def Code.run (a b : Int64) : Code → Option Outcome
  | literal v => some (.value v)
  | operator c => c.run a b

/-- `none` where the compiler traps -/
def codeOf (c : COp) : Option Outcome → Option Code
  | some (.value v) => some (.literal v)
  | some _ => none
  | none => some (.operator c)

/-- the folding of the text has the same literals -/
theorem binop_fold (h : foldIntBinop op a b ≠ some .trap) :
    (Binop.foldIntBinop op a b).map Outcome.value = foldIntBinop op a b := by
  cases op
  case percent =>
    simp only [Binop.foldIntBinop, foldIntBinop] at h ⊢
    by_cases hb : b = 0
    · rw [if_pos hb, if_pos hb]
      rfl
    · rw [if_neg hb] at h
      rw [if_neg hb, if_neg hb]
      by_cases ht : DivTraps a b
      · rw [cRem, if_pos ht] at h
        exact absurd rfl h
      · rw [cRem, if_neg ht]
        rfl
  case shl =>
    simp only [Binop.foldIntBinop, foldIntBinop]
    split <;> rfl
  case shr =>
    simp only [Binop.foldIntBinop, foldIntBinop]
    split <;> rfl
  all_goals rfl

/-- **what is emitted** for two integer literals -/
theorem emitBinop_text {l r : Expr} {type : Option Binop.TypeKind} {ls rs : Bytes}
    (hl : l.lit = .int a) (hr : r.lit = .int b) (tl : l.type = some .int) (tr : r.type = some .int)
    (hc : cOp op = some c) (h : foldIntBinop op a b ≠ some .trap) :
    ∃ d, codeOf c (foldIntBinop op a b) = some d ∧
      Binop.emitBinop op l r type ls rs = printed (d.text ls rs) := by
  have hn : (Binop.flags l r type).numeric = true := by
    simp [Binop.flags, tl, tr, Binop.isA, Binop.TypeKind.isNumeric]
  have hfl : (Binop.flags l r type).floats = false := by
    simp [Binop.flags, tl, tr, Binop.isA, Binop.TypeKind.isFloat]
  have hfold : Binop.folded op l r (Binop.flags l r type) = Binop.foldIntBinop op a b := by
    simp [Binop.folded, hn, hfl, hl, hr]
  have hsame := binop_fold h
  simp only [Binop.emitBinop, hfold]
  cases hb : Binop.foldIntBinop op a b with
  | some v =>
    rw [hb] at hsame
    rw [← hsame]
    exact ⟨.literal v, rfl, rfl⟩
  | none =>
    rw [hb] at hsame
    rw [← hsame]
    refine ⟨.operator c, rfl, ?_⟩
    have hbox : Binop.boxed op (Binop.flags l r type) = false := by
      cases op <;> first | rfl | exact nomatch hc
    have hconv : ∀ {t : Option Binop.TypeKind}, t = some .int →
        Binop.converts op (Binop.flags l r type) t = [] := fun ht => by rw [ht]; rfl
    rw [hbox, hconv tl, hconv tr, format_cOp hc hn]
    rfl

/-! ## the operands -/

theorem guard_iff : ¬ (b < 0 ∨ 63 < b) ↔ 0 ≤ b ∧ b < 64 := by
  rw [not_or, Int64.lt_iff_toInt_lt, Int64.lt_iff_toInt_lt, Int64.le_iff_toInt_le,
    Int64.lt_iff_toInt_lt]
  have h0 : (0 : Int64).toInt = 0 := rfl
  have h63 : (63 : Int64).toInt = 63 := rfl
  have h64 : (64 : Int64).toInt = 64 := rfl
  omega

/-- the compiler leaves out the shifts that are not defined -/
theorem shift_value (g : Int64 → Int64 → Int64) {v : Int64}
    (h : (if b < 0 ∨ 63 < b then none else some (Outcome.value (g a b))) = some (.value v)) :
    COp.shift g (hpValToInt (.int a)) (hpValToInt (.int b)) = some (.value v) := by
  by_cases hb : b < 0 ∨ 63 < b
  · rw [if_pos hb] at h
    exact nomatch h
  · rw [if_neg hb] at h
    show COp.shift g a b = _
    rw [COp.shift, if_pos (guard_iff.mp hb)]
    exact h

/-- the one operator that divides -/
theorem fold_trap : foldIntBinop op a b = some .trap ↔
    op = .percent ∧ a = Int64.minValue ∧ b = -1 := by
  cases op
  case percent =>
    simp only [foldIntBinop, true_and]
    by_cases hb : b = 0
    · rw [if_pos hb]
      refine ⟨fun h => (by cases h), fun h => ?_⟩
      rw [hb] at h
      exact absurd h.2 (by decide)
    · rw [if_neg hb, cRem]
      by_cases ht : DivTraps a b
      · rw [if_pos ht]
        exact ⟨fun _ => ht.resolve_left hb, fun _ => rfl⟩
      · rw [if_neg ht]
        exact ⟨fun h => (by cases h), fun h => absurd (.inr h) ht⟩
  case shl =>
    simp only [foldIntBinop]
    split <;> simp
  case shr =>
    simp only [foldIntBinop]
    split <;> simp
  all_goals simp [foldIntBinop]

/-- a literal is what the operator gives -/
theorem fold_value {v : Int64} (h : foldIntBinop op a b = some (.value v)) :
    unfolded op a b = some (.value v) := by
  cases op
  case shl => exact shift_value _ h
  case shr => exact shift_value _ h
  case percent =>
    simp only [foldIntBinop] at h
    by_cases hb : b = 0
    · rw [if_pos hb] at h
      exact nomatch h
    · rw [if_neg hb] at h
      simp only [unfolded, cOp, Option.bind_some, COp.run, hpModI, if_neg hb]
      exact h
  case plus => exact h
  case minus => exact h
  case star => exact h
  case amp => exact h
  case pipe => exact h
  case caret => exact h
  all_goals exact nomatch h

end

/-- **Folding agrees with the emitted operator** on all operands but `INT64_MIN % -1`, where the
compiler itself divides. -/
theorem agrees_iff (op : TokKind) (a b : Int64) :
    Agrees op a b ↔ ¬ (op = .percent ∧ a = Int64.minValue ∧ b = -1) := by
  constructor
  · intro h ht
    exact h.no_trap (fold_trap.mpr ht)
  · intro h
    exact ⟨fun ht => h (fold_trap.mp ht), fun _ => fold_value⟩

/-- where they agree, the code for two literals computes what the operator computes -/
theorem code_run {op : TokKind} {c : COp} {a b : Int64} {d : Code} (h : Agrees op a b)
    (hc : cOp op = some c) (hd : codeOf c (foldIntBinop op a b) = some d) :
    d.run a b = c.run a b := by
  cases hf : foldIntBinop op a b with
  | none =>
    rw [hf] at hd
    cases hd
    rfl
  | some o =>
    rw [hf] at hd
    cases o with
    | value v =>
      cases hd
      have hv := h.value v hf
      rw [unfolded, hc] at hv
      exact hv.symm
    | thrown m => exact nomatch hd
    | trap => exact nomatch hd

theorem fold_min_mod : ¬ ∀ (op : TokKind) (a b : Int64), Agrees op a b := by
  intro h
  exact (h .percent Int64.minValue (-1)).no_trap (by decide)

end Fold
end HolyPhp
