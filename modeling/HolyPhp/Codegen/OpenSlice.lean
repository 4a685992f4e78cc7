import HolyPhp.Runtime.Slices

/-!
# Slices `$x[lo...hi]`

* `Bound`         an upper bound; sema does not look at it;
* `emitHi`        what is passed for it, and where there is none;
* `open_slices`   **what the slices of strings and lists are.**
-/

set_option autoImplicit false

namespace HolyPhp
namespace OpenSlice
open HolyPhp.Std Arr

/-- an upper bound: a literal, or a variable with its value -/
inductive Bound where
  | lit (i : Int64)
  | var (i : Int64)

def Bound.value : Bound → Int64
  | .lit i => i
  | .var i => i

def Bound.isLit : Bound → Bool
  | .lit _ => true
  | .var _ => false

/-- `emit_binop`: `(int64_t)-1` where there is no bound.  `check_bin` does not check the bound, and
so a variable in it has no symbol and is emitted as `hp_missing_var`, which is declared nowhere:
`none`. -/
def emitHi : Option Bound → Option Int64
  | none => some (-1)
  | some (.lit i) => some i
  | some (.var _) => none

/-- what is sliced, by its static type -/
inductive Subject where
  | string (s : Bytes)
  | list (a : Harr)

namespace Subject

def elems : Subject → List Val
  | .string s => s.map char
  | .list a => values a

/-- a string has less than 2^63 bytes, and an element of a list takes 16 bytes -/
def Fits : Subject → Prop
  | .string s => s.length < 2 ^ 63
  | .list a => 16 * a.len < 2 ^ 64

end Subject

/-- `hp_str_slice` or `hp_arr_slice` -/
def callSlice (junk : Nat → Val) (lo hi : Int64) : Subject → Subject
  | .string s => .string (hpStrSlice s lo.toInt hi.toInt)
  | .list a => .list (hpArrSlice junk a lo hi)

/-- the elements of the slice; `none`: a C compiler refuses the call -/
def evalSlice (junk : Nat → Val) (x : Subject) (lo : Int64) (hi : Option Bound) :
    Option (List Val) :=
  (emitHi hi).map fun e => (callSlice junk lo e x).elems

theorem evalSlice_none (junk : Nat → Val) (x : Subject) (lo : Int64) :
    evalSlice junk x lo none = some (callSlice junk lo (-1) x).elems := rfl

theorem evalSlice_lit (junk : Nat → Val) (x : Subject) (lo i : Int64) :
    evalSlice junk x lo (some (.lit i)) = some (callSlice junk lo i x).elems := rfl

section
variable {junk : Nat → Val} {x : Subject} {lo hi : Int64} {n : Nat}

theorem length_elems (x : Subject) :
    x.elems.length = match x with
      | .string s => s.length
      | .list a => a.len := by
  cases x with
  | string s => exact List.length_map _
  | list a => exact values_length a

/-- a slice from a position on -/
theorem elems_callSlice (hx : x.Fits) (h0 : 0 ≤ lo.toInt) (hlo : lo.toInt ≤ x.elems.length)
    (e : Int64) :
    (callSlice junk lo e x).elems =
      (x.elems.drop lo.toInt.toNat).take ((wrapEnd x.elems.length e.toInt).toNat - lo.toInt.toNat) := by
  have hlen := length_elems x
  cases x with
  | string s =>
    dsimp only at hlen
    have hs := hpStrSlice_eq (s := s) (a := lo.toInt.toNat) (by omega) e.toInt
    rw [Int.toNat_of_nonneg h0] at hs
    rw [hlen]
    show (hpStrSlice s lo.toInt e.toInt).map char = _
    rw [hs, Subject.elems, List.map_take, List.map_drop]
  | list a =>
    dsimp only at hlen
    have hn : a.len < 2 ^ 62 := by
      have h16 : 16 * a.len < 2 ^ 64 := hx
      omega
    have hnorm := normIndex_toInt hn lo
    dsimp only at hnorm
    rw [if_neg (by omega), if_neg (by omega), min_eq_left (by omega)] at hnorm
    show values (hpArrSlice junk a lo e) = _
    rw [values_hpArrSlice, sliceEnd_toInt hn, hnorm, hlen]
    · rfl
    · rw [sliceEnd_toInt hn]
      exact wrapEnd_le _ _

theorem wrapEnd_neg_one (n : Nat) : (wrapEnd n (-1)).toNat = n - 1 := by
  rcases wrapEnd_cases n (-1) with ⟨h, e⟩ | ⟨h, h', e⟩ | ⟨h, -⟩ | ⟨h, -⟩
  · omega
  · omega
  · omega
  · omega

theorem take_eq_self_iff {α : Type} {l : List α} {m : Nat} : l.take m = l ↔ l.length ≤ m := by
  constructor
  · intro h
    have hlen := congrArg List.length h
    rw [List.length_take] at hlen
    omega
  · exact List.take_of_length_le

/-- without a bound -/
theorem open_iff (hx : x.Fits) (h0 : 0 ≤ lo.toInt) (hlo : lo.toInt ≤ x.elems.length) :
    evalSlice junk x lo none = some (x.elems.drop lo.toInt.toNat) ↔
      lo.toInt = x.elems.length := by
  have he : (-1 : Int64).toInt = -1 := rfl
  rw [evalSlice_none, Option.some_inj, elems_callSlice hx h0 hlo, he, wrapEnd_neg_one, take_eq_self_iff,
    List.length_drop]
  omega

/-- with a bound -/
theorem bounded_iff (hx : x.Fits) {hi : Bound} (h0 : 0 ≤ lo.toInt)
    (hlo : lo.toInt ≤ hi.value.toInt) (hhi : hi.value.toInt ≤ x.elems.length) :
    evalSlice junk x lo (some hi) =
        some ((x.elems.drop lo.toInt.toNat).take (hi.value.toInt - lo.toInt).toNat) ↔
      hi.isLit = true := by
  cases hi with
  | var i => exact iff_of_false (fun h => nomatch h) Bool.false_ne_true
  | lit i =>
    refine iff_of_true ?_ rfl
    have h1 : (lo.toInt : Int) ≤ i.toInt := hlo
    have h2 : i.toInt ≤ x.elems.length := hhi
    rw [evalSlice_lit, elems_callSlice hx h0 (by omega), wrapEnd_within (by omega) h2]
    congr 2
    show i.toInt.toNat - lo.toInt.toNat = (i.toInt - lo.toInt).toNat
    omega

/-- `$x[0...k]` and `$x[k...]` -/
def halves (junk : Nat → Val) (x : Subject) (k : Bound) : Option (List Val) :=
  (evalSlice junk x 0 (some k)).bind fun a =>
    (evalSlice junk x k.value none).map fun b => a ++ b

theorem halves_iff (hx : x.Fits) {k : Bound} (h0 : 0 ≤ k.value.toInt)
    (hk : k.value.toInt ≤ x.elems.length) :
    halves junk x k = some x.elems ↔ k.isLit = true ∧ k.value.toInt = x.elems.length := by
  have hb := @bounded_iff junk _ 0 hx k (Int.le_refl 0) h0 hk
  cases hl : k.isLit with
  | false =>
    cases k with
    | lit i => cases hl
    | var i => exact iff_of_false (fun h => nomatch h) fun h => nomatch h.1
  | true =>
    have hz : (0 : Int64).toInt = 0 := rfl
    have ha := hb.2 hl
    rw [hz, Int.toNat_zero, List.drop_zero, Int.sub_zero] at ha
    rw [halves, ha, Option.bind_some, evalSlice_none, Option.map_some, Option.some_inj,
      and_iff_right rfl, ← @open_iff junk _ _ hx h0 hk, evalSlice_none, Option.some_inj]
    constructor
    · intro h
      have h' := h.trans (List.take_append_drop k.value.toInt.toNat x.elems).symm
      exact List.append_cancel_left h'
    · intro h
      rw [h, List.take_append_drop]

/-- **An open slice is the suffix just if that is empty**, a slice with a bound is the part just if
the bound is a literal, and both halves give the whole just if both hold. -/
theorem open_slices (junk : Nat → Val) {x : Subject} (hx : x.Fits) {lo : Int64} {hi k : Bound}
    (hlo : 0 ≤ lo.toInt) (hhi : lo.toInt ≤ hi.value.toInt)
    (hn : hi.value.toInt ≤ x.elems.length) (h0 : 0 ≤ k.value.toInt)
    (hk : k.value.toInt ≤ x.elems.length) :
    (evalSlice junk x lo none = some (x.elems.drop lo.toInt.toNat) ↔
      lo.toInt = x.elems.length) ∧
    (evalSlice junk x lo (some hi) =
        some ((x.elems.drop lo.toInt.toNat).take (hi.value.toInt - lo.toInt).toNat) ↔
      hi.isLit = true) ∧
    (halves junk x k = some x.elems ↔ k.isLit = true ∧ k.value.toInt = x.elems.length) :=
  ⟨open_iff hx hlo (Int.le_trans hhi hn), bounded_iff hx hlo hhi hn, halves_iff hx h0 hk⟩

theorem open_slices_abc :
    (evalSlice blank (.string [97, 98, 99]) 1 none = some ([97, 98, 99].map char |>.drop 1) ↔
      (1 : Int) = 3) ∧
    (evalSlice blank (.string [97, 98, 99]) 1 (some (.lit 2)) = some ([97, 98, 99].map char |>.drop 1 |>.take 1) ↔
      true = true) ∧
    (halves blank (.string [97, 98, 99]) (.lit 3) = some ([97, 98, 99].map char) ↔
      true = true ∧ (3 : Int) = 3) :=
  @open_slices blank (.string [97, 98, 99]) (by decide : 3 < 2 ^ 63) 1 (.lit 2) (.lit 3)
    (by decide) (by decide) (by decide) (by decide) (by decide)

/-- `"abc"[1...]` is `"b"`. -/
theorem open_slice_abc :
    evalSlice blank (.string [97, 98, 99]) 1 none ≠ some ([char 98, char 99]) := by
  intro h
  have hv : evalSlice blank (.string [97, 98, 99]) 1 none = some [char 98] := rfl
  cases hv.symm.trans h

end

end OpenSlice
end HolyPhp
