import HolyPhp.Runtime.Double
import Mathlib.Data.Set.Basic

/-!
# The sorting order `hp_val_cmp`

Two strings are compared by their bytes, every other pair by its numbers.

* `hpStrCmp`, `hpValToFloat`, `hpValCmp`  the functions; `strtod` is the library's;
* `SortOrder S`       the values of `S` are in an order as a sort needs it;
* `Crossing S`        two strings of `S` and a number between them that stand in a circle;
* `Undecided S`       the text of a NaN, with two different numbers;
* `cmp_antisymm`      the comparison of two values the other way round has the other sign;
* `sortOrder_iff`     **the values of `S` are in such an order if and only if `S` has neither**.
-/

set_option autoImplicit false

namespace HolyPhp
namespace Cmp

abbrev Val := HVal Bytes

/-! ## strings -/

/-- `memcmp`, by its sign -/
def memcmp : Bytes → Bytes → Int
  | a :: s, b :: t => if a = b then memcmp s t else if a < b then -1 else 1
  | _, _ => 0

/-- `hp_str_cmp` of two strings -/
def cmpBytes (s t : Bytes) : Int :=
  let n := min s.length t.length
  let r := memcmp (s.take n) (t.take n)
  if r ≠ 0 then r else if s.length < t.length then -1 else if t.length < s.length then 1 else 0

/-- `hp_str_cmp`; NULL is the empty string -/
def hpStrCmp (a b : Option Bytes) : Int := cmpBytes (a.getD []) (b.getD [])

/-! ## values -/

section
variable (strtod : Bytes → Double)

def hpStrToDouble : Option Bytes → Double
  | none => Double.ofInt64 0
  | some s => strtod s

def hpValToFloat : Val → Double
  | .int i => Double.ofInt64 i
  | .float f => f
  | .bool b => if b then Double.ofInt64 1 else Double.ofInt64 0
  | .str s => hpStrToDouble strtod s
  | _ => Double.ofInt64 0

def hpValCmp : Val → Val → Int
  | .str a, .str b => let r := hpStrCmp a b; if r < 0 then -1 else if 0 < r then 1 else 0
  | a, b =>
    let x := hpValToFloat strtod a
    let y := hpValToFloat strtod b
    if x.lt y then -1 else if y.lt x then 1 else 0

/-- null, bool, int and string values -/
inductive Scalar where
  | null
  | bool (b : Bool)
  | int (i : Int64)
  | str (s : Option Bytes)

def Scalar.val : Scalar → Val
  | .null => .null
  | .bool b => .bool b
  | .int i => .int i
  | .str s => .str s

def Scalar.isStr : Scalar → Bool
  | .str _ => true
  | _ => false

/-- the order of a sort -/
def le (x y : Scalar) : Prop := hpValCmp strtod x.val y.val ≤ 0

/-- what `qsort` takes for granted of the values that it sorts -/
structure SortOrder (S : Set Scalar) : Prop where
  antisymm : ∀ x ∈ S, ∀ y ∈ S, hpValCmp strtod x.val y.val = -hpValCmp strtod y.val x.val
  trans : ∀ x ∈ S, ∀ y ∈ S, ∀ z ∈ S, le strtod x y → le strtod y z → le strtod x z

/-- the number of a value -/
def num (x : Scalar) : Double := hpValToFloat strtod x.val

/-- the number of `x` is not above the number of `y` -/
def NumLe (x y : Scalar) : Prop := (num strtod y).lt (num strtod x) = false

/-- two strings and a value that is none: by the bytes `s` is not behind `t`, by the numbers `n`
is not below `t` and not above `s`, and one of the three pairs differs -/
def Crossing (S : Set Scalar) : Prop :=
  ∃ s t n, Scalar.str s ∈ S ∧ Scalar.str t ∈ S ∧ n ∈ S ∧ n.isStr = false ∧
    hpStrCmp s t ≤ 0 ∧ NumLe strtod (.str t) n ∧ NumLe strtod n (.str s) ∧
    (hpStrCmp s t < 0 ∨ (num strtod (.str t)).lt (num strtod n) = true ∨
      (num strtod n).lt (num strtod (.str s)) = true)

/-- a string that reads as NaN, and two values that are no strings with different numbers -/
def Undecided (S : Set Scalar) : Prop :=
  ∃ s m n, Scalar.str s ∈ S ∧ m ∈ S ∧ n ∈ S ∧ m.isStr = false ∧ n.isStr = false ∧
    (num strtod (.str s)).isNan = true ∧ (num strtod m).lt (num strtod n) = true

end

/-! ## the order of the bytes -/

section
variable {s t u : Bytes}

theorem cmpBytes_cons (a b : UInt8) (s t : Bytes) : cmpBytes (a :: s) (b :: t) =
    if a = b then cmpBytes s t else if a < b then -1 else 1 := by
  unfold cmpBytes
  simp only [List.length_cons, Nat.add_min_add_right, List.take_succ_cons, memcmp,
    Nat.add_lt_add_iff_right]
  split
  · rfl
  · split <;> rfl

/-- the sign of the comparison is the order of the lists -/
theorem cmpBytes_spec (s t : Bytes) :
    (cmpBytes s t < 0 ↔ s < t) ∧ (0 < cmpBytes s t ↔ t < s) := by
  induction s generalizing t with
  | nil =>
    cases t with
    | nil => simp [cmpBytes, memcmp]
    | cons b t => simp [cmpBytes, memcmp]
  | cons a s ih =>
    cases t with
    | nil => simp [cmpBytes, memcmp]
    | cons b t =>
      rw [cmpBytes_cons, List.cons_lt_cons_iff, List.cons_lt_cons_iff]
      by_cases hab : a = b
      · subst hab
        have hirr := UInt8.lt_irrefl a
        rw [if_pos rfl]
        simpa [hirr] using ih t
      · rw [if_neg hab]
        rcases UInt8.lt_or_lt_of_ne hab with h | h
        · have hna := UInt8.lt_asymm h
          simp [h, hab, hna, Ne.symm hab]
        · have hna := UInt8.lt_asymm h
          simp [h, hab, hna, Ne.symm hab]

theorem strLe_trans (h1 : cmpBytes s t ≤ 0) (h2 : cmpBytes t u ≤ 0) : cmpBytes s u ≤ 0 := by
  rw [← not_lt, (cmpBytes_spec _ _).2] at h1 h2 ⊢
  exact List.le_trans h1 h2

theorem cmpBytes_neg (s t : Bytes) : cmpBytes t s < 0 ↔ 0 < cmpBytes s t := by
  rw [(cmpBytes_spec t s).1, (cmpBytes_spec s t).2]

end

/-! ## one comparison -/

section
variable {strtod : Bytes → Double} {x y z : Scalar} {a b : Option Bytes} {S : Set Scalar}

theorem num_not_nan (h : x.isStr = false) : (num strtod x).isNan = false := by
  cases x with
  | null => exact Double.ofInt64_not_nan 0
  | bool b => cases b <;> exact Double.ofInt64_not_nan _
  | int i => exact Double.ofInt64_not_nan i
  | str s => cases h

/-- a comparison by the numbers -/
def cmpNum (f g : Double) : Int := if f.lt g then -1 else if g.lt f then 1 else 0

theorem valCmp_num (h : x.isStr = false ∨ y.isStr = false) :
    hpValCmp strtod x.val y.val = cmpNum (num strtod x) (num strtod y) := by
  cases x <;> cases y <;> first | rfl | (rcases h with h | h <;> cases h)

theorem cmpNum_neg (f g : Double) : cmpNum f g = -cmpNum g f := by
  unfold cmpNum
  cases hfg : f.lt g with
  | true => simp [Double.lt_asymm hfg]
  | false => cases g.lt f <;> simp

theorem cmpNum_le (f g : Double) : cmpNum f g ≤ 0 ↔ g.lt f = false := by
  unfold cmpNum
  cases hfg : f.lt g with
  | true => simp [Double.lt_asymm hfg]
  | false => cases g.lt f <;> simp

theorem le_str : le strtod (.str a) (.str b) ↔ hpStrCmp a b ≤ 0 := by
  unfold le
  show (if hpStrCmp a b < 0 then (-1 : Int) else if 0 < hpStrCmp a b then 1 else 0) ≤ 0 ↔ _
  split
  · omega
  · split <;> omega

theorem le_num (h : x.isStr = false ∨ y.isStr = false) : le strtod x y ↔ NumLe strtod x y := by
  rw [le, valCmp_num h, cmpNum_le, NumLe]

/-- values that are not both strings -/
theorem valCmp_of_num {a b : Val} (h : ¬ (a.tag = .str ∧ b.tag = .str)) :
    hpValCmp strtod a b = cmpNum (hpValToFloat strtod a) (hpValToFloat strtod b) := by
  cases a <;> cases b <;> first | rfl | exact absurd ⟨rfl, rfl⟩ h

/-- **The comparison the other way round has the other sign.** -/
theorem cmp_antisymm (strtod : Bytes → Double) (a b : Val) :
    hpValCmp strtod a b = -hpValCmp strtod b a := by
  by_cases h : a.tag = .str ∧ b.tag = .str
  · obtain ⟨ha, hb⟩ := h
    cases a with
    | str s =>
      cases b with
      | str t =>
        show (if hpStrCmp s t < 0 then (-1 : Int) else if 0 < hpStrCmp s t then 1 else 0) =
          -(if hpStrCmp t s < 0 then (-1 : Int) else if 0 < hpStrCmp t s then 1 else 0)
        have h1 : hpStrCmp t s < 0 ↔ 0 < hpStrCmp s t := cmpBytes_neg _ _
        have h2 : hpStrCmp s t < 0 ↔ 0 < hpStrCmp t s := cmpBytes_neg _ _
        split_ifs <;> omega
      | _ => cases hb
    | _ => cases ha
  · rw [valCmp_of_num h, valCmp_of_num fun hh => h hh.symm, cmpNum_neg]

theorem valCmp_int {m n : Nat} (h : m < n) (hn : n < 2 ^ 53) :
    hpValCmp strtod (.int (Int64.ofNat m)) (.int (Int64.ofNat n)) = -1 :=
  if_pos (Double.ofInt64_lt h hn)

/-! ## transitivity -/

theorem str_of (h : ¬ x.isStr = false) : ∃ s, x = .str s := by
  cases x with
  | str s => exact ⟨s, rfl⟩
  | _ => exact absurd rfl h

/-- a circle of comparisons with a strict one breaks the order -/
theorem crossing_absurd (h : ∀ x ∈ S, ∀ y ∈ S, ∀ z ∈ S,
    le strtod x y → le strtod y z → le strtod x z) : ¬ Crossing strtod S := by
  rintro ⟨s, t, n, hs, ht, hn, hnum, hst, htn, hns, hstrict⟩
  have h1 : le strtod (.str s) (.str t) := le_str.2 hst
  have h2 : le strtod (.str t) n := (le_num (.inr hnum)).2 htn
  have h3 : le strtod n (.str s) := (le_num (.inl hnum)).2 hns
  rcases hstrict with hlt | hlt | hlt
  · have hts := le_str.1 (h _ ht _ hn _ hs h2 h3)
    have h1 : hpStrCmp s t < 0 ↔ 0 < hpStrCmp t s := cmpBytes_neg _ _
    omega
  · have hnt : NumLe strtod n (.str t) := (le_num (.inl hnum)).1 (h _ hn _ hs _ ht h3 h1)
    exact absurd (hnt.symm.trans hlt) Bool.false_ne_true
  · have hsn : NumLe strtod (.str s) n := (le_num (.inr hnum)).1 (h _ hs _ ht _ hn h1 h2)
    exact absurd (hsn.symm.trans hlt) Bool.false_ne_true

theorem undecided_absurd (h : ∀ x ∈ S, ∀ y ∈ S, ∀ z ∈ S,
    le strtod x y → le strtod y z → le strtod x z) : ¬ Undecided strtod S := by
  rintro ⟨s, m, n, hs, hm, hn, hmnum, hnnum, hnan, hlt⟩
  have h1 : le strtod n (.str s) := (le_num (.inl hnnum)).2 (Double.nan_lt hnan _).1
  have h2 : le strtod (.str s) m := (le_num (.inr hmnum)).2 (Double.nan_lt hnan _).2
  have hnm : NumLe strtod n m := (le_num (.inl hnnum)).1 (h _ hn _ hs _ hm h1 h2)
  exact absurd (hnm.symm.trans hlt) Bool.false_ne_true

theorem le_trans_of (hc : ¬ Crossing strtod S) (hu : ¬ Undecided strtod S) (hx : x ∈ S) (hy : y ∈ S)
    (hz : z ∈ S) (h1 : le strtod x y) (h2 : le strtod y z) : le strtod x z := by
  by_cases hys : y.isStr = false
  · -- both steps are by the numbers, and `y` is one
    have n1 := (le_num (.inr hys)).1 h1
    have n2 := (le_num (.inl hys)).1 h2
    by_cases hxz : x.isStr = false ∨ z.isStr = false
    · exact (le_num hxz).2 (Double.not_lt_trans (num_not_nan hys) n1 n2)
    · obtain ⟨s, rfl⟩ := str_of fun h => hxz (.inl h)
      obtain ⟨t, rfl⟩ := str_of fun h => hxz (.inr h)
      rw [le_str]
      by_contra hgt
      have hneg : hpStrCmp t s < 0 ↔ 0 < hpStrCmp s t := cmpBytes_neg _ _
      exact hc ⟨t, s, y, hz, hx, hy, hys, by omega, n1, n2, .inl (by omega)⟩
  · obtain ⟨t, rfl⟩ := str_of hys
    by_cases hxs : x.isStr = false
    · have n1 := (le_num (.inl hxs)).1 h1
      by_cases hzs : z.isStr = false
      · have n2 := (le_num (.inr hzs)).1 h2
        rw [le_num (.inl hxs)]
        by_cases hnan : (num strtod (.str t)).isNan = true
        · by_contra hlt
          exact hu ⟨t, z, x, hy, hz, hx, hzs, hxs, hnan, Bool.of_not_eq_false hlt⟩
        · exact Double.not_lt_trans (Bool.eq_false_iff.2 hnan) n1 n2
      · obtain ⟨u, rfl⟩ := str_of hzs
        rw [le_num (.inl hxs)]
        by_contra hlt
        have hlt' := Bool.of_not_eq_false hlt
        exact hc ⟨t, u, x, hy, hz, hx, hxs, le_str.1 h2, Double.lt_asymm hlt', n1, .inr (.inl hlt')⟩
    · obtain ⟨s, rfl⟩ := str_of hxs
      by_cases hzs : z.isStr = false
      · have n2 := (le_num (.inr hzs)).1 h2
        rw [le_num (.inr hzs)]
        by_contra hlt
        have hlt' := Bool.of_not_eq_false hlt
        exact hc ⟨s, t, z, hx, hy, hz, hzs, le_str.1 h1, n2, Double.lt_asymm hlt', .inr (.inr hlt')⟩
      · obtain ⟨u, rfl⟩ := str_of hzs
        exact le_str.2 (strLe_trans (le_str.1 h1) (le_str.1 h2))

end

/-- **The sorting order on a set of values** is one if and only if no two strings of the set and
another value of it stand in a circle, and no string of it reads as NaN beside two different
numbers. -/
theorem sortOrder_iff (strtod : Bytes → Double) (S : Set Scalar) :
    SortOrder strtod S ↔ ¬ Crossing strtod S ∧ ¬ Undecided strtod S :=
  ⟨fun h => ⟨crossing_absurd h.trans, undecided_absurd h.trans⟩, fun h =>
    ⟨fun x _ y _ => cmp_antisymm strtod x.val y.val, fun _ hx _ hy _ hz => le_trans_of h.1 h.2 hx hy hz⟩⟩

/-- `strtod` on the text of an integer -/
def strtodInt (s : Bytes) : Double := Double.ofInt64 (strtoll s)

/-- `10 <= "10" <= "9"`, and `10 > 9` -/
theorem sortOrder_ten : ¬ SortOrder strtodInt Set.univ := by
  intro h
  have h1 : le strtodInt (.int 10) (.str (some (ascii "10"))) := by unfold le; decide
  have h2 : le strtodInt (.str (some (ascii "10"))) (.str (some (ascii "9"))) := by
    unfold le
    decide
  have h3 := h.trans _ trivial _ trivial _ trivial h1 h2
  unfold le at h3
  exact absurd h3 (by decide)

end Cmp
end HolyPhp
