import HolyPhp.Lib.Split
import HolyPhp.Runtime.Str
import Mathlib.Data.List.Forall2

/-!
# Search, split and join: `explode`, `implode`, `str_replace`, `substr_count`

Four scans of the subject, each with its own bounds.  What they make is built on the heap with
`hpStrConcat2`, in place where the string has room.  An array is the list of its values.

* `hpbiExplode`, `hpbiSubstrCount`    the pieces, and the number of places;
* `hpbiImplode`, `hpbiStrReplace`     two builders;
* `Own h0 h out bs`                   a string that no one else holds yet.

**`search_agree`**: the four find the same places.
-/

set_option autoImplicit false

namespace HolyPhp
namespace Str
open Substr

/-- the bytes from `a` up to `b` -/
def slice (x : Bytes) (a b : Nat) : Bytes := (x.drop a).take (b - a)

/-- `memcmp(x->data + i, d->data, d->len) == 0` -/
def stands (x d : Bytes) (i : Nat) : Bool := (x.drop i).take d.length == d

/-! ## the functions -/

/-- the loop of `hpbi_explode` and the piece behind it -/
def explodeFrom (x d : Bytes) (hd : 0 < d.length) (h : Heap) (start i : Nat) :
    Heap × List (HVal Addr) :=
  if i + d.length ≤ x.length then
    if stands x d i then
      let piece := h.lit (slice x start i)
      let rest := explodeFrom x d hd piece.1 (i + d.length) (i + d.length)
      (rest.1, .str (some piece.2) :: rest.2)
    else explodeFrom x d hd h start (i + 1)
  else
    let piece := h.lit (slice x start x.length)
    (piece.1, [.str (some piece.2)])
termination_by x.length - i

/-- the loop of `hp_str_replace` -/
def strReplaceFrom (x d : Bytes) (hd : 0 < d.length) (replace : Addr) (h : Heap) (out : Addr)
    (i : Nat) : Option (Heap × Addr) :=
  if i < x.length then
    if i + d.length ≤ x.length ∧ stands x d i then
      (hpStrConcat2 h (some out) (some replace)).bind fun r =>
        strReplaceFrom x d hd replace r.1 r.2 (i + d.length)
    else
      let char := h.lit (slice x i (i + 1))
      (hpStrConcat2 char.1 (some out) (some char.2)).bind fun r =>
        strReplaceFrom x d hd replace r.1 r.2 (i + 1)
  else some (h, out)
termination_by x.length - i

/-- the loop of `hpbi_substr_count`; `i++` is done after a hit too -/
def substrCountFrom (x d : Bytes) (hd : 0 < d.length) (cnt : Int64) (i : Nat) : Int64 :=
  if i + d.length ≤ x.length then
    if stands x d i then substrCountFrom x d hd (cnt + 1) (i + (d.length - 1) + 1)
    else substrCountFrom x d hd cnt (i + 1)
  else cnt
termination_by x.length - i

section
variable (fromDouble : Double → Bytes)

/-- `.error` is an exception; an address that is not in the heap is a fault -/
def hpbiExplode (h : Heap) (sep s : HVal Addr) :
    Option (Except Bytes (Heap × List (HVal Addr))) :=
  let x := hpValToStr fromDouble h s
  let d := hpValToStr fromDouble x.1 sep
  match d.1.get x.2, d.1.get d.2 with
  | some xs, some ds =>
    if hd : 0 < ds.bytes.length then some (.ok (explodeFrom xs.bytes ds.bytes hd d.1 0 0))
    else some (.error (text "explode(): Empty delimiter"))
  | _, _ => none

/-- the rounds of `hp_implode` after the first -/
def implodeFrom (g : Addr) (h : Heap) (out : Addr) : List (HVal Addr) → Option (Heap × Addr)
  | [] => some (h, out)
  | v :: vs =>
    (hpStrConcat2 h (some out) (some g)).bind fun r =>
      let p := hpValToStr fromDouble r.1 v
      (hpStrConcat2 p.1 (some r.2) (some p.2)).bind fun r => implodeFrom g r.1 r.2 vs

def hpImplode (h : Heap) (glue : HVal Addr) (vals : List (HVal Addr)) : Option (Heap × Addr) :=
  let g := hpValToStr fromDouble h glue
  let out := g.1.lit []
  match vals with
  | [] => some out
  | v :: vs =>
    let p := hpValToStr fromDouble out.1 v
    (hpStrConcat2 p.1 (some out.2) (some p.2)).bind fun r => implodeFrom fromDouble g.2 r.1 r.2 vs

/-- where the second argument is an array -/
def hpbiImplode (h : Heap) (glue : HVal Addr) (vals : List (HVal Addr)) :
    Option (Heap × HVal Addr) :=
  (hpImplode fromDouble h glue vals).map fun r => (r.1, .str (some r.2))

/-- the arguments are not NULL -/
def hpStrReplace (h : Heap) (subject search replace : Addr) : Option (Heap × Addr) :=
  match h.get subject, h.get search with
  | some x, some d =>
    if hd : 0 < d.bytes.length then
      let out := h.lit []
      strReplaceFrom x.bytes d.bytes hd replace out.1 out.2 0
    else some (h.lit x.bytes)
  | _, _ => none

def hpbiStrReplace (h : Heap) (search replace subject : HVal Addr) : Option (Heap × HVal Addr) :=
  let x := hpValToStr fromDouble h subject
  let d := hpValToStr fromDouble x.1 search
  let r := hpValToStr fromDouble d.1 replace
  (hpStrReplace r.1 x.2 d.2 r.2).map fun r => (r.1, .str (some r.2))

def hpbiSubstrCount (h : Heap) (hay needle : HVal Addr) : Option (HVal Addr) :=
  let x := hpValToStr fromDouble h hay
  let d := hpValToStr fromDouble x.1 needle
  match d.1.get x.2, d.1.get d.2 with
  | some xs, some ds =>
    if hd : 0 < ds.bytes.length then
      if xs.bytes.length < ds.bytes.length then some (.int 0)
      else some (.int (substrCountFrom xs.bytes ds.bytes hd 0 0))
    else some (.int 0)
  | _, _ => none

end

/-! ## slices -/

section
variable {x d : Bytes} {a i : Nat}

theorem slice_self (x : Bytes) (a : Nat) : slice x a a = [] := by
  rw [slice, Nat.sub_self, List.take_zero]

theorem drop_cons (hi : i < x.length) : x.drop i = x[i] :: x.drop (i + 1) :=
  List.drop_eq_getElem_cons hi

theorem slice_one (hi : i < x.length) : slice x i (i + 1) = [x[i]] := by
  rw [slice, drop_cons hi, Nat.add_sub_cancel_left]
  rfl

/-- a slice and what comes behind it -/
theorem slice_append (ha : a ≤ i) {b : Nat} (hb : i ≤ b) :
    slice x a i ++ slice x i b = slice x a b := by
  have hlen : b - a = (i - a) + (b - i) := by omega
  have hi : i = a + (i - a) := by omega
  show (x.drop a).take (i - a) ++ (x.drop i).take (b - i) = (x.drop a).take (b - a)
  rw [hlen, List.take_add, List.drop_drop, ← hi]

theorem slice_end (x : Bytes) (i : Nat) : slice x i x.length = x.drop i := by
  rw [slice, ← List.length_drop]
  exact List.take_length

theorem stands_iff : stands x d i = true ↔ d <+: x.drop i := by
  rw [stands, beq_iff_eq, List.prefix_iff_eq_take]
  exact eq_comm

theorem length_of_stands (hd : 0 < d.length) (h : stands x d i = true) :
    i + d.length ≤ x.length := by
  have hle := (stands_iff.mp h).length_le
  rw [List.length_drop] at hle
  omega

/-- the cut at a hit, and one character further on -/
theorem split_stands (hd : 0 < d.length) (h : stands x d i = true) :
    split d (x.drop i) = [] :: split d (x.drop (i + d.length)) := by
  have hne : d ≠ [] := List.length_pos_iff.mp hd
  rw [split_hit hne (stands_iff.mp h), List.drop_drop]

theorem split_next (hi : i < x.length) (h : ¬ stands x d i = true) :
    split d (x.drop i) = (split d (x.drop (i + 1))).modifyHead (x[i] :: ·) := by
  rw [drop_cons hi, split_miss]
  rintro ⟨-, hpre⟩
  rw [← drop_cons hi] at hpre
  exact h (stands_iff.mpr hpre)

end

/-! ## a string under construction -/

section
variable {h0 h h' : Heap} {out p q : Addr} {bs cs : Bytes} {v : HVal Addr} {t : Hstr}

/-- the strings of `h0` are in `h` -/
def Kept (h0 h : Heap) : Prop := ∀ p s, h0.get p = some s → h.get p = some s

theorem Kept.trans (h1 : Kept h0 h) (h2 : Kept h h') : Kept h0 h' := fun p s hp => h2 p s (h1 p s hp)

theorem kept_lit (h : Heap) (bs : Bytes) : Kept h (h.lit bs).1 := fun _ _ hp =>
  get_ext (alloc_ext h (hpStrNew bs)) hp

theorem get_lit (h : Heap) (bs : Bytes) : (h.lit bs).1.get (h.lit bs).2 = some (hpStrNew bs) :=
  get_alloc h (hpStrNew bs)

/-- the string at `out` holds `bs`; it is not of `h0`, whose strings stay -/
structure Own (h0 h : Heap) (out : Addr) (bs : Bytes) : Prop where
  fresh : h0.objs.length ≤ out
  get : ∃ s, h.get out = some s ∧ s.bytes = bs
  kept : Kept h0 h

theorem Own.lit (hk : Kept h0 h) (hle : h0.objs.length ≤ h.objs.length) :
    Own h0 (h.lit []).1 (h.lit []).2 [] :=
  ⟨hle, ⟨_, get_lit h [], rfl⟩, hk.trans (kept_lit h [])⟩

theorem Own.more (ho : Own h0 h out bs) (cs : Bytes) : Own h0 (h.lit cs).1 out bs := by
  obtain ⟨s, hs, hb⟩ := ho.get
  exact ⟨ho.fresh, ⟨s, kept_lit h cs out s hs, hb⟩, ho.kept.trans (kept_lit h cs)⟩

/-- **One concatenation**, in place or not -/
theorem Own.concat (ho : Own h0 h out bs) (hq : h.get q = some t) :
    ∃ h' out', hpStrConcat2 h (some out) (some q) = some (h', out') ∧
      Own h0 h' out' (bs ++ t.bytes) := by
  obtain ⟨s, hs, rfl⟩ := ho.get
  have hc : hpStrConcat2 h (some out) (some q) = if s.hasRoom t.bytes.length
      then some (h.append out t.bytes, out) else some (h.alloc (s.join t)) := by
    show h.concat out q = _
    unfold Heap.concat
    rw [hs, hq]
  have hlt : h0.objs.length ≤ h.objs.length := Nat.le_trans ho.fresh (Nat.le_of_lt (get_lt hs))
  by_cases hroom : s.hasRoom t.bytes.length
  · refine ⟨_, _, hc.trans (if_pos hroom), ho.fresh, ?_, ?_⟩
    · exact ⟨_, get_append_self hs, (Hstr.push_of_room hroom).1⟩
    · intro p u hp
      have hne : out ≠ p := by
        rintro rfl
        exact absurd (get_lt hp) (Nat.not_lt.mpr ho.fresh)
      rw [get_append_ne hne]
      exact ho.kept p u hp
  · refine ⟨_, _, hc.trans (if_neg hroom), hlt, ⟨_, get_alloc h _, rfl⟩, ?_⟩
    intro p u hp
    exact get_ext (alloc_ext h (s.join t)) (ho.kept p u hp)

/-- a string value with the bytes `bs` -/
def Holds (h : Heap) (v : HVal Addr) (bs : Bytes) : Prop :=
  ∃ p s, v = .str (some p) ∧ h.get p = some s ∧ s.bytes = bs

theorem Holds.kept (hv : Holds h v bs) (hk : Kept h h') : Holds h' v bs := by
  obtain ⟨p, s, rfl, hp, hb⟩ := hv
  exact ⟨p, s, rfl, hk p s hp, hb⟩

theorem holds_lit (h : Heap) (bs : Bytes) : Holds (h.lit bs).1 (.str (some (h.lit bs).2)) bs :=
  ⟨_, _, rfl, get_lit h bs, rfl⟩

end

/-! ## the pieces -/

section
variable {x d : Bytes} {hd : 0 < d.length}

/-- **The loop of `explode`** at `i`, the piece having begun at `start` -/
theorem explodeFrom_spec (h : Heap) (start i : Nat) (hsi : start ≤ i) (hi : i ≤ x.length) :
    Kept h (explodeFrom x d hd h start i).1 ∧
    List.Forall₂ (Holds (explodeFrom x d hd h start i).1) (explodeFrom x d hd h start i).2
      ((split d (x.drop i)).modifyHead (slice x start i ++ ·)) := by
  induction h, start, i using explodeFrom.induct x d hd with
  | case1 h start i hle hhit piece ih =>
    obtain ⟨hk, hall⟩ := ih (Nat.le_refl _) hle
    rw [explodeFrom, if_pos hle, if_pos hhit]
    have hk0 : Kept h piece.1 := kept_lit h _
    refine ⟨hk0.trans hk, ?_⟩
    rw [split_stands hd hhit]
    simp only [slice_self, List.nil_append, List.modifyHead_cons, List.append_nil] at hall ⊢
    have hid : (split d (x.drop (i + d.length))).modifyHead (fun p => p) =
        split d (x.drop (i + d.length)) := List.modifyHead_id ▸ rfl
    rw [hid] at hall
    exact .cons ((holds_lit h _).kept hk) hall
  | case2 h start i hle hmiss ih =>
    have hlt : i < x.length := by omega
    obtain ⟨hk, hall⟩ := ih (Nat.le_succ_of_le hsi) hlt
    rw [explodeFrom, if_pos hle, if_neg hmiss]
    refine ⟨hk, ?_⟩
    have hs : slice x start (i + 1) = slice x start i ++ [x[i]] := by
      rw [← slice_one hlt, slice_append hsi (Nat.le_succ i)]
    rw [split_next hlt hmiss, List.modifyHead_modifyHead]
    rw [hs] at hall
    have hf : (fun p => slice x start i ++ p) ∘ (fun p => x[i] :: p) =
        fun p => slice x start i ++ [x[i]] ++ p := by
      funext p
      simp
    rw [hf]
    exact hall
  | case3 h start i hend =>
    have hshort : (x.drop i).length < d.length := by
      rw [List.length_drop]
      omega
    rw [explodeFrom, if_neg hend, split_short hshort]
    refine ⟨kept_lit h _, .cons ?_ .nil⟩
    show Holds (h.lit (slice x start x.length)).1 _ (slice x start i ++ x.drop i)
    rw [← slice_end x i, slice_append hsi hi]
    exact holds_lit h _

/-- **The loop of `str_replace`** at `i` -/
theorem strReplaceFrom_spec {h0 : Heap} {r : Addr} {t : Hstr} (hr : h0.get r = some t) (h : Heap)
    (out : Addr) (i : Nat) (hi : i ≤ x.length) (acc : Bytes) (ho : Own h0 h out acc) :
    ∃ h' out', strReplaceFrom x d hd r h out i = some (h', out') ∧
      Own h0 h' out' (acc ++ t.bytes.intercalate (split d (x.drop i))) := by
  induction h, out, i using strReplaceFrom.induct x d hd generalizing acc with
  | case1 h out i hlt hhit ih =>
    obtain ⟨h1, out1, hc, ho1⟩ := ho.concat (ho.kept r t hr)
    obtain ⟨h2, out2, hrun, ho2⟩ := ih (h1, out1) hhit.1 _ ho1
    have hne : d ≠ [] := List.length_pos_iff.mp hd
    refine ⟨h2, out2, ?_, ?_⟩
    · rw [strReplaceFrom, if_pos hlt, if_pos hhit, hc]
      exact hrun
    · rw [intercalate_hit t.bytes hne (stands_iff.mp hhit.2), List.drop_drop, ← List.append_assoc]
      exact ho2
  | case2 h out i hlt hmiss ih =>
    have hno : ¬ stands x d i = true := fun h => hmiss ⟨length_of_stands hd h, h⟩
    obtain ⟨h1, out1, hc, ho1⟩ := (ho.more (slice x i (i + 1))).concat (get_lit h _)
    obtain ⟨h2, out2, hrun, ho2⟩ := ih (h1, out1) hlt _ ho1
    refine ⟨h2, out2, ?_, ?_⟩
    · rw [strReplaceFrom, if_pos hlt, if_neg hmiss]
      dsimp only
      rw [hc]
      exact hrun
    · rw [drop_cons hlt, intercalate_miss]
      · have hs : (hpStrNew (slice x i (i + 1))).bytes = [x[i]] := slice_one hlt
        rw [hs, List.append_assoc] at ho2
        exact ho2
      · rintro ⟨-, hpre⟩
        rw [← drop_cons hlt] at hpre
        exact hno (stands_iff.mpr hpre)
  | case3 h out i hge =>
    refine ⟨h, out, ?_, ?_⟩
    · rw [strReplaceFrom, if_neg hge]
    · rw [List.drop_eq_nil_of_le (Nat.not_lt.mp hge), split_nil]
      simpa [List.intercalate] using ho

/-- **The loop of `substr_count`** at `i` -/
theorem substrCountFrom_spec (cnt : Int64) (i : Nat) (hi : i ≤ x.length) :
    substrCountFrom x d hd cnt i = cnt + Int64.ofNat ((split d (x.drop i)).length - 1) := by
  induction cnt, i using substrCountFrom.induct x d hd with
  | case1 cnt i hle hhit ih =>
    have hstep : i + (d.length - 1) + 1 = i + d.length := by omega
    obtain ⟨p, ps, hp⟩ := exists_split d (x.drop (i + d.length))
    rw [hstep] at ih
    rw [substrCountFrom, if_pos hle, if_pos hhit, hstep, ih hle, split_stands hd hhit, hp]
    show cnt + 1 + Int64.ofNat ps.length = cnt + Int64.ofNat (ps.length + 1)
    rw [Int64.ofNat_add, Int64.add_assoc, Int64.add_comm 1]
    rfl
  | case2 cnt i hle hmiss ih =>
    have hlt : i < x.length := by omega
    rw [substrCountFrom, if_pos hle, if_neg hmiss, ih hlt, split_next hlt hmiss,
      List.length_modifyHead]
  | case3 cnt i hend =>
    have hshort : (x.drop i).length < d.length := by
      rw [List.length_drop]
      omega
    rw [substrCountFrom, if_neg hend, split_short hshort]
    exact (Int64.add_zero cnt).symm

end

/-! ## joining -/

section
variable (fromDouble : Double → Bytes)
variable {h0 : Heap} {g : Addr} {t : Hstr}

/-- the rounds after the first -/
theorem implodeFrom_spec (hg : h0.get g = some t) (vs : List (HVal Addr)) (bs : List Bytes)
    (hv : List.Forall₂ (Holds h0) vs bs) (h : Heap) (out : Addr) (acc : Bytes)
    (ho : Own h0 h out acc) :
    ∃ h' out', implodeFrom fromDouble g h out vs = some (h', out') ∧
      Own h0 h' out' (t.bytes.intercalate (acc :: bs)) := by
  induction hv generalizing h out acc with
  | nil => exact ⟨h, out, rfl, by simpa [List.intercalate] using ho⟩
  | @cons v b vs bs hvb hvs ih =>
    obtain ⟨p, s, rfl, hp, rfl⟩ := hvb
    obtain ⟨h1, out1, hc1, ho1⟩ := ho.concat (ho.kept g t hg)
    obtain ⟨h2, out2, hc2, ho2⟩ := ho1.concat (ho1.kept p s hp)
    obtain ⟨h3, out3, hrun, ho3⟩ := ih h2 out2 _ ho2
    refine ⟨h3, out3, ?_, ?_⟩
    · rw [implodeFrom, hc1, Option.bind_some]
      dsimp only [hpValToStr]
      rw [hc2]
      exact hrun
    · have hj : t.bytes.intercalate ((acc ++ t.bytes ++ s.bytes) :: bs) =
          t.bytes.intercalate (acc :: s.bytes :: bs) := by
        rw [intercalate_cons]
        cases bs with
        | nil => simp [List.intercalate]
        | cons c bs => simp
      rw [← hj]
      exact ho3

/-- **`implode`** of strings -/
theorem implode_spec {h : Heap} (hg : h.get g = some t) {vs : List (HVal Addr)} {bs : List Bytes}
    (hv : List.Forall₂ (Holds h) vs bs) :
    ∃ h' out, hpbiImplode fromDouble h (.str (some g)) vs = some (h', .str (some out)) ∧
      Own h h' out (t.bytes.intercalate bs) := by
  have ho : Own h (h.lit []).1 (h.lit []).2 [] := .lit (fun p s hp => hp) (Nat.le_refl _)
  unfold hpbiImplode hpImplode
  cases hv with
  | nil =>
    have hi : t.bytes.intercalate [] = [] := by simp [List.intercalate]
    rw [hi]
    exact ⟨_, _, rfl, ho⟩
  | @cons v b vs bs hvb hvs =>
    obtain ⟨p, s, rfl, hp, rfl⟩ := hvb
    obtain ⟨h1, out1, hc1, ho1⟩ := ho.concat (ho.kept p s hp)
    obtain ⟨h2, out2, hrun, ho2⟩ := implodeFrom_spec fromDouble hg vs bs hvs h1 out1 _ ho1
    refine ⟨h2, out2, ?_, ho2⟩
    dsimp only [hpValToStr]
    rw [hc1, Option.bind_some, hrun]
    rfl

/-! ## the four agree -/

/-- the strings `x`, `d`, `r` at `s`, `sep`, `rep` -/
structure Args (h : Heap) (s sep rep : Addr) (x d r : Bytes) : Prop where
  subject : Holds h (.str (some s)) x
  search : Holds h (.str (some sep)) d
  replace : Holds h (.str (some rep)) r
  ne_nil : d ≠ []

variable {h : Heap} {s sep rep : Addr} {x d r : Bytes}

theorem Holds.get {p : Addr} {b : Bytes} (hv : Holds h (.str (some p)) b) :
    ∃ u, h.get p = some u ∧ u.bytes = b := by
  obtain ⟨q, u, hq, hu, hb⟩ := hv
  obtain rfl : p = q := by simpa using hq
  exact ⟨u, hu, hb⟩

theorem explode_spec (ha : Args h s sep rep x d r) :
    ∃ h' vs, hpbiExplode fromDouble h (.str (some sep)) (.str (some s)) = some (.ok (h', vs)) ∧
      Kept h h' ∧ List.Forall₂ (Holds h') vs (split d x) := by
  obtain ⟨u, hu, rfl⟩ := ha.subject.get
  obtain ⟨w, hw, rfl⟩ := ha.search.get
  have hd : 0 < w.bytes.length := List.length_pos_iff.mpr ha.ne_nil
  obtain ⟨hk, hall⟩ : Kept h (explodeFrom u.bytes w.bytes hd h 0 0).1 ∧ _ :=
    explodeFrom_spec h 0 0 (Nat.le_refl 0) (Nat.zero_le _)
  refine ⟨(explodeFrom u.bytes w.bytes hd h 0 0).1, (explodeFrom u.bytes w.bytes hd h 0 0).2, ?_,
    hk, ?_⟩
  · unfold hpbiExplode
    dsimp only [hpValToStr]
    rw [hu, hw]
    exact dif_pos hd
  · have hid : (split w.bytes u.bytes).modifyHead (fun p => p) = split w.bytes u.bytes :=
      List.modifyHead_id ▸ rfl
    simp only [slice_self, List.nil_append, List.drop_zero, hid] at hall
    exact hall

theorem strReplace_spec (ha : Args h s sep rep x d r) :
    ∃ h' out, hpbiStrReplace fromDouble h (.str (some sep)) (.str (some rep)) (.str (some s)) =
      some (h', .str (some out)) ∧ Own h h' out (r.intercalate (split d x)) := by
  obtain ⟨u, hu, rfl⟩ := ha.subject.get
  obtain ⟨w, hw, rfl⟩ := ha.search.get
  obtain ⟨t, ht, rfl⟩ := ha.replace.get
  have hd : 0 < w.bytes.length := List.length_pos_iff.mpr ha.ne_nil
  have ho : Own h (h.lit []).1 (h.lit []).2 [] := .lit (fun p s hp => hp) (Nat.le_refl _)
  obtain ⟨h1, out, hrun, ho1⟩ : ∃ h1 out, strReplaceFrom u.bytes w.bytes hd _ _ _ 0 = some (h1, out)
      ∧ _ := strReplaceFrom_spec ht _ _ 0 (Nat.zero_le u.bytes.length) [] ho
  refine ⟨h1, out, ?_, ho1⟩
  unfold hpbiStrReplace hpStrReplace
  dsimp only [hpValToStr]
  rw [hu, hw]
  dsimp only
  rw [dif_pos hd, hrun]
  rfl

theorem substrCount_spec (ha : Args h s sep rep x d r) :
    hpbiSubstrCount fromDouble h (.str (some s)) (.str (some sep)) =
      some (.int (Int64.ofNat ((split d x).length - 1))) := by
  obtain ⟨u, hu, rfl⟩ := ha.subject.get
  obtain ⟨w, hw, rfl⟩ := ha.search.get
  have hd : 0 < w.bytes.length := List.length_pos_iff.mpr ha.ne_nil
  unfold hpbiSubstrCount
  dsimp only [hpValToStr]
  rw [hu, hw]
  dsimp only
  rw [dif_pos hd]
  split
  · next hlt =>
    rw [split_short hlt]
    rfl
  · rw [substrCountFrom_spec 0 0 (Nat.zero_le _), Int64.zero_add, List.drop_zero]

/-- the separator joins the pieces to the subject, no piece holds it, replacing it is joining with
the replacement, and its places are one fewer than the pieces -/
def Agree (h : Heap) (s sep rep : Addr) (x d : Bytes) : Prop :=
  ∃ h1 vs pieces,
    hpbiExplode fromDouble h (.str (some sep)) (.str (some s)) = some (.ok (h1, vs)) ∧
    Kept h h1 ∧ List.Forall₂ (Holds h1) vs pieces ∧ (∀ p ∈ pieces, ¬ d <:+: p) ∧
    (∃ h2 v, hpbiImplode fromDouble h1 (.str (some sep)) vs = some (h2, v) ∧ Holds h2 v x) ∧
    (∃ h2 v h3 v' bs, hpbiImplode fromDouble h1 (.str (some rep)) vs = some (h2, v) ∧
      Holds h2 v bs ∧
      hpbiStrReplace fromDouble h (.str (some sep)) (.str (some rep)) (.str (some s)) =
        some (h3, v') ∧ Holds h3 v' bs) ∧
    hpbiSubstrCount fromDouble h (.str (some s)) (.str (some sep)) =
      some (.int (Int64.ofNat (vs.length - 1)))

/-- **Search, split and join agree** for every subject, separator and replacement. -/
theorem search_agree (ha : Args h s sep rep x d r) : Agree fromDouble h s sep rep x d := by
  obtain ⟨h1, vs, hrun, hk, hall⟩ := explode_spec fromDouble ha
  obtain ⟨w, hw, hwb⟩ := (ha.search.kept hk).get
  obtain ⟨t, ht, htb⟩ := (ha.replace.kept hk).get
  obtain ⟨h2, o2, hj, ho⟩ := implode_spec fromDouble hw hall
  obtain ⟨h3, o3, hj', ho'⟩ := implode_spec fromDouble ht hall
  obtain ⟨h4, o4, hr, hor⟩ := strReplace_spec fromDouble ha
  rw [hwb, intercalate_split] at ho
  rw [htb] at ho'
  refine ⟨h1, vs, split d x, hrun, hk, hall, split_free ha.ne_nil, ?_, ?_, ?_⟩
  · obtain ⟨u, hu, hb⟩ := ho.get
    exact ⟨h2, _, hj, o2, u, rfl, hu, hb⟩
  · obtain ⟨u, hu, hb⟩ := ho'.get
    obtain ⟨u', hu', hb'⟩ := hor.get
    exact ⟨h3, _, h4, _, _, hj', ⟨o3, u, rfl, hu, hb⟩, hr, o4, u', rfl, hu', hb'⟩
  · rw [substrCount_spec fromDouble ha, hall.length_eq]

end

/-- `"aaXa"`, `"aa"` and `"y"` -/
def heapAaXa : Heap := ⟨[hpStrNew [97, 97, 88, 97], hpStrNew [97, 97], hpStrNew [121]], none,
  by simp⟩

theorem search_agree_aa : Agree (fun _ => []) heapAaXa 0 1 2 [97, 97, 88, 97] [97, 97] :=
  search_agree (fun _ => [])
    ⟨⟨0, _, rfl, rfl, rfl⟩, ⟨1, _, rfl, rfl, rfl⟩, ⟨2, _, rfl, rfl, rfl⟩, List.cons_ne_nil _ _⟩

end Str
end HolyPhp
