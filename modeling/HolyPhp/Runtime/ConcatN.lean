import HolyPhp.Runtime.Str

/-!
# The concatenation of many values: `hp_str_concat_n`

An interpolated string is one call with an array of values.  The strings of the values are first
put into an array of 64.

* `tplOperands`      the operands that `emit_tpl` writes, as many as it counts;
* `collect`          the loop that fills the array;
* `hpStrConcatN`     the call; it makes one new string;
* `Concats`          the new string holds the texts of all values, in order;
* `concatN_iff`      **it does if and only if the values behind the first 64 have no text.**
-/

set_option autoImplicit false

namespace HolyPhp
namespace ConcatN
open Str

/-! ## the operands of a template -/

section
variable {α : Type*}

/-- a chunk that is empty is no operand -/
def chunk (s : Bytes) : List (Bytes ⊕ α) := if s = [] then [] else [.inl s]

/-- `emit_tpl`, for a template with expressions: the chunks and the expressions by turns -/
def tplOperands : List Bytes → List α → List (Bytes ⊕ α)
  | [], [] => []
  | s :: _, [] => chunk s
  | [], e :: exprs => .inr e :: tplOperands [] exprs
  | s :: strs, e :: exprs => chunk s ++ .inr e :: tplOperands strs exprs

/-- `nparts` -/
def nparts (strs : List Bytes) (exprs : List α) : Nat :=
  exprs.length + strs.countP (· ≠ [])

theorem length_chunk (s : Bytes) : (chunk s : List (Bytes ⊕ α)).length = if s ≠ [] then 1 else 0 := by
  unfold chunk
  by_cases h : s = []
  · rw [if_pos h, if_neg (not_not.mpr h)]
    rfl
  · rw [if_neg h, if_pos h]
    rfl

/-- a template has at most one more chunk than it has expressions -/
theorem length_tplOperands (strs : List Bytes) (exprs : List α)
    (h : strs.length ≤ exprs.length + 1) :
    (tplOperands strs exprs).length = nparts strs exprs := by
  induction exprs generalizing strs with
  | nil =>
    match strs with
    | [] => rfl
    | s :: t =>
      have ht : t = [] := List.length_eq_zero_iff.mp (by simpa using h)
      rw [ht, tplOperands, length_chunk, nparts, List.countP_singleton]
      simp
  | cons e exprs ih =>
    match strs with
    | [] =>
      rw [tplOperands, List.length_cons, ih [] (Nat.zero_le _)]
      rfl
    | s :: t =>
      have ht := ih t (by simpa using h)
      rw [tplOperands, List.length_append, List.length_cons, ht, length_chunk, nparts, nparts,
        List.countP_cons, List.length_cons]
      simp only [decide_eq_true_eq]
      omega

end

/-! ## `hp_str_concat_n` -/

section
variable (fromDouble : Double → Bytes)

/-- `parts[cnt++] = hp_val_to_str(vals[i])`, as long as `cnt < 64` -/
def collect (h : Heap) (cnt : Nat) : List (HVal Addr) → Heap × List Addr
  | [] => (h, [])
  | v :: vals =>
    if cnt < 64 then
      let (h, p) := hpValToStr fromDouble h v
      let (h, parts) := collect h (cnt + 1) vals
      (h, p :: parts)
    else (h, [])

/-- an address that is not in the heap is a fault -/
def hpStrConcatN (h : Heap) (vals : List (HVal Addr)) : Option (Heap × Addr) :=
  let (h, parts) := collect fromDouble h 0 vals
  (parts.mapM h.get).map fun ss => h.alloc (hpStrNew (ss.flatMap Hstr.bytes))

/-- from `h` to `h'` the string at `r` was made of the texts of all values, and nothing else
happened -/
def Concats (h h' : Heap) (r : Addr) (vals : List (HVal Addr)) : Prop :=
  (∃ s, h'.get r = some s ∧ s.bytes = vals.flatMap (valBytes fromDouble h)) ∧ Keeps h h'

variable {h h1 h2 : Heap} {vals : List (HVal Addr)} {cnt : Nat}

/-- the addresses are those of the texts, which the later conversions leave as they are -/
theorem collect_spec (hv : ∀ v ∈ vals, h.Valid (ref v)) :
    h.objs <+: (collect fromDouble h cnt vals).1.objs ∧
      ∃ ss, (collect fromDouble h cnt vals).2.mapM (collect fromDouble h cnt vals).1.get = some ss ∧
        ss.map Hstr.bytes = (vals.take (64 - cnt)).map (valBytes fromDouble h) := by
  induction vals generalizing h cnt with
  | nil => exact ⟨List.prefix_refl _, [], rfl, by simp⟩
  | cons v vals ih =>
    rw [collect]
    by_cases hc : cnt < 64
    · have hd := valToStr_denotes fromDouble (hv v (List.mem_cons_self ..))
      have hrest : ∀ w ∈ vals, (hpValToStr fromDouble h v).1.Valid (ref w) := fun w hw =>
        valid_ext hd.ext (hv w (List.mem_cons_of_mem _ hw))
      obtain ⟨hx, ss, hget, hbytes⟩ := @ih _ (cnt + 1) hrest
      obtain ⟨s, hs, hsb⟩ := hd.get
      have hn : 64 - cnt = 64 - (cnt + 1) + 1 := by omega
      rw [if_pos hc]
      refine ⟨hd.ext.trans hx, s :: ss, ?_, ?_⟩
      · rw [List.mapM_cons, get_ext hx hs]
        simp only [hget]
        rfl
      · rw [hn, List.take_succ_cons, List.map_cons, List.map_cons, hsb, hbytes]
        refine congrArg _ (List.map_congr_left fun w hw => ?_)
        exact valBytes_ext fromDouble hd.ext
          (hv w (List.mem_cons_of_mem _ (List.mem_of_mem_take hw)))
    · have hn : 64 - cnt = 0 := by omega
      rw [if_neg hc, hn]
      exact ⟨List.prefix_refl _, [], rfl, rfl⟩

/-- what the new string holds -/
theorem concatN_bytes (hv : ∀ v ∈ vals, h.Valid (ref v)) :
    ∃ h' r, hpStrConcatN fromDouble h vals = some (h', r) ∧ Keeps h h' ∧
      h'.get r = some (hpStrNew ((vals.take 64).flatMap (valBytes fromDouble h))) := by
  obtain ⟨hx, ss, hget, hbytes⟩ := @collect_spec fromDouble _ _ 0 hv
  have hnew : ss.flatMap Hstr.bytes = (vals.take 64).flatMap (valBytes fromDouble h) := by
    rw [List.flatMap_def, hbytes, ← List.flatMap_def]
  have hc : hpStrConcatN fromDouble h vals = some
      ((collect fromDouble h 0 vals).1.alloc (hpStrNew (ss.flatMap Hstr.bytes))) := by
    rw [hpStrConcatN]
    simp only [hget, Option.map_some]
  refine ⟨_, _, hc, keeps_of_ext (hx.trans (alloc_ext ..)), ?_⟩
  rw [← hnew]
  exact get_alloc ..

theorem flatMap_take_iff {α β : Type*} (n : Nat) (xs : List α) (f : α → List β) :
    (xs.take n).flatMap f = xs.flatMap f ↔ ∀ x ∈ xs.drop n, f x = [] := by
  have hsplit : xs.flatMap f = (xs.take n).flatMap f ++ (xs.drop n).flatMap f := by
    rw [← List.flatMap_append, List.take_append_drop]
  rw [hsplit, ← List.flatMap_eq_nil_iff]
  exact ⟨fun h => List.append_right_eq_self.mp h.symm, fun h => by rw [h, List.append_nil]⟩

/-- **`hp_str_concat_n`** joins the texts of all its values if and only if those behind the first
64 are empty; it never faults and leaves every other string alone. -/
theorem concatN_iff (h : Heap) (vals : List (HVal Addr)) (hv : ∀ v ∈ vals, h.Valid (ref v)) :
    (∃ h' r, hpStrConcatN fromDouble h vals = some (h', r) ∧ Concats fromDouble h h' r vals) ↔
      ∀ v ∈ vals.drop 64, valBytes fromDouble h v = [] := by
  obtain ⟨h', r, hc, hkeeps, hget⟩ := concatN_bytes fromDouble hv
  rw [← flatMap_take_iff]
  constructor
  · rintro ⟨h1, r1, hc1, ⟨s, hs, hb⟩, -⟩
    obtain ⟨rfl, rfl⟩ := Prod.mk.inj (Option.some.inj (hc.symm.trans hc1))
    obtain rfl := Option.some.inj (hget.symm.trans hs)
    exact hb
  · intro hall
    exact ⟨h', r, hc, ⟨_, hget, hall⟩, hkeeps⟩

end

theorem concatN_iff_seven : (∀ v ∈ List.replicate 64 (HVal.int 7), heapA.Valid (ref v)) ∧
    ∃ h' r, hpStrConcatN (fun _ => []) heapA (List.replicate 64 (.int 7)) = some (h', r) ∧
      Concats (fun _ => []) heapA h' r (List.replicate 64 (.int 7)) := by
  have hv : ∀ v ∈ List.replicate 64 (HVal.int 7), heapA.Valid (ref v) := fun v hv => by
    rw [List.eq_of_mem_replicate hv]
    exact fun p hp => nomatch hp
  refine ⟨hv, (concatN_iff (fun _ => []) heapA _ hv).mpr fun v hm => ?_⟩
  rw [List.drop_eq_nil_of_le (Nat.le_of_eq List.length_replicate)] at hm
  exact nomatch hm

/-- the 65th of 65 sevens is lost -/
theorem concatN_loses : ¬ ∀ (fromDouble : Double → Bytes) (h : Heap) (vals : List (HVal Addr)),
    (∀ v ∈ vals, h.Valid (ref v)) →
    ∃ h' r, hpStrConcatN fromDouble h vals = some (h', r) ∧ Concats fromDouble h h' r vals := by
  intro hall
  have hv : ∀ v ∈ List.replicate 65 (HVal.int 7), heapA.Valid (ref v) := fun v hv => by
    rw [List.eq_of_mem_replicate hv]
    exact fun p hp => nomatch hp
  obtain ⟨h', r, hc, ⟨s, hs, hb⟩, -⟩ := hall (fun _ => []) heapA _ hv
  obtain ⟨h1, r1, hc1, -, hget⟩ := concatN_bytes (fun _ => []) hv
  obtain ⟨rfl, rfl⟩ := Prod.mk.inj (Option.some.inj (hc.symm.trans hc1))
  obtain rfl := Option.some.inj (hs.symm.trans hget)
  exact absurd (congrArg List.length hb) (by decide)

end ConcatN
end HolyPhp
