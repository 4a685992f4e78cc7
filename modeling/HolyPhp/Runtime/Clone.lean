import HolyPhp.Json.Decode
import HolyPhp.Runtime.ArrScan
import HolyPhp.Runtime.Cmp
import Mathlib.Data.List.Find

/-!
# Copies of values

The arrays are in a heap that grows at its end: a clone goes in when all its elements are there.

* `hpArrClone`, `hpValCloneV`, `hpValEq`  the functions;
* `Levels h n v`  in the heap `h` the value `v` has at most `n` levels of arrays;
* `Copy h lo v w` the value `w` is a copy of `v`, with arrays from the address `lo` on;
* `clone_copy`    a clone is a copy, behind everything that was there;
* `clone_iff`     **a clone is equal to its original in every way if and only if it is no array**:
                  it is identical up to 65 levels, answers like the original and is apart from it,
                  but `hp_val_eq` compares the addresses of arrays.
-/

set_option autoImplicit false

namespace HolyPhp
namespace Clone
open Arr hiding hpArrClone
open HolyPhp.Std (Heap getElem?_append hpIdentEqR hpIdentEq)
open Runs

/-! ## the functions -/

section
variable (junk : Nat → Val)

/-- the loop of `hp_arr_clone` over the first elements of `a`: the values of the clone, and the
heap with the clones of the nested arrays -/
def cloneVals (clone : Heap → Addr → Option (Addr × Heap)) (a : Harr) :
    Nat → Heap → Option ((Nat → Val) × Heap)
  | 0, h => some (junk, h)
  | n + 1, h => (cloneVals clone a n h).bind fun (vs, h) =>
    match a.vals n with
    | .arr (some p) => (clone h p).map fun (q, h) => (Function.update vs n (.arr (some q)), h)
    | v => some (Function.update vs n v, h)

/-- the fields other than the values are those of `Arr.hpArrClone` -/
def hpArrClone : Nat → Heap → Addr → Option (Addr × Heap)
  | 0, _, _ => none
  | fuel + 1, h, p => h[p]?.bind fun a =>
    (cloneVals junk (hpArrClone fuel) a a.len h).map fun (vs, h) =>
      (h.length, h ++ [{ Arr.hpArrClone junk id a with vals := vs }])

def hpValCloneV (fuel : Nat) (h : Heap) : Val → Option (Val × Heap)
  | .arr (some p) => (hpArrClone junk fuel h p).map fun (q, h) => (.arr (some q), h)
  | v => some (v, h)

end

def hpValToBool (h : Heap) : Val → Bool
  | .null => false
  | .int i => i != 0
  | .float f => !f.eq ⟨0⟩
  | .bool b => b
  | .str s => (s.map fun s => decide (0 < s.length)).getD false
  | .arr p => ((p.bind (h[·]?)).map fun a => decide (0 < a.len)).getD false
  | .obj p => p.isSome
  | .clo c => c.isSome

/-- `hp_str_eq` -/
def hpStrEq (a b : Option Bytes) : Bool := a == b

def hpValEq (strtod : Bytes → Double) (h : Heap) : Val → Val → Bool
  | .str a, .str b => hpStrEq a b
  | .arr a, .arr b => a == b
  | .null, .null => true
  | a, b =>
    if a = .null ∨ b = .null then !hpValToBool h a && !hpValToBool h b
    else if a.tag = .bool ∨ b.tag = .bool then hpValToBool h a == hpValToBool h b
    else if a.tag = .float ∨ b.tag = .float ∨ a.tag = .int ∨ b.tag = .int then
      (Cmp.hpValToFloat strtod a).eq (Cmp.hpValToFloat strtod b)
    else false

/-! ## values with nested arrays -/

/-- null, a bool, an int, a string, or a NULL array -/
def plain : Val → Bool
  | .null | .int _ | .bool _ | .str _ | .arr none => true
  | _ => false

/-- at most `n` levels of arrays, each made by the operations, with int and string keys -/
inductive Levels (h : Heap) : Nat → Val → Prop
  | plain {n : Nat} {v : Val} : plain v = true → Levels h n v
  | arr {n p : Nat} {a : Harr} : h[p]? = some a → arrays.Reach a →
      (a.isMap = true → ∀ i < a.len, hashable (a.key i) = true) →
      (∀ i < a.len, Levels h n (a.vals i)) → Levels h (n + 1) (.arr (some p))

/-- `b` has the form and the keys of `a`, and no index -/
structure Shape (a b : Harr) : Prop where
  len : b.len = a.len
  isMap : b.isMap = a.isMap
  keyed : 0 < a.len → b.keyed = a.keyed
  index : b.index = none
  keys : a.isMap = true → ∀ i < a.len, b.key i = a.key i

inductive Copy (h : Heap) (lo : Nat) : Val → Val → Prop
  | plain {v : Val} : plain v = true → Copy h lo v v
  | arr {p q : Nat} {a b : Harr} : p ≠ q → lo ≤ q → h[p]? = some a → h[q]? = some b → Shape a b →
      (∀ i < a.len, Copy h lo (a.vals i) (b.vals i)) → Copy h lo (.arr (some p)) (.arr (some q))

/-- the arrays of the value and those nested in it -/
inductive Within (h : Heap) : Val → Addr → Prop
  | top {p : Nat} : Within h (.arr (some p)) p
  | nested {p q i : Nat} {a : Harr} : h[p]? = some a → i < a.len → Within h (a.vals i) q →
      Within h (.arr (some p)) q

section
variable {h : Heap} {lo n p : Nat} {v w : Val} {a b : Harr}

theorem Levels.append (new : Heap) (hl : Levels h n v) : Levels (h ++ new) n v := by
  induction hl with
  | plain hv => exact .plain hv
  | arr hp hr hk _ ih => exact .arr (getElem?_append hp new) hr hk ih

theorem Copy.append (new : Heap) (hc : Copy h lo v w) : Copy (h ++ new) lo v w := by
  induction hc with
  | plain hv => exact .plain hv
  | arr hne hlo hp hq hs _ ih =>
    exact .arr hne hlo (getElem?_append hp new) (getElem?_append hq new) hs ih

theorem Copy.mono {lo' : Nat} (hle : lo' ≤ lo) (hc : Copy h lo v w) : Copy h lo' v w := by
  induction hc with
  | plain hv => exact .plain hv
  | arr hne hlo hp hq hs _ ih => exact .arr hne (Nat.le_trans hle hlo) hp hq hs ih

/-- the levels of a value do not depend on arrays that are new -/
theorem Levels.of_append {m : Nat} {new : Heap} (hl : Levels h n v) (hm : Levels (h ++ new) m v) :
    Levels h m v := by
  induction hl generalizing m with
  | plain hv => exact .plain hv
  | arr hp hr hk _ ih =>
    cases hm with
    | plain hv => nomatch hv
    | arr hp' hr' hk' hvals =>
      obtain rfl := Option.some.inj ((getElem?_append hp new).symm.trans hp')
      exact .arr hp hr hk fun i hi => ih i hi (hvals i hi)

theorem Levels.mono {m : Nat} (hl : Levels h n v) (hle : n ≤ m) : Levels h m v := by
  induction hl generalizing m with
  | plain hv => exact .plain hv
  | arr hp hr hk _ ih =>
    obtain ⟨m, rfl⟩ := Nat.exists_eq_succ_of_ne_zero (Nat.ne_zero_of_lt hle)
    exact .arr hp hr hk fun i hi => ih i hi (Nat.le_of_succ_le_succ hle)

/-- the arrays of a copy are new -/
theorem Copy.within (hc : Copy h lo v w) (hw : Within h w p) : lo ≤ p := by
  induction hc with
  | plain hv =>
    cases hw with
    | top => nomatch hv
    | nested => nomatch hv
  | arr hne hlo hp hq hs _ ih =>
    cases hw with
    | top => exact hlo
    | nested hq' hi hin =>
      obtain rfl := Option.some.inj (hq.symm.trans hq')
      exact ih _ (hs.len ▸ hi) hin

end

/-! ## the keys of an array -/

/-- `keys` is allocated in maps only, and in maps with room for an element -/
structure KeysOwned (a : Harr) : Prop where
  map : a.keyed = true → a.isMap = true
  keyed : a.isMap = true → 0 < a.cap → a.keyed = true
  len_le : a.len ≤ a.cap

namespace KeysOwned
variable {a b : Harr} {k v : Val} {n : Nat}

theorem grow_keyed (h : (hpArrGrow a n).keyed = true) : a.keyed = true ∨ a.isMap = true := by
  unfold hpArrGrow at h
  split at h
  · exact .inl h
  · exact Bool.or_eq_true_iff.1 h

theorem new (junk : Nat → Val) (m : Bool) : KeysOwned { hpArrNew junk with isMap := m } :=
  ⟨nofun, fun _ h => absurd h (Nat.lt_irrefl 0), Nat.le_refl 0⟩

theorem push (h : KeysOwned a) (v : Val) : KeysOwned (hpArrPush a v) := by
  obtain ⟨ha, hm, -⟩ := push_spec a v
  refine ⟨fun hk => ?_, fun hm' _ => ha.keyed hm' (h.keyed (hm ▸ hm')), ha.len ▸ ha.cap⟩
  rw [hm]
  exact (grow_keyed (n := a.len + 1) hk).elim h.map id

theorem append (h : KeysOwned a) (k v : Val) : KeysOwned (a.append k v) := by
  obtain ⟨ha, hm, -⟩ := append_spec a k v
  refine ⟨fun hk => ?_, fun hm' _ => ?_, ha.len ▸ ha.cap⟩
  · rw [hm]
    rcases Bool.or_eq_true_iff.1 hk with hk | hk
    · rcases grow_keyed hk with hk | hk
      · exact Bool.or_eq_true_iff.2 (.inl (h.map hk))
      · exact hk
    · exact hm ▸ hk
  · show ((hpArrGrow { a with isMap := a.isMap || a.converts k } (a.len + 1)).keyed || _) = true
    exact Bool.or_eq_true_iff.2 (.inr hm')

theorem set (h : KeysOwned a) (hs : hpArrSet a k v = some b) : KeysOwned b := by
  rcases set_cases hs with ⟨-, rfl⟩ | ⟨i, -, -, rfl⟩ | ⟨-, -, c, hc, rfl⟩
  · exact h.push v
  · exact ⟨h.map, h.keyed, h.len_le⟩
  · obtain ⟨o, n, hb⟩ := set_new hc
    have ha := h.append k v
    rw [hb]
    exact ⟨ha.map, ha.keyed, ha.len_le⟩

theorem unset (h : KeysOwned a) (hs : hpArrUnset a k = some b) : KeysOwned b := by
  rcases unset_cases hs with ⟨-, rfl⟩ | ⟨i, ks, vs, o, -, -, rfl⟩
  · exact h
  · exact ⟨h.map, h.keyed, Nat.le_trans (Nat.sub_le ..) h.len_le⟩

theorem unshift (h : KeysOwned a) (v : Val) : KeysOwned (hpArrUnshift a v) := by
  obtain ⟨hlen, hm, -, hcap, -, -, -, hkeyed⟩ := unshift_spec h.len_le v
  refine ⟨fun hk => ?_, fun hm' _ => hkeyed (hm ▸ hm') (h.keyed (hm ▸ hm')), hlen ▸ hcap⟩
  rw [hm]
  exact (grow_keyed (n := a.len + 1) hk).elim h.map id

theorem clone (junk : Nat → Val) (dup : Addr → Addr) (a : Harr) :
    KeysOwned (Arr.hpArrClone junk dup a) := by
  obtain ⟨hg, hcap⟩ := grow_spec { hpArrNew junk with isMap := a.isMap, nextIndex := a.nextIndex } a.len
  refine ⟨fun hk => ?_, fun hm hc => ?_, hcap⟩
  · rcases grow_keyed (n := a.len) hk with hk | hk
    · nomatch hk
    · exact hg.isMap.trans hk
  · exact hg.keyed_of_pos (hg.isMap ▸ hm) hc fun h0 => absurd h0 (Nat.lt_irrefl 0)

/-- every array has its keys in this way -/
theorem reach (h : arrays.Reach a) : KeysOwned a := by
  refine Sys.Reach.inv (fun s h0 => ?_) (fun s l t hs hn => ?_) h
  · obtain ⟨junk, rfl | rfl⟩ := h0
    · exact .new junk false
    · exact .new junk true
  · cases l with
    | set k v => exact hs.set hn
    | push v => exact Option.some.inj hn ▸ hs.push v
    | unshift v => exact Option.some.inj hn ▸ hs.unshift v
    | unset k => exact hs.unset hn
    | pop =>
      obtain rfl := Option.some.inj hn
      unfold hpArrPop
      split
      · exact hs
      · exact ⟨hs.map, hs.keyed, Nat.le_trans (Nat.sub_le ..) hs.len_le⟩
    | shift =>
      obtain rfl := Option.some.inj hn
      unfold hpArrShift
      split
      · exact hs
      · exact ⟨hs.map, hs.keyed, Nat.le_trans (Nat.sub_le ..) hs.len_le⟩
    | clone junk dup => exact Option.some.inj hn ▸ .clone junk dup s

end KeysOwned

/-! ## a clone is a copy -/

section
variable {junk : Nat → Val} {h : Heap} {n p : Nat} {v : Val} {a : Harr}

/-- what one clone has of its original -/
theorem shape_clone (junk : Nat → Val) (ha : KeysOwned a) (vs : Nat → Val) :
    Shape a { Arr.hpArrClone junk id a with vals := vs } := by
  obtain ⟨hg, -⟩ := grow_spec { hpArrNew junk with isMap := a.isMap, nextIndex := a.nextIndex } a.len
  have hc := KeysOwned.clone junk id a
  have hm : (Arr.hpArrClone junk id a).isMap = a.isMap := hg.isMap
  refine ⟨rfl, hm, fun hpos => ?_, hg.index, fun hmap i hi => ?_⟩
  · show (Arr.hpArrClone junk id a).keyed = a.keyed
    cases hmap : a.isMap with
    | true =>
      rw [hc.keyed (hm.trans hmap) (Nat.lt_of_lt_of_le hpos hc.len_le),
        ha.keyed hmap (Nat.lt_of_lt_of_le hpos ha.len_le)]
    | false =>
      have h1 : (Arr.hpArrClone junk id a).keyed ≠ true := fun hk =>
        nomatch hmap.symm.trans (hm.symm.trans (hc.map hk))
      have h2 : a.keyed ≠ true := fun hk => nomatch hmap.symm.trans (ha.map hk)
      rw [Bool.eq_false_iff.2 h1, Bool.eq_false_iff.2 h2]
  · show (if _ then _ else _ : Key).val = a.key i
    rw [if_pos ⟨hm.trans hmap, hi⟩]
    rfl

variable (junk) in
/-- the values of the clone are copies, if the clones of nested arrays are -/
theorem cloneVals_copy {clone : Heap → Addr → Option (Addr × Heap)}
    (hclone : ∀ h p, Levels h n (.arr (some p)) → ∃ q new, clone h p = some (q, h ++ new) ∧
      Copy (h ++ new) h.length (.arr (some p)) (.arr (some q)))
    (k : Nat) (hl : ∀ i < k, Levels h n (a.vals i)) :
    ∃ vs new, cloneVals junk clone a k h = some (vs, h ++ new) ∧
      ∀ i < k, Copy (h ++ new) h.length (a.vals i) (vs i) := by
  induction k with
  | zero => exact ⟨junk, [], by rw [List.append_nil]; rfl, fun i hi => absurd hi (Nat.not_lt_zero i)⟩
  | succ k ih =>
    obtain ⟨vs, new, hvs, hcopy⟩ := ih fun i hi => hl i (Nat.lt_succ_of_lt hi)
    have hlk := hl k (Nat.lt_succ_self k)
    have hput : ∀ (new' : Heap) {w : Val}, Copy (h ++ (new ++ new')) h.length (a.vals k) w →
        ∀ i < k + 1, Copy (h ++ (new ++ new')) h.length (a.vals i) (Function.update vs k w i) := by
      intro new' w hw i hi
      by_cases he : i = k
      · subst he
        rw [Function.update_self]
        exact hw
      · rw [Function.update_of_ne he, ← List.append_assoc]
        exact (hcopy i (by omega)).append new'
    rw [cloneVals, hvs, Option.bind_some]
    dsimp only
    split
    · rename_i p hp
      rw [hp] at hlk
      obtain ⟨q, new', hq, hc⟩ := hclone (h ++ new) p (hlk.append new)
      rw [List.append_assoc] at hc hq
      refine ⟨_, new ++ new', by rw [hq]; rfl, hput new' ?_⟩
      rw [hp]
      exact hc.mono (by rw [List.length_append]; omega)
    · rename_i hno
      refine ⟨_, new, rfl, ?_⟩
      have hplain : Copy h h.length (a.vals k) (a.vals k) := by
        generalize hv : a.vals k = w at hlk
        cases hlk with
        | plain hpl => exact .plain hpl
        | arr => exact absurd hv (hno _)
      have hall := hput [] (hplain.append _)
      rwa [List.append_nil] at hall

variable (junk) in
/-- **A clone is a copy**, with new arrays behind those that were there. -/
theorem clone_copy (n : Nat) : ∀ h p, Levels h n (.arr (some p)) →
    ∃ q new, hpArrClone junk n h p = some (q, h ++ new) ∧
      Copy (h ++ new) h.length (.arr (some p)) (.arr (some q)) := by
  induction n with
  | zero =>
    intro h p hl
    cases hl with
    | plain hv => nomatch hv
  | succ n ih =>
    intro h p hl
    cases hl with
    | plain hv => nomatch hv
    | @arr _ _ a hp hr hk hvals =>
      obtain ⟨vs, new, hvs, hcopy⟩ := cloneVals_copy junk ih a.len hvals
      refine ⟨(h ++ new).length, new ++ [{ Arr.hpArrClone junk id a with vals := vs }], ?_, ?_⟩
      · rw [hpArrClone, hp, Option.bind_some, hvs, ← List.append_assoc]
        rfl
      · have hlt := (List.getElem?_eq_some_iff.1 hp).1
        have hle : h.length ≤ (h ++ new).length := by
          rw [List.length_append]
          omega
        rw [← List.append_assoc]
        refine .arr (Nat.ne_of_lt (Nat.lt_of_lt_of_le hlt hle)) hle
          (getElem?_append (getElem?_append hp new) _) ?_ (shape_clone junk (.reach hr) vs)
          fun i hi => (hcopy i hi).append _
        rw [List.getElem?_append_right (Nat.le_refl _), Nat.sub_self]
        rfl

/-- a value that is no array is its own clone -/
theorem clone_plain (hv : plain v = true) (fuel : Nat) : hpValCloneV junk fuel h v = some (v, h) := by
  unfold hpValCloneV
  split
  · nomatch hv
  · rfl

variable (junk) in
theorem clone_value (hl : Levels h n v) : ∃ w new, hpValCloneV junk n h v = some (w, h ++ new) ∧
    Copy (h ++ new) h.length v w := by
  cases hl with
  | plain hv => exact ⟨v, [], by rw [clone_plain hv, List.append_nil], .plain hv⟩
  | @arr n p a hp hr hk hvals =>
    obtain ⟨q, new, hq, hc⟩ := clone_copy junk (n + 1) h p (.arr hp hr hk hvals)
    exact ⟨.arr (some q), new, by rw [hpValCloneV, hq]; rfl, hc⟩

end

/-! ## identity -/

section
variable {h : Heap} {lo room : Nat} {v w : Val}

theorem ident_plain (hv : plain v = true) (room : Nat) : hpIdentEqR h room v v = some true := by
  cases v with
  | arr p =>
    cases p with
    | none => cases room <;> rfl
    | some p => nomatch hv
  | null => cases room <;> rfl
  | int i => cases room <;> exact congrArg some (beq_self_eq_true i)
  | bool b => cases room <;> exact congrArg some (beq_self_eq_true b)
  | str s => cases room <;> exact congrArg some (beq_self_eq_true s)
  | float f => nomatch hv
  | obj p => nomatch hv
  | clo c => nomatch hv

theorem plain_of_hashable (hv : hashable v = true) : plain v = true := by
  cases v <;> first
    | rfl
    | nomatch hv

/-- a loop that stops at the first element that is not equal -/
theorem foldlM_all {g : Nat → Option Bool} {f : Bool → Nat → Option Bool} (ht : ∀ i, f true i = g i)
    (hf : ∀ i, f false i = some false) (l : List Nat) :
    l.foldlM f true = some true ↔ ∀ i ∈ l, g i = some true := by
  have hstop : ∀ l : List Nat, l.foldlM f false = some false := by
    intro l
    induction l with
    | nil => rfl
    | cons i l ih => rw [List.foldlM_cons, hf]; exact ih
  induction l with
  | nil => exact iff_of_true rfl nofun
  | cons i l ih =>
    rw [List.foldlM_cons, ht, List.forall_mem_cons]
    cases hg : g i with
    | none => exact iff_of_false nofun fun h => nomatch h.1
    | some b =>
      cases b with
      | true => exact ih.trans (and_iff_right rfl).symm
      | false =>
        refine iff_of_false (fun he => ?_) fun h => nomatch h.1
        exact nomatch (hstop l).symm.trans he

/-- **A copy is identical to its original up to 65 levels.** -/
theorem ident_copy {n : Nat} (hc : Copy h lo v w) (hl : Levels h n v) :
    hpIdentEqR h room v w = some true ↔ Levels h room v := by
  induction hc generalizing n room with
  | plain hv => exact iff_of_true (ident_plain hv room) (.plain hv)
  | @arr p q a b hne hlo hp hq hs hvals ih =>
    cases hl with
    | plain hv => nomatch hv
    | arr hp' hr hk hl =>
      obtain rfl := Option.some.inj (hp.symm.trans hp')
      have hsame : ¬(a.len ≠ b.len ∨ a.isMap ≠ b.isMap) := by
        rintro (h1 | h1)
        · exact h1 hs.len.symm
        · exact h1 hs.isMap.symm
      have hne' : some p ≠ some q := fun he => hne (Option.some.inj he)
      cases room with
      | zero =>
        refine iff_of_false (fun he => ?_) fun hz => ?_
        · rw [hpIdentEqR, if_neg hne', hp, hq] at he
          simp only [Option.bind_some, if_neg hsame] at he
          nomatch he
        · cases hz with
          | plain hv => nomatch hv
      | succ room =>
        rw [hpIdentEqR, if_neg hne', hp, hq]
        simp only [Option.bind_some, if_neg hsame]
        rw [foldlM_all (g := fun i => if a.keyed ≠ b.keyed then some false
          else if a.keyed then (hpIdentEqR h room (a.key i) (b.key i)).bind fun ok =>
            if ok then hpIdentEqR h room (a.vals i) (b.vals i) else some false
          else hpIdentEqR h room (a.vals i) (b.vals i))]
        · -- the keys are the same, so an element is identical if its value is
          have helem : ∀ i < a.len, (if a.keyed ≠ b.keyed then some false
              else if a.keyed then (hpIdentEqR h room (a.key i) (b.key i)).bind fun ok =>
                if ok then hpIdentEqR h room (a.vals i) (b.vals i) else some false
              else hpIdentEqR h room (a.vals i) (b.vals i)) =
              hpIdentEqR h room (a.vals i) (b.vals i) := by
            intro i hi
            rw [if_neg fun hk' => hk' (hs.keyed (Nat.zero_lt_of_lt hi)).symm]
            split
            · rename_i hkeyed
              have hm := (KeysOwned.reach hr).map hkeyed
              rw [hs.keys hm i hi, ident_plain (plain_of_hashable (hk hm i hi)), Option.bind_some,
                if_pos rfl]
            · rfl
          constructor
          · intro hall
            refine .arr hp hr hk fun i hi => (ih i hi (hl i hi)).1 ?_
            rw [← helem i hi]
            exact hall i (List.mem_range.2 hi)
          · intro hlev i hi
            have hi' := List.mem_range.1 hi
            cases hlev with
            | plain hv => nomatch hv
            | arr hp'' _ _ hvals' =>
              obtain rfl := Option.some.inj (hp.symm.trans hp'')
              exact (helem i hi').trans ((ih i hi' (hl i hi')).2 (hvals' i hi'))
        · intro i
          by_cases he : a.keyed = b.keyed
          · have h1 : ¬(¬true = true ∨ a.keyed ≠ b.keyed) :=
              fun h => h.elim (fun h => h rfl) fun h => h he
            rw [if_neg h1, if_neg fun h : a.keyed ≠ b.keyed => h he]
          · rw [if_pos (.inr he), if_pos he]
        · intro i
          exact if_pos (.inl nofun)

end

/-! ## lookups -/

section
variable {h : Heap} {lo : Nat} {a b : Harr} {k : Val}

/-- an array without an index is scanned -/
theorem keyIndex_scan (hm : b.isMap = true) (hi : b.index = none) (k : Val) :
    hpKeyIndex b k = some (b.scan k) := by
  unfold hpKeyIndex
  rw [if_pos hm, hi]

theorem scan_eq (hs : Shape a b) (hm : a.isMap = true) (k : Val) : b.scan k = a.scan k := by
  unfold Harr.scan
  rw [hs.len]
  apply List.find?_congr
  intro i hi
  rw [hs.keys hm i (List.mem_range.1 hi)]

/-- the copy of an array finds what a scan of the array finds -/
theorem keyIndex_copy (hs : Shape a b) (ha : a.isMap = true → hpKeyIndex a k = some (a.scan k)) :
    hpKeyIndex b k = hpKeyIndex a k := by
  cases hm : a.isMap with
  | true => rw [keyIndex_scan (hs.isMap.trans hm) hs.index, scan_eq hs hm, ha hm]
  | false =>
    have hbm := hs.isMap.trans hm
    unfold hpKeyIndex
    rw [hm, hbm, hs.len]
    rfl

/-- a slot that a lookup finds is one of the array -/
theorem keyIndex_lt {i : Nat} (ha : a.isMap = true → hpKeyIndex a k = some (a.scan k))
    (hi : hpKeyIndex a k = some (some i)) : i < a.len := by
  cases hm : a.isMap with
  | true =>
    rw [ha hm] at hi
    exact List.mem_range.1 (List.mem_of_find?_eq_some (Option.some.inj hi))
  | false =>
    unfold hpKeyIndex at hi
    rw [hm, if_neg Bool.false_ne_true] at hi
    split at hi
    · nomatch hi
    · dsimp only at hi
      split at hi
      · nomatch hi
      · obtain rfl := Option.some.inj (Option.some.inj hi)
        omega

/-- the array `w` answers every lookup as `v` does, with copies of what is there -/
def Answers (h : Heap) (lo : Nat) (v w : Val) : Prop :=
  ∀ p q a b, v = .arr (some p) → w = .arr (some q) → h[p]? = some a → h[q]? = some b → ∀ k,
    hpArrHas b k = hpArrHas a k ∧
      ∀ x, hpArrGet a k = some x → ∃ y, hpArrGet b k = some y ∧ Copy h lo x y

/-- the index of the array says what a scan of its keys says -/
def InOrder (h : Heap) (v : Val) : Prop :=
  ∀ p a, v = .arr (some p) → h[p]? = some a → a.isMap = true → ∀ k, hpKeyIndex a k = some (a.scan k)

theorem answers_copy {v w : Val} (hc : Copy h lo v w) (ho : InOrder h v) : Answers h lo v w := by
  rintro p q a b rfl rfl hp hq k
  cases hc with
  | plain hv => nomatch hv
  | arr _ _ hp' hq' hs hvals =>
    obtain rfl := Option.some.inj (hp.symm.trans hp')
    obtain rfl := Option.some.inj (hq.symm.trans hq')
    have ha : a.isMap = true → hpKeyIndex a k = some (a.scan k) := fun hm => ho p a rfl hp hm k
    have hidx := keyIndex_copy hs ha
    refine ⟨congrArg (Option.map Option.isSome) hidx, fun x hx => ?_⟩
    obtain ⟨o, ho', rfl⟩ := Option.map_eq_some_iff.1 hx
    refine ⟨(o.map b.vals).getD .null, ?_, ?_⟩
    · rw [hpArrGet, hidx, ho']
      rfl
    · cases o with
      | none => exact .plain rfl
      | some i => exact hvals i (keyIndex_lt ha ho')

end

/-! ## later writes -/

/-- one operation on the array at an address -/
def heapStep (h : Heap) (o : Addr × Op) : Option Heap :=
  h[o.1]?.bind fun a => (arrays.next a o.2).map fun b => h.set o.1 b

/-- no operations on the arrays of `w` change an array of the heap `h` -/
def Apart (h h' : Heap) (w : Val) : Prop :=
  ∀ (ops : List (Addr × Op)) h'', (∀ o ∈ ops, Within h' w o.1) → ops.foldlM heapStep h' = some h'' →
    ∀ p < h.length, h''[p]? = h[p]?

section
variable {h h' : Heap} {lo : Nat} {v w : Val}

theorem heapStep_below {o : Addr × Op} (hs : heapStep h o = some h') (ho : lo ≤ o.1) {p : Nat}
    (hp : p < lo) : h'[p]? = h[p]? := by
  obtain ⟨a, -, ha⟩ := Option.bind_eq_some_iff.1 hs
  obtain ⟨b, -, rfl⟩ := Option.map_eq_some_iff.1 ha
  exact List.getElem?_set_ne (by omega)

theorem foldlM_below {ops : List (Addr × Op)} (hs : ops.foldlM heapStep h = some h')
    (ho : ∀ o ∈ ops, lo ≤ o.1) {p : Nat} (hp : p < lo) : h'[p]? = h[p]? := by
  induction ops generalizing h with
  | nil => exact Option.some.inj hs ▸ rfl
  | cons o ops ih =>
    rw [List.foldlM_cons] at hs
    obtain ⟨h₁, h1, h2⟩ := Option.bind_eq_some_iff.1 hs
    rw [List.forall_mem_cons] at ho
    rw [ih h2 ho.2, heapStep_below h1 ho.1 hp]

theorem apart_copy {new : Heap} (hc : Copy (h ++ new) h.length v w) : Apart h (h ++ new) w := by
  intro ops h'' hops hrun p hp
  rw [foldlM_below hrun (fun o ho => hc.within (hops o ho)) hp, List.getElem?_append_left hp]

end

/-! ## the claim on copies -/

section
variable {strtod : Bytes → Double} {junk : Nat → Val} {h h' : Heap} {n lo : Nat} {v w : Val}

/-- `w` is equal to `v` for `===` and for `==`, answers like it, and is apart from it -/
structure Faithful (strtod : Bytes → Double) (h h' : Heap) (v w : Val) : Prop where
  ident : hpIdentEq h' v w = some true
  eq : hpValEq strtod h' v w = true
  answers : Answers h' h.length v w
  apart : Apart h h' w

theorem valEq_plain (hv : plain v = true) : hpValEq strtod h v v = true := by
  have hnum : ∀ i, (Double.ofInt64 i).eq (Double.ofInt64 i) = true := fun i =>
    Double.eq_iff.2 ⟨Double.ofInt64_not_nan i, Double.ofInt64_not_nan i, rfl⟩
  cases v with
  | arr p =>
    cases p with
    | none => rfl
    | some p => nomatch hv
  | null => rfl
  | int i => exact hnum i
  | bool b => exact beq_self_eq_true b
  | str s => exact beq_self_eq_true s
  | float f => nomatch hv
  | obj p => nomatch hv
  | clo c => nomatch hv

/-- `==` on a copy tells whether it is an array -/
theorem valEq_copy (hc : Copy h lo v w) : hpValEq strtod h v w = true ↔ plain v = true := by
  cases hc with
  | plain hv => exact iff_of_true (valEq_plain hv) hv
  | arr hne => exact iff_of_false (fun he => hne (Option.some.inj (eq_of_beq he))) nofun

end

/-- **A clone is faithful if and only if it is no array.**  It is identical up to 65 levels,
answers like its original if the index of that is in order, and is apart from it always. -/
theorem clone_iff (strtod : Bytes → Double) (junk : Nat → Val) {h : Heap} {n : Nat} {v : Val}
    (hl : Levels h n v) : ∃ w h', hpValCloneV junk n h v = some (w, h') ∧
      (Faithful strtod h h' v w ↔ plain v = true) ∧
      (hpIdentEq h' v w = some true ↔ Levels h 65 v) ∧
      (InOrder h v → Answers h' h.length v w) ∧ Apart h h' w := by
  obtain ⟨w, new, hw, hc⟩ := clone_value junk hl
  have hident : hpIdentEq (h ++ new) v w = some true ↔ Levels h 65 v :=
    (ident_copy hc (hl.append new)).trans ⟨hl.of_append, Levels.append new⟩
  have hanswers : InOrder h v → Answers (h ++ new) h.length v w := by
    intro ho
    apply answers_copy hc
    rintro p a rfl hp hm k
    cases hl with
    | plain hv => nomatch hv
    | arr hp' =>
      obtain rfl := Option.some.inj ((getElem?_append hp' new).symm.trans hp)
      exact ho p _ rfl hp' hm k
  refine ⟨w, h ++ new, hw, ⟨fun hf => (valEq_copy hc).1 hf.eq, fun hv => ?_⟩, hident, hanswers,
    apart_copy hc⟩
  refine ⟨hident.2 (.plain hv), (valEq_copy hc).2 hv, hanswers ?_, apart_copy hc⟩
  rintro p a rfl
  nomatch hv

/-- `[v]` -/
def single (v : Val) : Harr := hpArrPush (hpArrNew blank) v

theorem single_reach (v : Val) : arrays.Reach (single v) := by
  have h0 : arrays.Reach (hpArrNew blank) := Sys.Reach.init ⟨blank, .inl rfl⟩
  exact h0.step (l := .push v) rfl

theorem levels_single {h : Heap} {p n : Nat} {v : Val} (hp : h[p]? = some (single v))
    (hv : Levels h n v) : Levels h (n + 1) (.arr (some p)) := by
  refine .arr hp (single_reach v) nofun fun i hi => ?_
  have h0 : i = 0 := Nat.lt_one_iff.1 hi
  subst h0
  exact hv

/-- `[[1]]` -/
theorem clone_iff_nested : ∃ w h',
    hpValCloneV blank 2 [single (.int 1), single (.arr (some 0))] (.arr (some 1)) = some (w, h') ∧
    (Faithful (fun _ => ⟨0⟩) [single (.int 1), single (.arr (some 0))] h' (.arr (some 1)) w ↔
      plain (.arr (some 1)) = true) ∧
    (hpIdentEq h' (.arr (some 1)) w = some true ↔
      Levels [single (.int 1), single (.arr (some 0))] 65 (.arr (some 1))) ∧
    (InOrder [single (.int 1), single (.arr (some 0))] (.arr (some 1)) →
      Answers h' 2 (.arr (some 1)) w) ∧
    Apart [single (.int 1), single (.arr (some 0))] h' w :=
  clone_iff (fun _ => ⟨0⟩) blank (levels_single rfl (levels_single rfl (.plain rfl)))

/-- `[1]` is not `==` to its clone -/
theorem clone_single : ∃ w h', hpValCloneV blank 1 [single (.int 1)] (.arr (some 0)) = some (w, h') ∧
    hpIdentEq h' (.arr (some 0)) w = some true ∧
    hpValEq (fun _ => ⟨0⟩) h' (.arr (some 0)) w = false ∧
    ¬ Faithful (fun _ => ⟨0⟩) [single (.int 1)] h' (.arr (some 0)) w :=
  ⟨_, _, rfl, rfl, rfl, fun h => nomatch h.eq⟩

end Clone
end HolyPhp
