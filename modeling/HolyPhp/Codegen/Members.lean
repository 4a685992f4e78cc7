import HolyPhp.Sema.Classes

/-!
# The member paths of fields

An object of a class is a C struct: first the struct of the base, as `__base`, then `__cls` and
the fields of the class itself.  A field that is declared `k` levels up is reached by `k` steps
`__base`.

* `fieldSteps`           the steps that are emitted for a read (`emit_field`) and for a write;
* `classFieldLvalDepth`  the path that is emitted for the initialisation, through a buffer of 256;
* `lookup_iff`           **lookups and paths of a class and a name are right if and only if
                         `Near`: methods and the constructor at most one level up, fields at most
                         one level up, and none of more than 35 levels up to initialise.**
-/

namespace HolyPhp
namespace Classes

section
variable (P : Program)

/-! ## structs -/

/-- `__base` -/
def baseName : Bytes := [95, 95, 98, 97, 115, 101]

/-- `__cls` -/
def clsName : Bytes := [95, 95, 99, 108, 115]

/-- the struct has a member of that name that is not a field -/
def clashes (c : Nat) (name : Bytes) : Bool :=
  name = clsName || ((P.base c).isSome && name = baseName)

/-- the struct that is reached by `__base` -/
def structAt (c : Nat) : Nat → Option Nat
  | 0 => some c
  | n + 1 => (structAt c n).bind P.base

/-- the field that a path of `steps` times `__base` and the name leads to -/
def member (c steps : Nat) (name : Bytes) : Option (Nat × StructField) :=
  (structAt P c steps).bind fun k =>
    if clashes P k name then none
    else ((P.fields k).find? fun f => !f.isStatic && f.name = name).map fun f => (k, f)

/-! ## what is emitted -/

/-- the loop from the class of the receiver to the class of the field -/
def fieldDepth (vcls cls : Nat) : Nat := ((P.forest.chain vcls).takeWhile fun c => c ≠ cls).length

/-- `(&(obj)->__base)->name`, or `(obj)->name`: `emit_field` and, with the same text, the target
of an assignment -/
def fieldSteps (vcls cls : Nat) : Nat :=
  if vcls ≠ cls then (if 0 < fieldDepth P vcls cls then 1 else 0) else 0

/-- what `snprintf` leaves in a buffer of 256 when a text is put behind another one -/
def bufAppend (path text : Bytes) : Bytes := (path ++ text).take 255

/-- `path` in `class_field_lval_depth`, from depth 1 on -/
def lvalPath : Nat → Bytes
  | 0 => bufAppend [] (ascii "self->__base")
  | n + 1 => bufAppend (lvalPath n) (ascii ".__base")

def classFieldLvalDepth (depth : Nat) (name : Bytes) : Bytes :=
  match depth with
  | 0 => ascii "self->" ++ name
  | d + 1 => lvalPath d ++ ascii "." ++ name

/-- the text of `d + 1` steps -/
def stepsText (d : Nat) : Bytes :=
  ascii "self->__base" ++ (List.replicate d (ascii ".__base")).flatten

/-- `self`, `depth` steps and the name -/
def pathText (depth : Nat) (name : Bytes) : Bytes :=
  match depth with
  | 0 => ascii "self->" ++ name
  | d + 1 => stepsText d ++ ascii "." ++ name

end

/-! ## the buffer -/

theorem stepsText_length (d : Nat) : (stepsText d).length = 12 + 7 * d := by
  have h1 : (ascii "self->__base").length = 12 := rfl
  have h2 : (ascii ".__base").length = 7 := rfl
  rw [stepsText, List.length_append, List.length_flatten, List.map_replicate, h1, h2,
    List.sum_replicate_nat, Nat.mul_comm]

theorem stepsText_succ (d : Nat) : stepsText (d + 1) = stepsText d ++ ascii ".__base" := by
  rw [stepsText, stepsText, List.replicate_succ', List.flatten_append, List.flatten_singleton,
    List.append_assoc]

/-- what has been cut off does not come back -/
theorem bufAppend_take (path text : Bytes) :
    bufAppend (path.take 255) text = (path ++ text).take 255 := by
  rw [bufAppend, List.take_append, List.take_append, List.take_take, List.length_take, Nat.min_self]
  congr 1
  rcases Nat.le_total path.length 255 with h | h
  · rw [Nat.min_eq_right h]
  · rw [Nat.min_eq_left h, Nat.sub_eq_zero_of_le h]

theorem lvalPath_eq (d : Nat) : lvalPath d = (stepsText d).take 255 := by
  induction d with
  | zero => rfl
  | succ d ih => rw [lvalPath, ih, stepsText_succ, bufAppend_take]

/-- the path is whole up to depth 35 -/
theorem classFieldLvalDepth_iff (depth : Nat) (name : Bytes) :
    classFieldLvalDepth depth name = pathText depth name ↔ depth ≤ 35 := by
  cases depth with
  | zero => exact ⟨fun _ => Nat.zero_le 35, fun _ => rfl⟩
  | succ d =>
    rw [classFieldLvalDepth, pathText, List.append_left_inj, List.append_left_inj, lvalPath_eq,
      List.take_eq_self_iff, stepsText_length]
    omega

/-! ## paths -/

section
variable {P : Program} {c k : Nat} {name : Bytes} {f : StructField}

theorem structAt_succ (c n : Nat) :
    structAt P c (n + 1) = (P.base c).bind fun b => structAt P b n := by
  induction n with
  | zero =>
    show (some c).bind P.base = (P.base c).bind some
    rw [Option.bind_some, Option.bind_fun_some]
  | succ n ih =>
    rw [structAt, ih]
    cases P.base c with
    | none => rfl
    | some b => rfl

/-- `d` steps lead to the class `d` levels up -/
theorem structAt_eq (c d : Nat) : structAt P c d = (P.forest.chain c)[d]? := by
  induction c using P.forest.climb generalizing d with
  | root c hb =>
    have hb' : P.base c = none := hb
    rw [Forest.chain_root hb]
    cases d with
    | zero => rfl
    | succ d =>
      rw [structAt_succ, hb']
      rfl
  | child c b hb ih =>
    have hb' : P.base c = some b := hb
    rw [Forest.chain_child hb]
    cases d with
    | zero => rfl
    | succ d =>
      rw [structAt_succ, hb', Option.bind_some, ih]
      rfl

/-- the instance field of the class itself -/
def instField (P : Program) (c : Nat) (name : Bytes) : Option StructField :=
  (P.fields c).find? fun f => !f.isStatic && f.name = name

theorem instField_of_own (h : ownField P c name = some f) (hf : f.isStatic = false) :
    instField P c name = some f := by
  rw [ownField] at h
  rw [instField]
  generalize P.fields c = fs at h
  induction fs with
  | nil => cases h
  | cons g gs ih =>
    by_cases hg : g.name = name
    · rw [List.find?_cons_of_pos (by simpa using hg)] at h
      cases h
      rw [List.find?_cons_of_pos (by simp [hf, hg])]
    · rw [List.find?_cons_of_neg (by simpa using hg)] at h
      rw [List.find?_cons_of_neg (by simp [hg])]
      exact ih h

theorem instField_none (h : ownField P c name = none) : instField P c name = none := by
  rw [ownField, List.find?_eq_none] at h
  rw [instField, List.find?_eq_none]
  intro g hg
  have hn := h g hg
  simp only [decide_eq_true_eq] at hn
  simp [hn]

theorem member_eq (c d : Nat) (name : Bytes) : member P c d name =
    ((P.forest.chain c)[d]?).bind fun k =>
      if clashes P k name then none else (instField P k name).map fun f => (k, f) := by
  rw [member, structAt_eq]
  rfl

/-- the path of `d` steps names the field of the class `d` levels up -/
theorem member_iff {d : Nat} (hk : (P.forest.chain c)[d]? = some k)
    (hf : instField P k name = some f) :
    member P c d name = some (k, f) ↔ clashes P k name = false := by
  rw [member_eq, hk, Option.bind_some, hf]
  cases clashes P k name with
  | true =>
    refine ⟨fun h => ?_, fun h => ?_⟩ <;> cases h
  | false => exact ⟨fun _ => rfl, fun _ => rfl⟩

theorem fieldSteps_self (c : Nat) : fieldSteps P c c = 0 := by
  rw [fieldSteps, if_neg fun h => h rfl]

/-- however far up the field is declared -/
theorem fieldSteps_ne (h : c ≠ k) : fieldSteps P c k = 1 := by
  have hd : 0 < fieldDepth P c k := by
    rw [fieldDepth]
    cases hb : P.base c with
    | none =>
      rw [Forest.chain_root (F := P.forest) hb, List.takeWhile_cons_of_pos (by simpa using h)]
      exact Nat.succ_pos _
    | some b =>
      rw [Forest.chain_child (F := P.forest) hb, List.takeWhile_cons_of_pos (by simpa using h)]
      exact Nat.succ_pos _
  rw [fieldSteps, if_pos h, if_pos hd]

end

/-! ## the law of paths -/

section law
variable (P : Program) (c : Nat) (name : Bytes)

/-- the emitted access to the field that sema found names that field (a static field is not in
the object) -/
def AccessLaw : Prop :=
  ∀ k f, checkField P c name = some (k, f) → f.isStatic = false →
    member P c (fieldSteps P c k) name = some (k, f)

/-- the emitted initialisation of a field declared `d` levels up names it by `d` steps -/
def InitLaw : Prop :=
  ∀ d k f, (P.forest.chain c)[d]? = some k → instField P k name = some f →
    classFieldLvalDepth d name = pathText d name ∧ member P c d name = some (k, f)

/-- how far up the field is declared that sema finds -/
def fieldLevel : Option Nat := P.forest.level (declaresField P name) c

/-- where lookups and paths are right -/
structure Near : Prop where
  method : ∀ k, methodLevel P c name = some k → k ≤ 1
  ctor : ∀ k, methodLevel P c construct = some k → k ≤ 1
  access : ∀ k f, checkField P c name = some (k, f) → f.isStatic = false →
    (∀ d, fieldLevel P c name = some d → d ≤ 1) ∧ clashes P k name = false
  init : ∀ d k f, (P.forest.chain c)[d]? = some k → instField P k name = some f →
    d ≤ 35 ∧ clashes P k name = false

variable {P c name}

theorem initLaw_iff : InitLaw P c name ↔ ∀ d k f, (P.forest.chain c)[d]? = some k →
    instField P k name = some f → d ≤ 35 ∧ clashes P k name = false := by
  refine ⟨fun h d k f hk hf => ?_, fun h d k f hk hf => ?_⟩
  · obtain ⟨h1, h2⟩ := h d k f hk hf
    exact ⟨(classFieldLvalDepth_iff d name).1 h1, (member_iff hk hf).1 h2⟩
  · obtain ⟨h1, h2⟩ := h d k f hk hf
    exact ⟨(classFieldLvalDepth_iff d name).2 h1, (member_iff hk hf).2 h2⟩

/-- the access to one field -/
theorem access_iff {k : Nat} {f : StructField} (h : checkField P c name = some (k, f))
    (hf : f.isStatic = false) : member P c (fieldSteps P c k) name = some (k, f) ↔
      (∀ d, fieldLevel P c name = some d → d ≤ 1) ∧ clashes P k name = false := by
  rw [checkField_eq, Option.bind_eq_some_iff] at h
  obtain ⟨k', hnear, hmap⟩ := h
  rw [Option.map_eq_some_iff] at hmap
  obtain ⟨f', hown, heq⟩ := hmap
  cases heq
  have hinst := instField_of_own hown hf
  cases hc : ownField P c name with
  | some g =>
    have hd : declaresField P name c = true := by rw [declaresField, hc]; rfl
    rw [Forest.nearest_self hd] at hnear
    cases hnear
    have h0 : (P.forest.chain c)[0]? = some c := by rw [← structAt_eq]; rfl
    rw [fieldSteps_self, member_iff h0 hinst, fieldLevel, Forest.level_self hd]
    refine ⟨fun h => ⟨fun d hd => ?_, h⟩, fun h => h.2⟩
    cases hd
    exact Nat.zero_le 1
  | none =>
    have hd : declaresField P name c = false := by rw [declaresField, hc]; rfl
    have hck : c ≠ k := by
      rintro rfl
      rw [hc] at hown
      cases hown
    rw [fieldSteps_ne hck]
    cases hb : P.base c with
    | none =>
      rw [Forest.nearest_root (F := P.forest) hb hd] at hnear
      cases hnear
    | some b =>
      have h1 : (P.forest.chain c)[1]? = some b := by
        rw [← structAt_eq, structAt, structAt, Option.bind_some, hb]
      rw [Forest.nearest_child (F := P.forest) hb hd] at hnear
      rw [fieldLevel, Forest.level_child (F := P.forest) hb hd]
      cases hcb : ownField P b name with
      | some g =>
        have hdb : declaresField P name b = true := by rw [declaresField, hcb]; rfl
        rw [Forest.nearest_self hdb] at hnear
        cases hnear
        rw [member_iff h1 hinst, Forest.level_self hdb]
        refine ⟨fun h => ⟨fun d hd => ?_, h⟩, fun h => h.2⟩
        cases hd
        exact Nat.le_refl 1
      | none =>
        -- one step leads to a struct that does not have the field
        have hdb : declaresField P name b = false := by rw [declaresField, hcb]; rfl
        have hmem : member P c 1 name = none := by
          rw [member_eq, h1, Option.bind_some, instField_none hcb]
          split <;> rfl
        have hsome : (P.forest.level (declaresField P name) b).isSome = true := by
          rw [Forest.level_isSome, hnear]
          rfl
        obtain ⟨d, hl⟩ := Option.isSome_iff_exists.1 hsome
        have hpos := Forest.level_pos hdb hl
        rw [hmem, hl]
        refine ⟨fun h => (nomatch h), fun h => ?_⟩
        have hle := h.1 (d + 1) rfl
        omega

/-- sema's lookups and the emitted paths for a class and a name are right if and only if the
members stand near -/
theorem lookup_iff : ((∀ smart, MethodLaw P smart c name) ∧ CtorLaw P c ∧ FieldLaw P c name ∧
    AccessLaw P c name ∧ InitLaw P c name) ↔ Near P c name := by
  refine ⟨fun h => ?_, fun h => ?_⟩
  · obtain ⟨hm, hc, _, ha, hi⟩ := h
    exact ⟨(methodLaw_iff false).1 (hm false), findMethodUp_iff.1 hc,
      fun k f hk hf => (access_iff hk hf).1 (ha k f hk hf), initLaw_iff.1 hi⟩
  · exact ⟨fun smart => (methodLaw_iff smart).2 h.method, findMethodUp_iff.2 h.ctor, checkField_eq,
      fun k f hk hf => (access_iff hk hf).2 (h.access k f hk hf), initLaw_iff.2 h.init⟩

end law

/-! ## three classes -/

/-- a class with a method, a constructor and a field, and two that are derived from each other -/
def family : Program where
  classes := [⟨none, [⟨[102], false⟩], [⟨[109], false, false, 0⟩, ⟨construct, false, false, 1⟩]⟩,
    ⟨some 0, [], []⟩, ⟨some 1, [], []⟩]
  rank c := c
  acyclic := by
    intro c d h
    match c with
    | 0 => cases h
    | 1 => cases h; decide
    | 2 => cases h; decide
    | _ + 3 => cases h
  declared := by
    intro c d h
    match c with
    | 0 => cases h
    | 1 => cases h; decide
    | 2 => cases h; decide
    | _ + 3 => cases h

/-- two levels up: the method and the constructor are not found, and the path of the field leads
to a struct without it -/
theorem lookup_far : ¬ MethodLaw family false 2 [109] ∧ ¬ CtorLaw family 2 ∧
    ¬ AccessLaw family 2 [102] := by
  refine ⟨fun h => ?_, fun h => ?_, fun h => ?_⟩
  · exact absurd ((methodLaw_iff false).1 h 2 rfl) (by decide)
  · exact absurd (findMethodUp_iff.1 h 2 rfl) (by decide)
  · have hmem : member family 2 1 [102] = none := rfl
    cases hmem.symm.trans (h 0 ⟨[102], false⟩ rfl rfl)

end Classes
end HolyPhp
