import HolyPhp.Codegen.Members

/-!
# Virtual dispatch

A call of a method that some derived class declares too goes through a shim of the declaring
class, which compares `self->__cls` with the classes that declare the method themselves.

* `newArgs`        an object: the class id that the constructor writes at every level;
* `emitMethod`     the call, `shimBranches` the comparisons of the shim, `runCall` the class whose
                   method runs;
* `FileLegal`, `callLegal`  what the C compiler asks: complete structs, paths that exist, shims that
                   call functions that exist in the right way, and that are declared before;
* `dispatches_iff` **the call runs the method of the first class from the object's class upwards
                   that declares it, if and only if `Dispatched`**: apart from what the compiler
                   asks, the object's class declares the method itself, or no class between it and
                   the class the call was resolved to does.
-/

namespace HolyPhp
namespace Classes

section
variable (P : Program)

/-! ## objects -/

/-- `path` in the constructor, for the ancestor `n + 1` levels up -/
def idPath : Nat → Bytes
  | 0 => bufAppend [] (ascii "__base")
  | n + 1 => bufAppend (idPath n) (ascii ".__base")

/-- `n + 1` steps -/
def idText (n : Nat) : Bytes := ascii "__base" ++ (List.replicate n (ascii ".__base")).flatten

/-- `__cls` at every level of a new object, from its class upwards -/
def newArgs (d : Nat) : List Nat := (P.forest.chain d).map fun _ => d

/-- `self->__cls` in a function of class `k`, whose struct is in the object -/
def readCls (d k : Nat) : Option Nat := (newArgs P d)[fieldDepth P d k]?

/-! ## calls -/

/-- the loop over the bases of `k` -/
def derives (k c : Nat) : Bool :=
  match P.base k with
  | none => false
  | some b => (P.forest.chain b).contains c

/-- `method_overridden` -/
def methodOverridden (owner : Nat) (name : Bytes) : Bool :=
  (List.range P.classes.length).any fun k =>
    k ≠ owner && (derives P k owner && declaresMethod P name k)

inductive Call where
  | virt (cls : Nat) (m : AstFn)
  | direct (cls : Nat) (m : AstFn)

/-- `emit_method`, for a call that sema has resolved -/
def emitMethod (c : Nat) (name : Bytes) : Option Call :=
  (findMethodUp P c name).map fun r =>
    if !r.2.isStatic && (name ≠ construct && methodOverridden P r.1 name) then .virt r.1 r.2
    else .direct r.1 r.2

/-- the comparisons of the shim of a method of `c`, in the order of the classes -/
def shimBranches (c : Nat) (name : Bytes) : List (Nat × AstFn) :=
  (List.range P.classes.length).filterMap fun k =>
    if derives P k c then (classFindMethod P k name).map fun m => (k, m) else none

/-- the class whose method the shim calls for an object with that id -/
def runShim (c : Nat) (name : Bytes) (id : Nat) : Nat :=
  match (shimBranches P c name).find? fun b => b.1 = id with
  | some b => b.1
  | none => c

/-- the class whose method runs for an object of class `d` -/
def runCall (name : Bytes) (d : Nat) : Call → Option Nat
  | .virt c _ => (readCls P d c).map (runShim P c name)
  | .direct c _ => some c

/-! ## what the compiler asks -/

/-- a shim is emitted for this method of the class -/
def hasShim (c : Nat) (m : AstFn) : Bool :=
  !m.isStatic && (!m.isAbstract && (m.name ≠ construct && methodOverridden P c m.name))

/-- the shim calls `K_m((struct K*)self, ..)` with the arguments of its own method: the function
exists, takes `self`, and as many parameters -/
def branchLegal (m km : AstFn) : Bool :=
  !km.isAbstract && (!km.isStatic && km.params = m.params)

structure FileLegal : Prop where
  /-- the struct of a base is complete where it is embedded -/
  structs : ∀ c b, P.base c = some b → b < c
  /-- the paths to the ids exist -/
  ids : ∀ c n, n + 1 < (P.forest.chain c).length → idPath n = idText n
  shims : ∀ c m, classFindMethod P c m.name = some m → hasShim P c m = true →
    ∀ b ∈ shimBranches P c m.name, branchLegal m b.2 = true

/-- the shims of `c` are declared where the call stands: in a method of the class `caller`, or
behind all classes -/
def shimDeclared (c : Nat) : Option Nat → Bool
  | some k => c ≤ k
  | none => true

/-- the function that is called is declared where the call stands -/
def callLegal (caller : Option Nat) : Call → Bool
  | .virt c m => hasShim P c m && shimDeclared c caller
  | .direct _ m => !m.isAbstract

end

/-! ## ids -/

section
variable {P : Program} {c d k v : Nat} {name : Bytes} {m : AstFn}

theorem idText_length (n : Nat) : (idText n).length = 6 + 7 * n := by
  have h1 : (ascii "__base").length = 6 := rfl
  have h2 : (ascii ".__base").length = 7 := rfl
  rw [idText, List.length_append, List.length_flatten, List.map_replicate, h1, h2,
    List.sum_replicate_nat, Nat.mul_comm]

/-- the same buffer as `lvalPath`, without `self->` -/
theorem idPath_eq (n : Nat) : idPath n = (idText n).take 255 := by
  induction n with
  | zero => rfl
  | succ n ih =>
    have hsucc : idText (n + 1) = idText n ++ ascii ".__base" := by
      rw [idText, idText, List.replicate_succ', List.flatten_append, List.flatten_singleton,
        List.append_assoc]
    rw [idPath, ih, hsucc, bufAppend_take]

theorem idPath_iff (n : Nat) : idPath n = idText n ↔ n ≤ 35 := by
  rw [idPath_eq, List.take_eq_self_iff, idText_length]
  omega

/-- the id that is read at any level is that of the object's class -/
theorem readCls_eq (h : k ∈ P.forest.chain d) : readCls P d k = some d := by
  obtain ⟨below, hbelow, hnot⟩ := Forest.chain_split h
  obtain ⟨up, hup⟩ := P.forest.chain_cons k
  have hdepth : fieldDepth P d k = below.length := by
    have hall : ∀ c ∈ below, decide (c ≠ k) = true := by
      intro c hc
      apply decide_eq_true
      rintro rfl
      exact hnot hc
    rw [fieldDepth, hbelow, List.takeWhile_append_of_pos hall, hup,
      List.takeWhile_cons_of_neg (by simp), List.append_nil]
  rw [readCls, newArgs, hdepth, hbelow, hup, List.getElem?_map,
    List.getElem?_append_right (Nat.le_refl _), Nat.sub_self]
  rfl

/-! ## shims -/

theorem derives_iff : derives P k c = true ↔ c ∈ P.forest.chain k ∧ c ≠ k := by
  rw [derives]
  cases hb : P.base k with
  | none =>
    rw [Forest.chain_root (F := P.forest) hb, List.mem_singleton]
    exact ⟨fun h => absurd h Bool.false_ne_true, fun h => absurd h.1 h.2⟩
  | some b =>
    have hlt := P.acyclic k b hb
    rw [Forest.chain_child (F := P.forest) hb, List.mem_cons]
    show (P.forest.chain b).contains c = true ↔ _
    rw [List.contains_iff_mem]
    refine ⟨fun h => ⟨.inr h, ?_⟩, fun h => h.1.resolve_left h.2⟩
    rintro rfl
    exact absurd (Forest.rank_le_of_mem h) (Nat.not_le.2 hlt)

/-- a class with a base is declared -/
theorem lt_of_derives (h : derives P k c = true) : k < P.classes.length := by
  by_contra hk
  rw [derives, Program.base, List.getElem?_eq_none (Nat.not_lt.1 hk)] at h
  cases h

theorem methodOverridden_of (h : derives P k c = true) (hk : declaresMethod P name k = true) :
    methodOverridden P c name = true := by
  rw [methodOverridden, List.any_eq_true]
  refine ⟨k, List.mem_range.2 (lt_of_derives h), ?_⟩
  have hne := (derives_iff.1 h).2
  simp [h, hk, hne.symm]

theorem mem_shimBranches {b : Nat × AstFn} : b ∈ shimBranches P c name ↔
    derives P b.1 c = true ∧ classFindMethod P b.1 name = some b.2 := by
  rw [shimBranches, List.mem_filterMap]
  refine ⟨fun h => ?_, fun h => ⟨b.1, List.mem_range.2 (lt_of_derives h.1), ?_⟩⟩
  · obtain ⟨k, _, hk⟩ := h
    split at hk
    · next hd =>
      rw [Option.map_eq_some_iff] at hk
      obtain ⟨m, hm, rfl⟩ := hk
      exact ⟨hd, hm⟩
    · cases hk
  · rw [if_pos h.1, h.2]
    rfl

/-- the shim of `c` runs the method of the object's class if that class declares it, and the
method of `c` otherwise -/
theorem runShim_eq (hc : c ∈ P.forest.chain d) : runShim P c name d =
    if declaresMethod P name d = true then d else c := by
  rw [runShim]
  cases hf : (shimBranches P c name).find? (fun b => b.1 = d) with
  | some b =>
    have hb := mem_shimBranches.1 (List.mem_of_find?_eq_some hf)
    have hd : b.1 = d := by simpa using List.find?_some hf
    have hdecl : declaresMethod P name d = true := by
      rw [declaresMethod, ← hd, hb.2]
      rfl
    rw [if_pos hdecl]
    exact hd
  | none =>
    show c = _
    split
    · next hdecl =>
      by_contra hne
      obtain ⟨m, hm⟩ := Option.isSome_iff_exists.1 hdecl
      have hmem : (d, m) ∈ shimBranches P c name :=
        mem_shimBranches.2 ⟨derives_iff.2 ⟨hc, hne⟩, hm⟩
      exact List.find?_eq_none.1 hf _ hmem (decide_eq_true rfl)
    · rfl

/-! ## the law of dispatch -/

/-- the call is resolved, the C file is legal with it, and it runs the method of the first class
from the object's class upwards that declares it -/
def Dispatches (P : Program) (caller : Option Nat) (c : Nat) (name : Bytes) (d : Nat) : Prop :=
  ∃ call, emitMethod P c name = some call ∧ FileLegal P ∧ callLegal P caller call = true ∧
    runCall P name d call = P.forest.nearest (declaresMethod P name) d

/-- the condition for a call of the method `m` that the class `v` declares nearest to `c`, with an
object of class `d` -/
structure Dispatched (P : Program) (caller : Option Nat) (c : Nat) (name : Bytes) (d v : Nat)
    (m : AstFn) : Prop where
  found : ∀ k, methodLevel P c name = some k → k ≤ 1
  body : m.isAbstract = false
  /-- every class stands behind its base -/
  order : ∀ c b, P.base c = some b → b < c
  /-- no class has more than 36 ancestors -/
  shallow : ∀ c, (P.forest.chain c).length ≤ 37
  /-- what overrides a method is no static method, has a body and as many parameters -/
  uniform : ∀ c m, classFindMethod P c m.name = some m → hasShim P c m = true →
    ∀ b ∈ shimBranches P c m.name, branchLegal m b.2 = true
  /-- the call does not stand in a class before that of an overridden method -/
  place : methodOverridden P v name = true → name ≠ construct → ∀ k, caller = some k → v ≤ k
  /-- the object's class overrides the method itself, or no class up to `v` does -/
  override : (name ≠ construct ∧ declaresMethod P name d = true) ∨
    P.forest.nearest (declaresMethod P name) d = some v

theorem fileLegal_iff : FileLegal P ↔ (∀ c b, P.base c = some b → b < c) ∧
    (∀ c, (P.forest.chain c).length ≤ 37) ∧
    (∀ c m, classFindMethod P c m.name = some m → hasShim P c m = true →
      ∀ b ∈ shimBranches P c m.name, branchLegal m b.2 = true) := by
  refine ⟨fun h => ⟨h.structs, fun c => ?_, h.shims⟩, fun h => ⟨h.1, fun c n hn => ?_, h.2.2⟩⟩
  · by_contra hlen
    have h36 := (idPath_iff 36).1 (h.ids c 36 (by omega))
    omega
  · have hlen := h.2.1 c
    exact (idPath_iff n).2 (by omega)

theorem name_of_find (h : classFindMethod P c name = some m) : m.name = name := by
  have h1 := List.find?_some h
  simpa using h1

/-- a method call runs the method of the first class from the object's class upwards that
declares it, exactly under the condition -/
theorem dispatches_iff (caller : Option Nat) (hd : c ∈ P.forest.chain d)
    (hv : nearestMethod P c name = some (v, m)) (hs : m.isStatic = false) :
    Dispatches P caller c name d ↔ Dispatched P caller c name d v m := by
  obtain ⟨hvc, hm⟩ := nearestMethod_spec hv
  have hvd : v ∈ P.forest.chain d := Forest.mem_chain_trans hvc hd
  have hname := name_of_find hm
  -- what runs, by the two kinds of calls
  have hvirt : runCall P name d (.virt v m) = some (if declaresMethod P name d then d else v) := by
    rw [runCall, readCls_eq hvd, Option.map_some, runShim_eq hvd]
  have hnear : declaresMethod P name d = true →
      P.forest.nearest (declaresMethod P name) d = some d := Forest.nearest_self
  constructor
  · rintro ⟨call, hcall, hfile, hlegal, hrun⟩
    obtain ⟨horder, hshallow, huniform⟩ := fileLegal_iff.1 hfile
    rw [emitMethod, Option.map_eq_some_iff] at hcall
    obtain ⟨r, hr, hcall⟩ := hcall
    have hfound : findMethodUp P c name = nearestMethod P c name := by
      rw [hr, findMethodUp_sound hr]
    obtain rfl : r = (v, m) := by
      rw [hr, hv] at hfound
      exact Option.some.inj hfound
    have hk := findMethodUp_iff.1 hfound
    by_cases hvt : name ≠ construct ∧ methodOverridden P v name = true
    · rw [if_pos (by simp [hs, hvt])] at hcall
      subst hcall
      obtain ⟨hshim, hplace⟩ := Bool.and_eq_true_iff.1 hlegal
      have habs : (!m.isAbstract) = true := by
        rw [hasShim, Bool.and_eq_true, Bool.and_eq_true] at hshim
        exact hshim.2.1
      refine ⟨hk, by simpa using habs, horder, hshallow, huniform, fun _ _ k hk => ?_, ?_⟩
      · subst hk
        exact of_decide_eq_true hplace
      · cases hdecl : declaresMethod P name d with
        | true => exact .inl ⟨hvt.1, rfl⟩
        | false =>
          rw [hvirt, hdecl] at hrun
          exact .inr hrun.symm
    · rw [if_neg (by simpa [hs] using hvt)] at hcall
      subst hcall
      exact ⟨hk, by simpa [callLegal] using hlegal, horder, hshallow, huniform,
        fun h1 h2 => absurd ⟨h2, h1⟩ hvt, .inr hrun.symm⟩
  · intro h
    have hr : findMethodUp P c name = some (v, m) := (findMethodUp_iff.2 h.found).trans hv
    have hfile := fileLegal_iff.2 ⟨h.order, h.shallow, h.uniform⟩
    by_cases hvt : name ≠ construct ∧ methodOverridden P v name = true
    · have hcall : emitMethod P c name = some (.virt v m) := by
        rw [emitMethod, hr, Option.map_some, if_pos (by simp [hs, hvt])]
      refine ⟨_, hcall, hfile, ?_, ?_⟩
      · have hshim : hasShim P v m = true := by
          rw [hasShim, hname]
          simp [hs, h.body, hvt]
        refine Bool.and_eq_true_iff.2 ⟨hshim, ?_⟩
        cases hk : caller with
        | none => rfl
        | some k => exact decide_eq_true (h.place hvt.2 hvt.1 k hk)
      · rw [hvirt]
        cases hdecl : declaresMethod P name d with
        | true => exact (hnear hdecl).symm
        | false =>
          have hover := h.override
          rw [hdecl] at hover
          exact (hover.resolve_left fun h => absurd h.2 Bool.false_ne_true).symm
    · have hcall : emitMethod P c name = some (.direct v m) := by
        rw [emitMethod, hr, Option.map_some, if_neg (by simpa [hs] using hvt)]
      refine ⟨_, hcall, hfile, by simp [callLegal, h.body], ?_⟩
      rcases h.override with ⟨hne, hdecl⟩ | hover
      · -- nothing overrides the method, so the object's class is the one that declares it
        have hdv : d = v := by
          by_contra hdv
          have hder : derives P d v = true := derives_iff.2 ⟨hvd, fun h => hdv h.symm⟩
          exact hvt ⟨hne, methodOverridden_of hder hdecl⟩
        rw [hnear hdecl, hdv]
        rfl
      · rw [hover]
        rfl

end

/-! ## three generations -/

/-- a class with a method, a class that overrides it, and a class that does not -/
def generations : Program where
  classes := [⟨none, [], [⟨[109], false, false, 0⟩]⟩, ⟨some 0, [], [⟨[109], false, false, 0⟩]⟩,
    ⟨some 1, [], []⟩]
  rank c := c
  acyclic := by
    intro c d h
    match c with
    | 0 => cases h
    | 1 => cases h; decide
    | 2 => cases h; decide
    | _ + 3 => cases h
  declared := by
    intro c d h
    match c with
    | 0 => cases h
    | 1 => cases h; decide
    | 2 => cases h; decide
    | _ + 3 => cases h

theorem generations_chain (c : Nat) : (generations.forest.chain c).length ≤ 37 := by
  match c with
  | 0 => decide
  | 1 => decide
  | 2 => decide
  | c + 3 =>
    rw [Forest.chain_root (F := generations.forest) rfl, List.length_singleton]
    decide

theorem generations_uniform (c : Nat) (m : AstFn)
    (hm : classFindMethod generations c m.name = some m) (_ : hasShim generations c m = true) :
    ∀ b ∈ shimBranches generations c m.name, branchLegal m b.2 = true := by
  have hall : ∀ c, ∀ m ∈ generations.methods c, m = ⟨[109], false, false, 0⟩ := by
    intro c
    match c with
    | 0 => decide
    | 1 => decide
    | 2 => decide
    | _ + 3 => exact fun m h => absurd h List.not_mem_nil
  intro b hb
  have h1 := hall c m (List.mem_of_find?_eq_some hm)
  have h2 := hall b.1 b.2 (List.mem_of_find?_eq_some (mem_shimBranches.1 hb).2)
  rw [h1, h2]
  decide

/-- an object of the class that overrides the method -/
theorem dispatches_child : Dispatches generations none 0 [109] 1 := by
  refine (dispatches_iff (v := 0) (m := ⟨[109], false, false, 0⟩) none (by decide) rfl rfl).2
    ⟨?_, rfl, ?_, generations_chain, generations_uniform, ?_, .inl (by decide)⟩
  · intro k hk
    cases hk
    decide
  · exact generations.acyclic
  · intro _ _ k hk
    cases hk

/-- an object of the class below runs the method of the root, not that of its base -/
theorem not_dispatches_grandchild : ¬ Dispatches generations none 0 [109] 2 := by
  rintro ⟨call, hcall, _, _, hrun⟩
  have hvirt : emitMethod generations 0 [109] = some (.virt 0 ⟨[109], false, false, 0⟩) := rfl
  rw [hvirt] at hcall
  cases hcall
  have hroot : runCall generations [109] 2 (.virt 0 ⟨[109], false, false, 0⟩) = some 0 := rfl
  have hbase : generations.forest.nearest (declaresMethod generations [109]) 2 = some 1 := rfl
  rw [hroot, hbase] at hrun
  cases hrun

end Classes
end HolyPhp
