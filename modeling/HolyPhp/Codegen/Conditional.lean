import HolyPhp.Codegen.CExpr

/-!
# Conditional expressions

* `Part`, `Operand`  an expression that is a part of one: its static type, the type of C in which it
  is emitted, and a value; `Has` says what values a part has;
* `joinTernary`, `joinMatch`  the types that `check_expr` gives, `emitTernary`, `emitMatch` and
  `emitNullcoal` the expressions of C;
* `Yields`           what the boxed expression returns;
* `Shape`            the parts of a conditional expression, without values;
* `Good`             the shapes that are right for all values;
* `conditional_iff`  **which conditional expressions return the chosen value.**
-/

set_option autoImplicit false

namespace HolyPhp
namespace Codegen
open Cmp (Val)
open Sema (Ty typesCompatible)

/-! ## parts -/

/-- static types and types of C: a comparison or a literal is an `int` in C, where the static type
is `bool` -/
inductive Part where
  | int
  | cint
  | float
  | bool
  | cbool
  | string
  | array (elem : Ty)
  | mixed

def Part.ty : Part → STy
  | .int => .int
  | .cint => .int
  | .float => .float
  | .bool => .bool
  | .cbool => .bool
  | .string => .string
  | .array e => .array e
  | .mixed => .mixed

def Part.form : Part → CTy
  | .int => .int64
  | .cint => .int
  | .float => .double
  | .bool => .bool
  | .cbool => .int
  | .string => .str
  | .array _ => .arr
  | .mixed => .hval

/-- `x` in C is the value `v` of the part -/
inductive Has : Part → CVal → Val → Prop
  | int (i : Int64) : Has .int (.int64 i) (.int i)
  | cint (i : Int64) : Has .cint (.int i) (.int i)
  | float (d : Double) : Has .float (.double d) (.float d)
  | bool (b : Bool) : Has .bool (.bool b) (.bool b)
  | cbool (b : Bool) : Has .cbool (.int (if b then 1 else 0)) (.bool b)
  | string (s : Option Bytes) : Has .string (.str s) (.str s)
  | array (e : Ty) (a : Option Addr) : Has (.array e) (.arr a) (.arr a)
  | mixed (v : Val) : Has .mixed (.hval v) v

/-- a part with a value -/
structure Operand where
  part : Part
  c : CVal
  v : Val
  has : Has part c v

namespace Operand

def ty (o : Operand) : STy := o.part.ty

/-- what is emitted -/
def e (o : Operand) : CExpr := .val o.c

end Operand

/-! ## the types -/

/-- `types_compatible` -/
def compatible (want got : STy) : Bool := typesCompatible want.ty got.ty

def joinTernary (a b : STy) : STy :=
  if compatible a b then a else if compatible b a then b else .mixed

/-- the loop over the arms; `rt` is the type so far -/
def joinArms : Option STy → List STy → Option STy
  | rt, [] => rt
  | none, t :: ts => joinArms (some t) ts
  | some r, t :: ts => joinArms (some (if compatible r t then r else .mixed)) ts

/-- the type of the default arm counts just if there is no other -/
def joinMatch (arms : List STy) (dflt : Option STy) : STy :=
  match joinArms none arms with
  | some r => r
  | none => dflt.getD .mixed

/-! ## the expressions of C -/

def STy.isMixed : STy → Bool
  | .mixed => true
  | _ => false

/-- `type_is_numeric` or `TY_BOOL` -/
def STy.isScalar : STy → Bool
  | .int | .float | .bool => true
  | _ => false

/-- `TY_STRING` or `TY_ARRAY` -/
def STy.isRef : STy → Bool
  | .string | .array _ => true
  | _ => false

/-- `emit_cond` -/
def emitCond (c : Operand) : CExpr := if c.ty.isMixed then .conv .bool (.hv c.e) else c.e

/-- both are strings, or both are arrays -/
def native : STy → STy → Bool
  | .string, .string => true
  | .array _, .array _ => true
  | _, _ => false

/-- `box_a` and `box_b` -/
def boxSide (t other rest : STy) : Bool :=
  (t.isMixed || other.isScalar || other.isRef || rest.isMixed) && !native t other

/-- the two branches -/
def ternarySides (a b : Operand) (rest : STy) : CExpr × CExpr :=
  if boxSide a.ty b.ty rest || boxSide b.ty a.ty rest then
    -- one side is boxed, so the other one is too
    match rest with
    | .string => (.conv .str (.hv a.e), .conv .str (.hv b.e))
    | .int => (.conv .int (.hv a.e), .conv .int (.hv b.e))
    | .float => (.conv .float (.hv a.e), .conv .float (.hv b.e))
    | .bool => (.conv .bool (.hv a.e), .conv .bool (.hv b.e))
    | .array _ => (.conv .arr (.hv a.e), .conv .arr (.hv b.e))
    | .mixed => (.hv a.e, .hv b.e)
  else (a.e, b.e)

def emitTernary (c a b : Operand) : CExpr :=
  let s := ternarySides a b (joinTernary a.ty b.ty)
  .cond (emitCond c) s.1 s.2

/-- an arm, with what the subject returns there: its text is written once for each arm -/
structure Arm where
  subj : CVal
  pats : List Val
  body : Operand

/-- the arms from some arm on -/
def emitArms (dflt : Option Operand) : List Arm → CExpr
  | [] =>
    match dflt with
    | some d => d.e
    | none => .noDefault
  | m :: arms =>
    .cond (.conv .bool (.matchAny (.hv (.val m.subj)) m.pats)) m.body.e (emitArms dflt arms)

def emitMatch (arms : List Arm) (dflt : Option Operand) : CExpr := emitArms dflt arms

def emitNullcoal (l r : Operand) : CExpr := .nullcoal (.box l.ty l.e) (.box r.ty r.e)

/-! ## what is right -/

/-- boxed by the type, the expression returns the value, or throws where there is none -/
def Yields (rt : Rt) (t : STy) (e : CExpr) (v : Option Val) : Prop :=
  (CExpr.box t e).typeOf = some .hval ∧ (CExpr.box t e).eval rt = v.map .hval

/-- the value of the first arm that the subject matches -/
def chosen (rt : Rt) (subj : Val) (dflt : Option Operand) : List Arm → Option Val
  | [] => dflt.map Operand.v
  | m :: arms => if hpMatchAny rt subj m.pats then some m.body.v else chosen rt subj dflt arms

/-- the subject returns the same value each time -/
def Steady (arms : List Arm) : Prop := ∀ m ∈ arms, ∀ n ∈ arms, m.subj = n.subj

/-- the parts of a conditional expression; `steady` says that the subject has no effects -/
inductive Shape where
  | ternary (c a b : Part)
  | «match» (steady : Bool) (arms : List Part) (dflt : Option Part)
  | nullcoal (l r : Part)

/-- all expressions of the shape are right -/
def AlwaysRight : Shape → Prop
  | .ternary pc pa pb => ∀ (rt : Rt) (c a b : Operand), c.part = pc → a.part = pa → b.part = pb →
      Yields rt (joinTernary a.ty b.ty) (emitTernary c a b)
        (some (if hpValToBool rt c.v then a.v else b.v))
  | .match steady ps pd => ∀ (rt : Rt) (arms : List Arm) (dflt : Option Operand),
      arms.map (fun m => m.body.part) = ps → dflt.map Operand.part = pd →
      (steady = true → Steady arms) →
      Yields rt (joinMatch (arms.map fun m => m.body.ty) (dflt.map Operand.ty))
        (emitMatch arms dflt)
        (chosen rt ((arms.head?.map fun m => hv m.subj).getD .null) dflt arms)
  | .nullcoal pl pr => ∀ (rt : Rt) (l r : Operand), l.part = pl → r.part = pr →
      Yields rt l.ty (emitNullcoal l r) (some (if l.v = .null then r.v else l.v))

/-- the branches have one type -/
def Alike (a b : Part) : Prop := a.ty.tag = b.ty.tag

/-- A condition is no string and no array; the branches have one type, or no types that are
compatible and are no `bool` that is an `int` in C; all arms have one type, with a default arm if
this is not `mixed`, and the subject has no effects if there are two arms; the left side of `??` is
`mixed`. -/
def Good : Shape → Prop
  | .ternary c a b => c.ty.isRef = false ∧
      (Alike a b ∨ ((joinTernary a.ty b.ty).isMixed = true ∧ a ≠ .cbool ∧ b ≠ .cbool))
  | .match steady arms dflt =>
      (∀ p ∈ arms ++ dflt.toList, ∀ q ∈ arms ++ dflt.toList, Alike p q) ∧
      (dflt = none → ∀ p ∈ arms, p.ty.isMixed = true) ∧ (2 ≤ arms.length → steady = true)
  | .nullcoal l _ => l.ty.isMixed = true

/-! ## values of parts -/

section
variable {rt : Rt} {p q : Part} {x y : CVal} {v w : Val} {r : STy} {s t u : CTy} {k : Option HKind}
  {o c a b : Operand} {m : Arm} {arms : List Arm} {dflt : Option Operand}

theorem Has.form (h : Has p x v) : x.ty = p.form := by cases h <;> rfl

theorem Has.tag (h : Has p x v) {j : HKind} (hj : p.ty.tag = some j) : v.tag = j := by
  cases h with
  | mixed => cases hj
  | _ => exact Option.some.inj hj

/-- but for a `bool` that is an `int` in C, the macro boxes a part rightly -/
theorem Has.hv (h : Has p x v) (hp : p ≠ .cbool) : Codegen.hv x = v := by
  cases h with
  | cbool => exact absurd rfl hp
  | _ => rfl

theorem truth_cbool (b : Bool) : (CVal.int (if b then 1 else 0)).truth = some b := by
  cases b <;> rfl

/-- a type that boxes the values of these tags as they are -/
def Boxes (r : STy) (k : Option HKind) : Prop := r.tag = k ∨ (r.isMixed = true ∧ k = some .arr)

theorem isMixed_iff : r.isMixed = true ↔ r = .mixed := by
  cases r <;> simp [STy.isMixed]

theorem Has.box (h : Has p x v) (hr : Boxes r p.ty.tag) : r.box x = some v := by
  rcases hr with hr | ⟨hr, hp⟩
  · cases h <;> cases r <;> try cases hr
    case inl.cbool.bool.refl b =>
      show (CVal.int (if b then 1 else 0)).truth.map HVal.bool = _
      rw [truth_cbool]
      rfl
    all_goals rfl
  · obtain rfl := isMixed_iff.1 hr
    cases h with
    | array => rfl
    | mixed => rfl
    | _ => cases hp

/-- any part has values, and one that is not `v` -/
theorem exists_operand (p : Part) (v : Val) : ∃ o : Operand, o.part = p ∧ o.v ≠ v := by
  have h2 : ∃ o o' : Operand, o.part = p ∧ o'.part = p ∧ o.v ≠ o'.v := by
    cases p with
    | int => exact ⟨⟨_, _, _, .int 0⟩, ⟨_, _, _, .int 1⟩, rfl, rfl, by decide⟩
    | cint => exact ⟨⟨_, _, _, .cint 0⟩, ⟨_, _, _, .cint 1⟩, rfl, rfl, by decide⟩
    | float => exact ⟨⟨_, _, _, .float ⟨0⟩⟩, ⟨_, _, _, .float ⟨1⟩⟩, rfl, rfl, by decide⟩
    | bool => exact ⟨⟨_, _, _, .bool false⟩, ⟨_, _, _, .bool true⟩, rfl, rfl, by decide⟩
    | cbool => exact ⟨⟨_, _, _, .cbool false⟩, ⟨_, _, _, .cbool true⟩, rfl, rfl, by decide⟩
    | string => exact ⟨⟨_, _, _, .string none⟩, ⟨_, _, _, .string (some [])⟩, rfl, rfl, by decide⟩
    | array e => exact ⟨⟨_, _, _, .array e none⟩, ⟨_, _, _, .array e (some 0)⟩, rfl, rfl,
        fun h => nomatch h⟩
    | mixed => exact ⟨⟨_, _, _, .mixed .null⟩, ⟨_, _, _, .mixed (.int 0)⟩, rfl, rfl, by decide⟩
  obtain ⟨o, o', ho, ho', hne⟩ := h2
  by_cases hv : o.v = v
  · exact ⟨o', ho', fun h => hne (hv.trans h.symm)⟩
  · exact ⟨o, ho, hv⟩

/-- a part whose values all have one tag has the type of that tag -/
theorem tag_of_all {j : HKind} (h : ∀ o : Operand, o.part = p → o.v.tag = j) :
    p.ty.tag = some j := by
  cases hp : p.ty.tag with
  | some i =>
    obtain ⟨o, rfl, -⟩ := exists_operand p .null
    rw [← h o rfl, o.has.tag hp]
  | none =>
    cases p with
    | mixed =>
      have h0 := h ⟨_, _, _, .mixed .null⟩ rfl
      have h1 := h ⟨_, _, _, .mixed (.int 0)⟩ rfl
      exact absurd (h0.trans h1.symm) (by decide)
    | _ => cases hp

/-! ## `?:` between parts of one type -/

/-- the types of C that parts with the tag have -/
def forms : Option HKind → List CTy
  | some .int => [.int, .int64]
  | some .float => [.double]
  | some .bool => [.bool, .int]
  | some .str => [.str]
  | some .arr => [.arr]
  | none => [.hval]
  | _ => []

theorem form_mem (p : Part) : p.form ∈ forms p.ty.tag := by
  cases p <;> simp [Part.form, Part.ty, STy.tag, forms]

theorem common_forms (k : Option HKind) :
    ∀ s ∈ forms k, ∀ t ∈ forms k, ∃ u ∈ forms k, s.common t = some u := by
  cases k with
  | none => decide
  | some j => cases j <;> decide

theorem convert_int {i : Int64} (hu : u = .int ∨ u = .int64) (hx : x = .int i ∨ x = .int64 i) :
    ∃ y, x.convert u = some y ∧ (y = .int i ∨ y = .int64 i) := by
  rcases hu with rfl | rfl
  · exact ⟨.int i, by rcases hx with rfl | rfl <;> rfl, .inl rfl⟩
  · exact ⟨.int64 i, by rcases hx with rfl | rfl <;> rfl, .inr rfl⟩

/-- the conversion to the type of both branches leaves the boxed value as it is -/
theorem convert_box (hx : x.ty ∈ forms k) (hu : u ∈ forms k) (hr : Boxes r k) :
    (x.convert u).bind r.box = r.box x := by
  have hid : u ≠ .int → u ≠ .int64 → u ≠ .double → (x.convert u).bind r.box = r.box x := by
    intro h1 h2 h3
    cases u with
    | int => exact absurd rfl h1
    | int64 => exact absurd rfl h2
    | double => exact absurd rfl h3
    | _ => rfl
  cases k with
  | none =>
    obtain rfl := List.mem_singleton.1 hu
    rfl
  | some j =>
    cases j with
    | int =>
      have hri : r = .int := by
        rcases hr with hr | ⟨-, hr⟩
        · cases r <;> first | rfl | cases hr
        · cases hr
      have hxi : ∃ i, x = .int i ∨ x = .int64 i := by
        cases x with
        | int i => exact ⟨i, .inl rfl⟩
        | int64 i => exact ⟨i, .inr rfl⟩
        | _ => simp [CVal.ty, forms] at hx
      obtain ⟨i, hi⟩ := hxi
      obtain ⟨y, hy, hyi⟩ := convert_int (by simpa [forms] using hu) hi
      rw [hri, hy]
      rcases hi with rfl | rfl <;> rcases hyi with rfl | rfl <;> rfl
    | float =>
      obtain rfl := List.mem_singleton.1 hu
      cases x with
      | double d => rfl
      | _ => simp [CVal.ty, forms] at hx
    | bool =>
      have hrb : r = .bool := by
        rcases hr with hr | ⟨-, hr⟩
        · cases r <;> first | rfl | cases hr
        · cases hr
      rw [hrb]
      cases x with
      | bool b =>
        rcases (by simpa [forms] using hu : u = .bool ∨ u = .int) with rfl | rfl
        · rfl
        · cases b <;> rfl
      | int i =>
        rcases (by simpa [forms] using hu : u = .bool ∨ u = .int) with rfl | rfl <;> rfl
      | _ => simp [CVal.ty, forms] at hx
    | str =>
      obtain rfl := List.mem_singleton.1 hu
      rfl
    | arr =>
      obtain rfl := List.mem_singleton.1 hu
      rfl
    | null => cases hu
    | obj => cases hu
    | clo => cases hu

/-! ## `match` -/

/-- the test of an arm -/
def Arm.hit (rt : Rt) (m : Arm) : Bool := hpMatchAny rt (hv m.subj) m.pats

/-- the value of the first arm whose test succeeds -/
def firstHit (rt : Rt) (dflt : Option Operand) : List Arm → Option Val
  | [] => dflt.map Operand.v
  | m :: arms => if m.hit rt then some m.body.v else firstHit rt dflt arms

theorem eval_test (rt : Rt) (m : Arm) :
    (CExpr.conv .bool (.matchAny (.hv (.val m.subj)) m.pats)).eval rt = some (.bool (m.hit rt)) := rfl

/-- the value of the arms from `m` on -/
theorem eval_arms (rt : Rt) (dflt : Option Operand) (m : Arm) (arms : List Arm) :
    (emitArms dflt (m :: arms)).eval rt =
      (emitArms dflt (m :: arms)).typeOf.bind fun s =>
        (if m.hit rt then some m.body.c else (emitArms dflt arms).eval rt).bind (CVal.convert s) := by
  rw [emitArms, CExpr.eval, eval_test]
  rfl

/-- the type in C of arms with the parts `ps` -/
def chainForm (pd : Option Part) : List Part → Option CTy
  | [] => some (pd.elim .hval Part.form)
  | p :: ps => (chainForm pd ps).bind fun t => p.form.common t

theorem typeOf_arms (dflt : Option Operand) (arms : List Arm) :
    (emitArms dflt arms).typeOf = chainForm (dflt.map Operand.part) (arms.map fun m => m.body.part) := by
  induction arms with
  | nil =>
    cases dflt with
    | none => rfl
    | some d => exact congrArg some d.has.form
  | cons m arms ih =>
    have hf : (CExpr.val m.body.c).typeOf = some m.body.part.form := congrArg some m.body.has.form
    rw [emitArms, CExpr.typeOf, Operand.e, hf, ih]
    rfl

/-- arms of one type -/
theorem chain_alike (hall : ∀ m ∈ arms, m.body.ty.tag = k) (hd : ∀ d ∈ dflt, d.ty.tag = k)
    (hn : dflt = none → k = none) (hr : Boxes r k) (rt : Rt) :
    (∃ s ∈ forms k, (emitArms dflt arms).typeOf = some s) ∧
      ((emitArms dflt arms).eval rt).bind r.box = firstHit rt dflt arms := by
  induction arms with
  | nil =>
    cases dflt with
    | none =>
      rw [hn rfl]
      exact ⟨⟨.hval, List.mem_singleton_self _, rfl⟩, rfl⟩
    | some d =>
      have hdk := hd d rfl
      refine ⟨⟨d.part.form, hdk ▸ form_mem d.part, congrArg some d.has.form⟩, ?_⟩
      exact d.has.box (hdk ▸ hr)
  | cons m arms ih =>
    obtain ⟨hm, hms⟩ := List.forall_mem_cons.1 hall
    obtain ⟨⟨s, hs, hty⟩, hev⟩ := ih hms
    obtain ⟨u, hu, hc⟩ := common_forms k m.body.part.form (hm ▸ form_mem m.body.part) s hs
    have hty' : (emitArms dflt (m :: arms)).typeOf = some u := by
      rw [typeOf_arms, List.map_cons, chainForm, ← typeOf_arms, hty]
      exact hc
    refine ⟨⟨u, hu, hty'⟩, ?_⟩
    rw [eval_arms, hty', Option.bind_some, firstHit]
    split
    · rw [Option.bind_some, convert_box (m.body.has.form ▸ hm ▸ form_mem m.body.part) hu hr]
      exact m.body.has.box (hm ▸ hr)
    · rw [← hev]
      cases he : (emitArms dflt arms).eval rt with
      | none => rfl
      | some x =>
        rw [Option.bind_some, Option.bind_some, convert_box (eval_ty hty he ▸ hs) hu hr]

theorem chosen_eq {x : CVal} (hx : ∀ m ∈ arms, m.subj = x) :
    chosen rt (hv x) dflt arms = firstHit rt dflt arms := by
  induction arms with
  | nil => rfl
  | cons m arms ih =>
    obtain ⟨hm, hms⟩ := List.forall_mem_cons.1 hx
    rw [chosen, firstHit, Arm.hit, hm, ih hms]

theorem compatible_of_tag (h : r.tag = p.ty.tag) (hk : r.tag ≠ some .arr) :
    compatible r p.ty = true := by
  cases p with
  | array e => exact absurd h hk
  | _ => cases r <;> first | rfl | cases h

theorem joinArms_boxes {ts : List Part} (hall : ∀ p ∈ ts, p.ty.tag = k) (hr : Boxes r k) :
    ∃ r', joinArms (some r) (ts.map Part.ty) = some r' ∧ Boxes r' k := by
  induction ts generalizing r with
  | nil => exact ⟨r, rfl, hr⟩
  | cons p ts ih =>
    obtain ⟨hp, hps⟩ := List.forall_mem_cons.1 hall
    refine ih hps ?_
    split
    · exact hr
    next hc =>
      refine .inr ⟨rfl, ?_⟩
      rcases hr with hr | hr
      · by_contra hk
        exact hc (compatible_of_tag (hr.trans hp.symm) (hr ▸ hk))
      · exact hr.2

theorem joinMatch_boxes {ps : List Part} {pd : Option Part} (hall : ∀ p ∈ ps, p.ty.tag = k)
    (hd : ∀ p ∈ pd, p.ty.tag = k) (hn : pd = none → k = none) :
    Boxes (joinMatch (ps.map Part.ty) (pd.map Part.ty)) k := by
  cases ps with
  | nil =>
    cases pd with
    | none => exact .inl (hn rfl).symm
    | some p => exact .inl (hd p rfl)
  | cons p ps =>
    obtain ⟨hp, hps⟩ := List.forall_mem_cons.1 hall
    obtain ⟨r, hr, hb⟩ := joinArms_boxes hps (.inl hp)
    have he : joinMatch ((p :: ps).map Part.ty) (pd.map Part.ty) = r := by
      show (match joinArms (some p.ty) (ps.map Part.ty) with
        | some r => r
        | none => _) = r
      rw [hr]
    rw [he]
    exact hb

theorem takes_forms (hr : Boxes r k) (hs : s ∈ forms k) : r.takes s = true := by
  rcases hr with rfl | ⟨hr, -⟩
  · cases r <;> cases s <;> first | rfl | simp [STy.tag, forms] at hs
  · rw [isMixed_iff.1 hr]
    rfl

/-- what a good `match` yields -/
theorem yields_of_bind {e : CExpr} {w : Option Val} (ht : e.typeOf = some s)
    (hr : r.takes s = true) (hv : (e.eval rt).bind r.box = w) : Yields rt r e w := by
  constructor
  · rw [CExpr.typeOf, ht, Option.bind_some, if_pos hr]
  · rw [CExpr.eval, hv]

theorem tag_of_alike {ps : List Part} (h : ∀ p ∈ ps, ∀ q ∈ ps, Alike p q) :
    ∃ k, ∀ p ∈ ps, p.ty.tag = k := by
  cases ps with
  | nil => exact ⟨none, List.forall_mem_nil _⟩
  | cons q qs => exact ⟨q.ty.tag, fun p hp => h p hp q List.mem_cons_self⟩

/-- the parts of the arms have one type, and there is a default if it is not `mixed` -/
theorem match_yields {ps : List Part} {pd : Option Part} (hps : arms.map (fun m => m.body.part) = ps)
    (hpd : dflt.map Operand.part = pd)
    (halike : ∀ p ∈ ps ++ pd.toList, ∀ q ∈ ps ++ pd.toList, Alike p q)
    (hnone : pd = none → ∀ p ∈ ps, p.ty.isMixed = true) (rt : Rt) :
    Yields rt (joinMatch (ps.map Part.ty) (pd.map Part.ty)) (emitMatch arms dflt)
      (firstHit rt dflt arms) := by
  obtain ⟨k, hk, hn⟩ : ∃ k, (∀ p ∈ ps ++ pd.toList, p.ty.tag = k) ∧ (pd = none → k = none) := by
    cases pd with
    | some d => exact ⟨d.ty.tag, fun p hp => halike p hp d (by simp), fun h => nomatch h⟩
    | none =>
      refine ⟨none, fun p hp => ?_, fun _ => rfl⟩
      rw [isMixed_iff.1 (hnone rfl p (by simpa using hp))]
      rfl
  obtain ⟨hkps, hkd⟩ := List.forall_mem_append.1 hk
  have hb := joinMatch_boxes hkps (fun p hp => hkd p (Option.mem_toList.2 hp)) hn
  subst hps hpd
  obtain ⟨⟨s, hs, ht⟩, hv⟩ := @chain_alike _ _ arms dflt
    (fun m hm => hkps _ (List.mem_map_of_mem hm))
    (fun d hd => hkd d.part (Option.mem_toList.2 (Option.mem_map_of_mem _ hd)))
    (fun h => hn (h ▸ rfl)) hb rt
  exact yields_of_bind ht (takes_forms hb hs) hv

/-- **Arms of one type** return the value of the first one whose test succeeds. -/
theorem match_right {steady : Bool} {ps : List Part} {pd : Option Part}
    (h : Good (.match steady ps pd)) : AlwaysRight (.match steady ps pd) := by
  intro rt arms dflt hps hpd hst
  obtain ⟨halike, hnone, htwo⟩ := h
  have hsubj : chosen rt ((arms.head?.map fun m => hv m.subj).getD .null) dflt arms =
      firstHit rt dflt arms := by
    match arms with
    | [] => rfl
    | [m] => exact chosen_eq fun n hn => List.mem_singleton.1 hn ▸ rfl
    | m :: n :: arms =>
      have hs : steady = true := htwo (by
        rw [← hps, List.length_map]
        exact Nat.le_add_left 2 _)
      exact chosen_eq fun n' hn' => hst hs n' hn' m List.mem_cons_self
  rw [hsubj]
  have h := match_yields hps hpd halike hnone rt
  rw [← hps, ← hpd, List.map_map, Option.map_map] at h
  exact h

/-! ### other arms -/

theorem eq_zero_zero : (Double.ofInt64 0).eq (Double.ofInt64 0) = true := by decide

theorem eq_zero_one : (Double.ofInt64 0).eq (Double.ofInt64 1) = false := by decide

theorem eq_one_one : (Double.ofInt64 1).eq (Double.ofInt64 1) = true := by decide

theorem hit_zero_zero : hpMatchAny rt (.int 0) [.int 0] = true := by
  show ((Double.ofInt64 0).eq (Double.ofInt64 0) || false) = true
  rw [eq_zero_zero]
  rfl

theorem hit_zero_one : hpMatchAny rt (.int 0) [.int 1] = false := by
  show ((Double.ofInt64 0).eq (Double.ofInt64 1) || false) = false
  rw [eq_zero_one]
  rfl

theorem hit_one_one : hpMatchAny rt (.int 1) [.int 1] = true := by
  show ((Double.ofInt64 1).eq (Double.ofInt64 1) || false) = true
  rw [eq_one_one]
  rfl

/-- arms with the parts `ps` -/
theorem exists_arms (ps : List Part) :
    ∃ arms : List Arm, arms.map (fun m => m.body.part) = ps ∧ ∀ m ∈ arms, m.subj = .int64 0 := by
  induction ps with
  | nil => exact ⟨[], rfl, List.forall_mem_nil _⟩
  | cons p ps ih =>
    obtain ⟨arms, hparts, hsubj⟩ := ih
    obtain ⟨o, rfl, -⟩ := exists_operand p .null
    exact ⟨⟨.int64 0, [.int 1], o⟩ :: arms, congrArg _ hparts, List.forall_mem_cons.2 ⟨rfl, hsubj⟩⟩

theorem exists_dflt (pd : Option Part) : ∃ dflt : Option Operand, dflt.map Operand.part = pd := by
  cases pd with
  | none => exact ⟨none, rfl⟩
  | some p =>
    obtain ⟨o, rfl, -⟩ := exists_operand p .null
    exact ⟨some o, rfl⟩

/-- any value of any part can be the one that is chosen -/
theorem exists_chosen {ps : List Part} {pd : Option Part} (ho : o.part ∈ ps ++ pd.toList) :
    ∃ arms dflt, arms.map (fun m => m.body.part) = ps ∧ dflt.map Operand.part = pd ∧
      (∀ m ∈ arms, m.subj = .int64 0) ∧ ∀ rt, firstHit rt dflt arms = some o.v := by
  induction ps with
  | nil =>
    obtain rfl := Option.mem_toList.1 ho
    exact ⟨[], some o, rfl, rfl, List.forall_mem_nil _, fun _ => rfl⟩
  | cons p ps ih =>
    rw [List.cons_append, List.mem_cons] at ho
    rcases ho with rfl | ho
    · obtain ⟨arms, hparts, hsubj⟩ := exists_arms ps
      obtain ⟨dflt, hd⟩ := exists_dflt pd
      refine ⟨⟨.int64 0, [.int 0], o⟩ :: arms, dflt, congrArg _ hparts, hd,
        List.forall_mem_cons.2 ⟨rfl, hsubj⟩, fun rt => ?_⟩
      exact if_pos hit_zero_zero
    · obtain ⟨arms, dflt, hparts, hd, hsubj, hv⟩ := ih ho
      obtain ⟨o', rfl, -⟩ := exists_operand p .null
      refine ⟨⟨.int64 0, [.int 1], o'⟩ :: arms, dflt, congrArg _ hparts, hd,
        List.forall_mem_cons.2 ⟨rfl, hsubj⟩, fun rt => ?_⟩
      exact (if_neg (ne_true_of_eq_false hit_zero_one)).trans (hv rt)

/-- arms that are a `hval` in C -/
theorem mixed_of_chain {ps : List Part} {pd : Option Part} (h : chainForm pd ps = some .hval) :
    ∀ p ∈ ps ++ pd.toList, p.ty.isMixed = true := by
  have hform : ∀ p : Part, p.form = .hval → p.ty.isMixed = true := by
    intro p hp
    cases p <;> first | rfl | cases hp
  induction ps with
  | nil =>
    intro p hp
    obtain rfl := Option.mem_toList.1 hp
    exact hform p (Option.some.inj h)
  | cons q qs ih =>
    obtain ⟨t, ht, hc⟩ := Option.bind_eq_some_iff.1 h
    rcases common_cases hc with ⟨-, -, hu | hu | hu⟩ | ⟨-, hq, rfl⟩
    · cases hu
    · cases hu
    · cases hu
    · exact List.forall_mem_cons.2 ⟨hform q hq, ih ht⟩

/-- without a default arm they are -/
theorem chain_none {ps : List Part} (h : chainForm none ps = some s) : s = .hval := by
  induction ps generalizing s with
  | nil => exact (Option.some.inj h).symm
  | cons q qs ih =>
    obtain ⟨t, ht, hc⟩ := Option.bind_eq_some_iff.1 h
    obtain rfl := ih ht
    rcases common_cases hc with ⟨-, ha, -⟩ | ⟨-, -, hs⟩
    · cases ha
    · exact hs.symm

/-- the tag of a value of a type of C, if they have one -/
def CTy.tag : CTy → Option HKind
  | .int => some .int
  | .int64 => some .int
  | .double => some .float
  | .bool => some .bool
  | .str => some .str
  | .arr => some .arr
  | .hval => none

theorem hv_tag {j : HKind} (h : x.ty.tag = some j) : (Codegen.hv x).tag = j := by
  cases x <;> first | exact Option.some.inj h | cases h

theorem yields_inv {e : CExpr} {w : Val} (h : Yields rt r e (some w)) :
    ∃ s x, e.typeOf = some s ∧ r.takes s = true ∧ e.eval rt = some x ∧ r.box x = some w := by
  obtain ⟨ht, hv⟩ := h
  obtain ⟨s, hs, ht⟩ := Option.bind_eq_some_iff.1 ht
  obtain ⟨v, hv, hw⟩ := Option.map_eq_some_iff.1 hv
  obtain ⟨x, hx, hb⟩ := Option.bind_eq_some_iff.1 hv
  refine ⟨s, x, hs, ?_, hx, hb.trans (congrArg some (CVal.hval.inj hw))⟩
  by_contra hn
  rw [if_neg hn] at ht
  cases ht

/-- the runtime that the runs of a bad shape use -/
def someRt : Rt := ⟨fun _ => ⟨0⟩, fun _ => [], fun p => p, 0⟩

/-- if the arms with equal subjects are right, they have one type -/
theorem match_alike {ps : List Part} {pd : Option Part}
    (h : ∀ (arms : List Arm) (dflt : Option Operand),
      arms.map (fun m => m.body.part) = ps → dflt.map Operand.part = pd →
      (∀ m ∈ arms, m.subj = .int64 0) →
      Yields someRt (joinMatch (ps.map Part.ty) (pd.map Part.ty)) (emitMatch arms dflt)
        (firstHit someRt dflt arms)) :
    (∀ p ∈ ps ++ pd.toList, ∀ q ∈ ps ++ pd.toList, Alike p q) ∧
      (pd = none → ∀ p ∈ ps, p.ty.isMixed = true) := by
  -- any value of any part comes out
  have hall : ∀ o : Operand, o.part ∈ ps ++ pd.toList → ∃ s x, chainForm pd ps = some s ∧
      x.ty = s ∧ (joinMatch (ps.map Part.ty) (pd.map Part.ty)).box x = some o.v := by
    intro o ho
    obtain ⟨arms, dflt, rfl, rfl, hsubj, hv⟩ := exists_chosen ho
    obtain ⟨s, x, hs, -, hx, hb⟩ := yields_inv (hv someRt ▸ h arms dflt rfl rfl hsubj)
    exact ⟨s, x, typeOf_arms dflt arms ▸ hs, eval_ty hs hx, hb⟩
  have hmixed : chainForm pd ps = some .hval → ∀ p ∈ ps ++ pd.toList, p.ty = .mixed :=
    fun hc p hp => isMixed_iff.1 (mixed_of_chain hc p hp)
  constructor
  · obtain ⟨k, hk⟩ : ∃ k, ∀ p ∈ ps ++ pd.toList, p.ty.tag = k := by
      cases hr : (joinMatch (ps.map Part.ty) (pd.map Part.ty)).tag with
      | some j =>
        refine ⟨some j, fun p hp => tag_of_all fun o ho => ?_⟩
        obtain ⟨-, x, -, -, hb⟩ := hall o (ho ▸ hp)
        exact box_tag hb hr
      | none =>
        have hr' : joinMatch (ps.map Part.ty) (pd.map Part.ty) = .mixed := by
          cases hj : joinMatch (ps.map Part.ty) (pd.map Part.ty) <;> rw [hj] at hr <;>
            first | rfl | cases hr
        cases hc : chainForm pd ps with
        | none =>
          refine ⟨none, fun p hp => ?_⟩
          obtain ⟨o, rfl, -⟩ := exists_operand p .null
          obtain ⟨s, -, hs, -⟩ := hall o hp
          rw [hc] at hs
          cases hs
        | some s =>
          cases hs : s.tag with
          | none =>
            have hsv : s = .hval := by
              cases s <;> first | rfl | cases hs
            exact ⟨none, fun p hp => hmixed (hsv ▸ hc) p hp ▸ rfl⟩
          | some j =>
            refine ⟨some j, fun p hp => tag_of_all fun o ho => ?_⟩
            obtain ⟨s', x, hs', hx, hb⟩ := hall o (ho ▸ hp)
            obtain rfl := Option.some.inj (hc.symm.trans hs')
            rw [hr'] at hb
            exact Option.some.inj hb ▸ hv_tag (hx ▸ hs)
    exact fun p hp q hq => (hk p hp).trans (hk q hq).symm
  · rintro rfl p hp
    obtain ⟨o, rfl, -⟩ := exists_operand p .null
    obtain ⟨s, x, hs, -, -⟩ := hall o (List.mem_append_left _ hp)
    obtain rfl := chain_none hs
    exact mixed_of_chain hs _ (List.mem_append_left _ hp)

/-- **A `match` that is right for all values is good.** -/
theorem match_good {steady : Bool} {ps : List Part} {pd : Option Part}
    (h : AlwaysRight (.match steady ps pd)) : Good (.match steady ps pd) := by
  have hright : ∀ (arms : List Arm) (dflt : Option Operand),
      arms.map (fun m => m.body.part) = ps → dflt.map Operand.part = pd →
      (steady = true → Steady arms) →
      Yields someRt (joinMatch (ps.map Part.ty) (pd.map Part.ty)) (emitMatch arms dflt)
        (chosen someRt ((arms.head?.map fun m => hv m.subj).getD .null) dflt arms) := by
    intro arms dflt hps hpd hst
    have h := h someRt arms dflt hps hpd hst
    rw [← hps, ← hpd, List.map_map, Option.map_map]
    exact h
  obtain ⟨halike, hnone⟩ := match_alike fun arms dflt hps hpd hsubj => by
    have h := hright arms dflt hps hpd fun _ m hm n hn => (hsubj m hm).trans (hsubj n hn).symm
    cases arms with
    | nil => exact h
    | cons m arms =>
      rw [List.head?_cons, Option.map_some, Option.getD_some, hsubj m List.mem_cons_self,
        chosen_eq hsubj] at h
      exact h
  refine ⟨halike, hnone, fun h2 => ?_⟩
  -- the second arm has another subject
  by_contra hst
  cases ps with
  | nil => cases h2
  | cons p ps =>
  cases ps with
  | nil => exact absurd h2 (Nat.not_succ_le_self 1)
  | cons q ps =>
  obtain ⟨arms, hparts, -⟩ := exists_arms ps
  obtain ⟨dflt, rfl⟩ := exists_dflt pd
  obtain ⟨a, rfl, -⟩ := exists_operand p .null
  obtain ⟨b, rfl, hb⟩ := exists_operand q ((chosen someRt (.int 0) dflt arms).getD .null)
  have hps : (⟨.int64 0, [.int 1], a⟩ :: ⟨.int64 1, [.int 1], b⟩ :: arms).map
      (fun m : Arm => m.body.part) = a.part :: b.part :: ps := by
    rw [List.map_cons, List.map_cons, hparts]
  have hc := hright _ dflt hps rfl fun hs => absurd hs hst
  have hf := match_yields hps rfl halike hnone someRt
  have he := hc.2.symm.trans hf.2
  have hcv : chosen someRt (.int 0) dflt
      (⟨.int64 0, [.int 1], a⟩ :: ⟨.int64 1, [.int 1], b⟩ :: arms) =
      chosen someRt (.int 0) dflt arms := by
    rw [chosen, if_neg (ne_true_of_eq_false hit_zero_one), chosen,
      if_neg (ne_true_of_eq_false hit_zero_one)]
  have hfv : firstHit someRt dflt
      (⟨.int64 0, [.int 1], a⟩ :: ⟨.int64 1, [.int 1], b⟩ :: arms) = some b.v :=
    (if_neg (ne_true_of_eq_false hit_zero_one)).trans (if_pos hit_one_one)
  have he' : (chosen someRt (.int 0) dflt arms).map CVal.hval = some (.hval b.v) := by
    rw [← hcv]
    rw [hfv] at he
    exact he
  obtain ⟨v, hv, hvb⟩ := Option.map_eq_some_iff.1 he'
  rw [hv] at hb
  exact hb (CVal.hval.inj hvb).symm

/-! ## `?:` and `??` -/

/-- `?:` with branches that are given types -/
theorem cond_eq {c x y : CExpr} {f g : Bool} (hc : c.typeOf.any (fun s => s ≠ .hval) = true)
    (hf : (c.eval rt).bind CVal.truth = some f) (hx : x.typeOf = some s) (hy : y.typeOf = some t)
    (hu : s.common t = some u) (hg : f = g) :
    (CExpr.cond c x y).typeOf = some u ∧
      (CExpr.cond c x y).eval rt = ((if g then x.eval rt else y.eval rt).bind (CVal.convert u)) := by
  have ht : (CExpr.cond c x y).typeOf = some u := by
    rw [CExpr.typeOf, if_pos hc, hx, hy]
    exact hu
  refine ⟨ht, ?_⟩
  rw [CExpr.eval, hf, Option.bind_some, ht, hg]
  rfl

/-- the truth of a condition in C -/
def ctruth (rt : Rt) (o : Operand) : Option Bool := ((emitCond o).eval rt).bind CVal.truth

theorem cond_typeOf (o : Operand) : (emitCond o).typeOf.any (fun s => s ≠ .hval) = true := by
  obtain ⟨p, x, v, h⟩ := o
  cases h <;> rfl

/-- but for strings and arrays, which are pointers in C -/
theorem ctruth_eq (h : o.ty.isRef = false) : ctruth rt o = some (hpValToBool rt o.v) := by
  obtain ⟨p, x, v, hp⟩ := o
  cases hp with
  | cbool b => exact truth_cbool b
  | string => cases h
  | array => cases h
  | _ => rfl

theorem exists_ctruth (o : Operand) : ∃ f, ctruth rt o = some f := by
  obtain ⟨p, x, v, h⟩ := o
  cases h with
  | cbool b => exact ⟨b, truth_cbool b⟩
  | _ => exact ⟨_, rfl⟩

/-- a condition that is true, or false, in both -/
theorem exists_cond (p : Part) (f : Bool) :
    ∃ o : Operand, o.part = p ∧ ctruth someRt o = some f ∧ hpValToBool someRt o.v = f := by
  cases p with
  | int => cases f with
    | false => exact ⟨⟨_, _, _, .int 0⟩, rfl, rfl, rfl⟩
    | true => exact ⟨⟨_, _, _, .int 1⟩, rfl, rfl, rfl⟩
  | cint => cases f with
    | false => exact ⟨⟨_, _, _, .cint 0⟩, rfl, rfl, rfl⟩
    | true => exact ⟨⟨_, _, _, .cint 1⟩, rfl, rfl, rfl⟩
  | float => cases f with
    | false => exact ⟨⟨_, _, _, .float ⟨0⟩⟩, rfl, rfl, rfl⟩
    | true => exact ⟨⟨_, _, _, .float ⟨1⟩⟩, rfl, rfl, rfl⟩
  | bool => exact ⟨⟨_, _, _, .bool f⟩, rfl, rfl, rfl⟩
  | cbool => exact ⟨⟨_, _, _, .cbool f⟩, rfl, truth_cbool f, rfl⟩
  | string => cases f with
    | false => exact ⟨⟨_, _, _, .string none⟩, rfl, rfl, rfl⟩
    | true => exact ⟨⟨_, _, _, .string (some [0])⟩, rfl, rfl, rfl⟩
  | array e => cases f with
    | false => exact ⟨⟨_, _, _, .array e none⟩, rfl, rfl, rfl⟩
    | true => exact ⟨⟨_, _, _, .array e (some 1)⟩, rfl, rfl, rfl⟩
  | mixed => exact ⟨⟨_, _, _, .mixed (.bool f)⟩, rfl, rfl, rfl⟩

/-- the branches are good -/
def Branches (a b : Part) : Prop :=
  Alike a b ∨ ((joinTernary a.ty b.ty).isMixed = true ∧ a ≠ .cbool ∧ b ≠ .cbool)

/-- both branches `x` and `y` are the values `v` and `w` in a `?:` of the type `r` -/
structure Sides (rt : Rt) (r : STy) (x y : CExpr) (v w : Val) : Prop where
  types : ∃ s t u, x.typeOf = some s ∧ y.typeOf = some t ∧ s.common t = some u ∧
    r.takes u = true ∧ ((x.eval rt).bind (CVal.convert u)).bind r.box = some v ∧
    ((y.eval rt).bind (CVal.convert u)).bind r.box = some w

theorem Sides.yields {c x y : CExpr} {f : Bool} (h : Sides rt r x y v w)
    (hc : c.typeOf.any (fun s => s ≠ .hval) = true)
    (hf : (c.eval rt).bind CVal.truth = some f) :
    Yields rt r (.cond c x y) (some (if f then v else w)) := by
  obtain ⟨s, t, u, hx, hy, hu, htake, hv, hw⟩ := h.types
  obtain ⟨ht, he⟩ := cond_eq hc hf hx hy hu rfl
  refine yields_of_bind ht htake ?_
  rw [he]
  cases f with
  | true => exact hv
  | false => exact hw

/-- both are pointers of one type -/
theorem sides_native (h : native a.ty b.ty = true) (rt : Rt) :
    Sides rt (joinTernary a.ty b.ty) a.e b.e a.v b.v := by
  obtain ⟨p, x, v, ha⟩ := a
  obtain ⟨q, y, w, hb⟩ := b
  cases ha <;> cases hb <;> try cases h
  case string.string.refl => exact ⟨_, _, _, rfl, rfl, rfl, rfl, rfl, rfl⟩
  case array.array.refl e a e' a' =>
    have hj : joinTernary (.array e) (.array e') = .array e ∨
        joinTernary (.array e) (.array e') = .array e' ∨
        joinTernary (.array e) (.array e') = .mixed := by
      unfold joinTernary
      split
      · exact .inl rfl
      · split
        · exact .inr (.inl rfl)
        · exact .inr (.inr rfl)
    show Sides rt (joinTernary (.array e) (.array e')) _ _ _ _
    rcases hj with hj | hj | hj <;> rw [hj] <;> exact ⟨_, _, _, rfl, rfl, rfl, rfl, rfl, rfl⟩

/-- both are boxed, and the result is `mixed` -/
theorem sides_mixed (ha : a.part ≠ .cbool) (hb : b.part ≠ .cbool) (rt : Rt) :
    Sides rt .mixed (.hv a.e) (.hv b.e) a.v b.v := by
  refine ⟨.hval, .hval, .hval, rfl, rfl, rfl, rfl, ?_, ?_⟩
  · exact congrArg some (a.has.hv ha)
  · exact congrArg some (b.has.hv hb)

theorem native_comm (s t : STy) : native s t = native t s := by
  cases s <;> cases t <;> rfl

theorem ternarySides_native (h : native a.ty b.ty = true) (r : STy) :
    ternarySides a b r = (a.e, b.e) := by
  have ha : boxSide a.ty b.ty r = false := by rw [boxSide, h, Bool.not_true, Bool.and_false]
  have hb : boxSide b.ty a.ty r = false := by
    rw [boxSide, native_comm, h, Bool.not_true, Bool.and_false]
  unfold ternarySides
  rw [ha, hb]
  rfl

theorem ternarySides_mixed (h : native a.ty b.ty = false) :
    ternarySides a b .mixed = (.hv a.e, .hv b.e) := by
  have ha : boxSide a.ty b.ty .mixed = true := by
    rw [boxSide, h, Bool.not_false, Bool.and_true]
    exact Bool.or_true _
  unfold ternarySides
  rw [ha]
  rfl

/-- **Good branches** are the values of the two sides. -/
theorem sides_branches (h : Branches a.part b.part) (rt : Rt) :
    Sides rt (joinTernary a.ty b.ty) (ternarySides a b (joinTernary a.ty b.ty)).1
      (ternarySides a b (joinTernary a.ty b.ty)).2 a.v b.v := by
  cases hn : native a.ty b.ty with
  | true =>
    rw [ternarySides_native hn]
    exact sides_native hn rt
  | false =>
    rcases h with h | ⟨hr, ha, hb⟩
    · obtain ⟨p, x, v, ha⟩ := a
      obtain ⟨q, y, w, hb⟩ := b
      cases ha <;> cases hb <;> cases h <;> cases hn
      case bool.bool.refl.refl b b' =>
        exact ⟨_, _, .int, rfl, rfl, rfl, rfl, by cases b <;> rfl, by cases b' <;> rfl⟩
      case bool.cbool.refl.refl b b' =>
        exact ⟨_, _, .int, rfl, rfl, rfl, rfl, by cases b <;> rfl, by cases b' <;> rfl⟩
      case cbool.bool.refl.refl b b' =>
        exact ⟨_, _, .int, rfl, rfl, rfl, rfl, by cases b <;> rfl, by cases b' <;> rfl⟩
      case cbool.cbool.refl.refl b b' =>
        exact ⟨_, _, .int, rfl, rfl, rfl, rfl, by cases b <;> rfl, by cases b' <;> rfl⟩
      all_goals exact ⟨_, _, _, rfl, rfl, rfl, rfl, rfl, rfl⟩
    · have hr' : joinTernary a.ty b.ty = .mixed := isMixed_iff.1 hr
      rw [hr', ternarySides_mixed hn]
      exact sides_mixed ha hb rt

/-- for any condition, by its truth in C -/
theorem ternary_yields {f : Bool} (h : Branches a.part b.part) (hf : ctruth rt o = some f) :
    Yields rt (joinTernary a.ty b.ty) (emitTernary o a b) (some (if f then a.v else b.v)) :=
  (sides_branches h rt).yields (cond_typeOf o) hf

theorem ternary_right {c a b : Part} (h : Good (.ternary c a b)) :
    AlwaysRight (.ternary c a b) := by
  rintro rt oc oa ob rfl rfl rfl
  exact ternary_yields h.2 (ctruth_eq h.1)

theorem alike_of_tags (j : HKind) {pa pb : Part} (ha : ∀ o : Operand, o.part = pa → o.v.tag = j)
    (hb : ∀ o : Operand, o.part = pb → o.v.tag = j) : Alike pa pb :=
  (tag_of_all ha).trans (tag_of_all hb).symm

/-- both are boxed by their types in C -/
theorem eval_mixed {f : Bool} (hr : joinTernary a.ty b.ty = .mixed) (hn : native a.ty b.ty = false)
    (hf : ctruth rt o = some f) :
    (emitTernary o a b).eval rt =
      some (.hval (if f then Codegen.hv a.c else Codegen.hv b.c)) := by
  have hs : emitTernary o a b = .cond (emitCond o) (.hv a.e) (.hv b.e) := by
    unfold emitTernary
    rw [hr, ternarySides_mixed hn]
  have he := (cond_eq (x := .hv a.e) (y := .hv b.e) (cond_typeOf o) hf rfl rfl rfl rfl).2
  rw [hs, he]
  cases f <;> rfl

/-- **A `?:` that is right for all values is good.** -/
theorem ternary_good {pc pa pb : Part} (h : AlwaysRight (.ternary pc pa pb)) :
    Good (.ternary pc pa pb) := by
  have hright : ∀ (f : Bool) (a b : Operand), a.part = pa → b.part = pb →
      ∃ o, ctruth someRt o = some f ∧
        Yields someRt (joinTernary pa.ty pb.ty) (emitTernary o a b)
          (some (if f then a.v else b.v)) := by
    rintro f a b rfl rfl
    obtain ⟨o, rfl, hf, ho⟩ := exists_cond pc f
    exact ⟨o, hf, ho ▸ h someRt o a b rfl rfl rfl⟩
  have hb : Branches pa pb := by
    obtain ⟨a₀, ha₀, -⟩ := exists_operand pa .null
    obtain ⟨b₀, hb₀, -⟩ := exists_operand pb .null
    cases ht : (joinTernary pa.ty pb.ty).tag with
    | some j =>
      refine .inl (alike_of_tags j (fun a ha => ?_) fun b hb => ?_)
      · obtain ⟨o, -, hy⟩ := hright true a b₀ ha hb₀
        obtain ⟨-, x, -, -, -, hx⟩ := yields_inv hy
        exact box_tag hx ht
      · obtain ⟨o, -, hy⟩ := hright false a₀ b ha₀ hb
        obtain ⟨-, x, -, -, -, hx⟩ := yields_inv hy
        exact box_tag hx ht
    | none =>
      have hr : joinTernary pa.ty pb.ty = .mixed := by
        cases hj : joinTernary pa.ty pb.ty <;> rw [hj] at ht <;> first | rfl | cases ht
      cases hn : native pa.ty pb.ty with
      | true =>
        refine .inl ?_
        cases pa <;> cases pb <;> first | rfl | cases hn
      | false =>
        have hhv : ∀ (f : Bool) (a b : Operand), a.part = pa → b.part = pb →
            (if f then Codegen.hv a.c else Codegen.hv b.c) = if f then a.v else b.v := by
          rintro f a b rfl rfl
          obtain ⟨o, hf, hy⟩ := hright f a b rfl rfl
          obtain ⟨-, x, -, -, hx, hb⟩ := yields_inv hy
          rw [eval_mixed hr hn hf] at hx
          obtain rfl := Option.some.inj hx
          rw [hr] at hb
          exact Option.some.inj hb
        refine .inr ⟨isMixed_iff.2 hr, ?_, ?_⟩
        · rintro rfl
          cases hhv true ⟨_, _, _, .cbool true⟩ b₀ rfl hb₀
        · rintro rfl
          cases hhv false a₀ ⟨_, _, _, .cbool true⟩ ha₀ rfl
  refine ⟨?_, hb⟩
  -- a pointer that is not null is true in C
  by_contra hc
  obtain ⟨rt, o, rfl, hf, ho⟩ : ∃ (rt : Rt) (o : Operand), o.part = pc ∧
      ctruth rt o = some true ∧ hpValToBool rt o.v = false := by
    cases pc with
    | string => exact ⟨someRt, ⟨_, _, _, .string (some [])⟩, rfl, rfl, rfl⟩
    | array e => exact ⟨someRt, ⟨_, _, _, .array e (some 0)⟩, rfl, rfl, rfl⟩
    | _ => exact absurd rfl hc
  obtain ⟨a, rfl, -⟩ := exists_operand pa .null
  obtain ⟨b, rfl, hne⟩ := exists_operand pb a.v
  have hy := (ternary_yields hb hf).2.symm.trans (h rt o a b rfl rfl rfl).2
  rw [ho] at hy
  exact hne (CVal.hval.inj (Option.some.inj hy)).symm

/-- a part that is boxed by its type -/
theorem boxed_part (rt : Rt) (o : Operand) : Yields rt o.ty o.e (some o.v) :=
  yields_of_bind (congrArg some o.has.form) (takes_forms (.inl rfl) (form_mem o.part))
    (o.has.box (.inl rfl))

theorem nullcoal_right {l r : Part} (h : Good (.nullcoal l r)) : AlwaysRight (.nullcoal l r) := by
  rintro rt a b rfl rfl
  have hm : a.ty = .mixed := isMixed_iff.1 h
  have ha := boxed_part rt a
  have hb := boxed_part rt b
  have ht : (emitNullcoal a b).typeOf = some .hval := if_pos ⟨ha.1, hb.1⟩
  have he : (emitNullcoal a b).eval rt = some (.hval (hpNullcoal a.v b.v)) := by
    rw [emitNullcoal, CExpr.eval, ha.2, hb.2]
    rfl
  refine yields_of_bind ht (hm ▸ rfl) ?_
  rw [he, hm]
  rfl

/-- **A `??` that is right for all values is good**: what it emits is a `hval`. -/
theorem nullcoal_good {l r : Part} (h : AlwaysRight (.nullcoal l r)) : Good (.nullcoal l r) := by
  obtain ⟨a, rfl, -⟩ := exists_operand l .null
  obtain ⟨b, rfl, -⟩ := exists_operand r .null
  obtain ⟨s, x, hs, ht, -, -⟩ := yields_inv (h someRt a b rfl rfl)
  have hsv : s = .hval := by
    rw [emitNullcoal, CExpr.typeOf] at hs
    split at hs
    · exact (Option.some.inj hs).symm
    · cases hs
  subst hsv
  show a.ty.isMixed = true
  revert ht
  cases a.ty <;> intro ht <;> first | rfl | cases ht

end

/-- **A conditional expression returns the chosen value, for all values, just if it is good.** -/
theorem conditional_iff (s : Shape) : AlwaysRight s ↔ Good s := by
  cases s with
  | ternary c a b => exact ⟨ternary_good, ternary_right⟩
  | «match» steady arms dflt => exact ⟨match_good, match_right⟩
  | nullcoal l r => exact ⟨nullcoal_good, nullcoal_right⟩

/-- `$c ? 1 : 2.5` is 2 when `$c` is false. -/
theorem ternary_float_truncated :
    ¬ Yields someRt (joinTernary .int .float) (emitTernary ⟨_, _, _, .bool false⟩ ⟨_, _, _, .int 1⟩
      ⟨_, _, _, .float ⟨0x4004000000000000⟩⟩) (some (.float ⟨0x4004000000000000⟩)) := by
  intro h
  have hv : (CExpr.box (joinTernary .int .float) (emitTernary ⟨_, _, _, .bool false⟩
      ⟨_, _, _, .int 1⟩ ⟨_, _, _, .float ⟨0x4004000000000000⟩⟩)).eval someRt =
      some (.hval (.int 2)) := rfl
  cases hv.symm.trans h.2

end Codegen
end HolyPhp
