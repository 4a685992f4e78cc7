import HolyPhp.Parser.Newlines
import HolyPhp.Sema.Ast

/-!
# Type annotations

* `tsPeek`, `tsAdvance`, `tsExpect`  the stream of tokens, which ends in `T_EOF`;
* `parseType`      `parse_type`, with the loop over the parameters of a function type;
* `typeToString`   `type_to_string` of the types that can be written;
* `parse_passes`    what `parse_type` reads: tokens of some kinds, and never the last one.
-/

set_option autoImplicit false

namespace HolyPhp
namespace Parser
open Lexer Sema

/-! ## the stream of tokens -/

/-- the last token stays -/
def tsAdvance : List Token → List Token
  | _ :: t :: ts => t :: ts
  | ts => ts

def tsPeek : List Token → Token
  | t :: _ => t
  | [] => ⟨.eof, 0, 0, 0, [], 0, ⟨0⟩, []⟩

def tsCheck (ts : List Token) (k : TokKind) : Bool := (tsPeek ts).kind = k

/-- why there is no type -/
inductive Fail where
  /-- `expected` the kind, with what it is for, `found` the token -/
  | expected (found : Token) (k : TokKind) (what : Bytes)
  | fuel

/-- a part of the parser -/
abbrev Parse (α : Type) := List Token → Except Fail (α × List Token)

def tsExpect (k : TokKind) (what : Bytes) : Parse Token := fun ts =>
  if tsCheck ts k then .ok (tsPeek ts, tsAdvance ts) else .error (.expected (tsPeek ts) k what)

/-- `eat_ident` -/
def eatIdent (kw : Bytes) (ts : List Token) : Bool × List Token :=
  if tsCheck ts .ident && (tsPeek ts).text = kw then (true, tsAdvance ts) else (false, ts)

/-! ## `parse_type` -/

/-- the table of `parse_type`; its rows for `array` and `list` are not reached -/
def prims : List (Bytes × Prim) :=
  [(ascii "int", .int), (ascii "i8", .i8), (ascii "i16", .i16), (ascii "i32", .i32),
   (ascii "i64", .i64), (ascii "u8", .i8), (ascii "u16", .i16), (ascii "u32", .i32),
   (ascii "u64", .i64), (ascii "usize", .i64), (ascii "isize", .i64),
   (ascii "float", .float), (ascii "f32", .f32), (ascii "f64", .f64),
   (ascii "double", .float),
   (ascii "bool", .bool), (ascii "string", .string), (ascii "str", .string),
   (ascii "void", .void), (ascii "mixed", .mixed)]

/-- a type with one argument in angles, or none -/
def angle1 (p : Parse Ty) (mk : Ty → Ty) (what : Bytes) : Parse Ty := fun ts =>
  if tsCheck ts .lt then do
    let (el, ts) ← p (tsAdvance ts)
    let (_, ts) ← tsExpect .gt what ts
    .ok (mk el, ts)
  else .ok (mk .mixed, ts)

def angleMap (p : Parse Ty) : Parse Ty := fun ts =>
  if tsCheck ts .lt then do
    let (key, ts) ← p (tsAdvance ts)
    let (_, ts) ← tsExpect .comma (ascii "',' in Map<K, V>") ts
    let (val, ts) ← p ts
    let (_, ts) ← tsExpect .gt (ascii "'>' closing Map<") ts
    .ok (.map key val, ts)
  else .ok (.map .mixed .mixed, ts)

/-- the second argument of `Result`, if there is one -/
def errType (p : Parse Ty) : Parse Ty := fun ts =>
  if tsCheck ts .comma then p (tsAdvance ts) else .ok (.string, ts)

def angleResult (p : Parse Ty) : Parse Ty := fun ts =>
  if tsCheck ts .lt then do
    let (ok, ts) ← p (tsAdvance ts)
    let (err, ts) ← errType p ts
    let (_, ts) ← tsExpect .gt (ascii "'>' closing Result<") ts
    .ok (.result ok err, ts)
  else .ok (.result .mixed .string, ts)

/-- behind the parenthesis of a function type, with its parameters -/
def fnType (p : Parse Ty) (params : Parse (List Ty)) : Parse Ty := fun ts => do
  let (ps, ts) ← params ts
  let (_, ts) ← tsExpect .rparen (ascii "')' in fn type") ts
  if tsCheck ts .arrow then
    let (ret, ts) ← p (tsAdvance ts)
    .ok (.fn ps ret false, ts)
  else .ok (.fn ps .void false, ts)

/-- behind the name `n` -/
def namedType (p : Parse Ty) (params : Parse (List Ty)) (n : Bytes) : Parse Ty := fun ts =>
  if n = ascii "array" ∨ n = ascii "list" then .ok (.array .mixed, ts)
  else
    match (prims.find? fun q => q.1 = n).map Prod.snd with
    | some k => .ok (.prim k, ts)
    | none =>
      if n = ascii "callable" ∧ tsCheck ts .lparen = false then .ok (.fn [] .mixed true, ts)
      else if (n = ascii "fn" ∨ n = ascii "callable") ∧ tsCheck ts .lparen then
        fnType p params (tsAdvance ts)
      else if n = ascii "Vec" then angle1 p .vec (ascii "'>' closing Vec<") ts
      else if n = ascii "Set" then angle1 p .set (ascii "'>' closing Set<") ts
      else if n = ascii "Map" ∨ n = ascii "map" ∨ n = ascii "dict" then angleMap p ts
      else if n = ascii "Option" then angle1 p .option (ascii "'>' closing Option<") ts
      else if n = ascii "Result" then angleResult p ts
      else .ok (.cls n, ts)

mutual

/-- `fuel` bounds the depth of the calls -/
def parseType : Nat → Parse Ty
  | 0, _ => .error .fuel
  | fuel + 1, ts =>
    if tsCheck ts .amp then do
      let m := eatIdent (ascii "mut") (tsAdvance ts)
      let (el, ts) ← parseType fuel m.2
      .ok (if m.1 then .mutref el else .ref el, ts)
    else if tsCheck ts .kwOwn then do
      let (el, ts) ← parseType fuel (tsAdvance ts)
      .ok (.own el, ts)
    else if tsCheck ts .star then do
      let (el, ts) ← parseType fuel (tsAdvance ts)
      .ok (.ptr el, ts)
    else if tsCheck ts .lbracket then do
      let (el, ts) ← parseType fuel (tsAdvance ts)
      let (_, ts) ← tsExpect .rbracket (ascii "']' in array type") ts
      .ok (.array el, ts)
    else if tsCheck ts .kwFn then
      namedType (parseType fuel) (parseParams fuel) (tsPeek ts).text (tsAdvance ts)
    else do
      let (nm, ts) ← tsExpect .ident (ascii "type name") ts
      namedType (parseType fuel) (parseParams fuel) nm.text ts

/-- the loop over the parameters -/
def parseParams : Nat → Parse (List Ty)
  | 0, _ => .error .fuel
  | fuel + 1, ts =>
    if tsCheck ts .rparen || tsCheck ts .eof then .ok ([], ts)
    else do
      let (t, ts) ← parseType fuel ts
      if tsCheck ts .comma then
        let (rest, ts) ← parseParams fuel (tsAdvance ts)
        .ok (t :: rest, ts)
      else .ok ([t], ts)

end

/-! ## `type_to_string` -/

/-- `type_kind_name` of the types without parts -/
def primName : Prim → Bytes
  | .error => ascii "<error>"
  | .int => ascii "int"
  | .i8 => ascii "i8"
  | .i16 => ascii "i16"
  | .i32 => ascii "i32"
  | .i64 => ascii "i64"
  | .float => ascii "float"
  | .f32 => ascii "f32"
  | .f64 => ascii "f64"
  | .bool => ascii "bool"
  | .string => ascii "string"
  | .void => ascii "void"
  | .mixed => ascii "mixed"
  | .tuple => ascii "tuple"
  | .self => ascii "self"

mutual

def typeToString : Ty → Bytes
  | .prim k => primName k
  | .array e => ascii "[" ++ typeToString e ++ ascii "]"
  | .vec e => ascii "Vec<" ++ typeToString e ++ ascii ">"
  | .map k v => ascii "Map<" ++ typeToString k ++ ascii ", " ++ typeToString v ++ ascii ">"
  | .set e => ascii "Set<" ++ typeToString e ++ ascii ">"
  | .ref e => ascii "&" ++ typeToString e
  | .mutref e => ascii "&mut " ++ typeToString e
  | .ptr e => ascii "*" ++ typeToString e
  | .own e => ascii "own " ++ typeToString e
  | .rc e => ascii "Rc<" ++ typeToString e ++ ascii ">"
  | .option e => ascii "Option<" ++ typeToString e ++ ascii ">"
  | .result o e => ascii "Result<" ++ typeToString o ++ ascii ", " ++ typeToString e ++ ascii ">"
  | .fn ps r _ => ascii "fn(" ++ paramsToString ps ++ ascii ")" ++
      (if r.isVoid then [] else ascii " -> " ++ typeToString r)
  | .struct n => n
  | .cls n => n
  | .iface n => n
  | .enum n => n

def paramsToString : List Ty → Bytes
  | [] => []
  | [p] => typeToString p
  | p :: q :: ps => typeToString p ++ ascii ", " ++ paramsToString (q :: ps)

end

/-! ## what is read -/

variable {α β : Type} {ts us vs : List Token} {k : TokKind} {p : Parse α}

/-- a stream of tokens as `lex_all` makes it -/
def Stream (ts : List Token) : Prop := ∃ us e, ts = us ++ [e] ∧ e.kind = .eof

/-- the kinds of the tokens that `parse_type` goes past -/
def passKind : TokKind → Bool
  | .amp | .ident | .kwOwn | .star | .lbracket | .rbracket | .kwFn | .lparen | .rparen | .comma
  | .arrow | .lt | .gt => true
  | _ => false

/-- from one place of a stream to another one, past tokens of these kinds -/
def Passes (ts us : List Token) : Prop :=
  Stream us ∧ ∃ w, ts = w ++ us ∧ ∀ u ∈ w, passKind u.kind = true

/-- what the parser reads before it returns -/
def PassesOk (p : Parse α) : Prop := ∀ ts a us, Stream ts → p ts = .ok (a, us) → Passes ts us

theorem Passes.refl (h : Stream ts) : Passes ts ts := ⟨h, [], rfl, List.forall_mem_nil _⟩

theorem Passes.trans (h : Passes ts us) (h' : Passes us vs) : Passes ts vs := by
  obtain ⟨-, w, rfl, hw⟩ := h
  obtain ⟨hs, w', rfl, hw'⟩ := h'
  exact ⟨hs, w ++ w', (List.append_assoc w w' vs).symm, fun u hu =>
    (List.mem_append.1 hu).elim (hw u) (hw' u)⟩

theorem Passes.advance (h : Stream ts) (hc : tsCheck ts k = true) (hk : passKind k = true) :
    Passes ts (tsAdvance ts) := by
  obtain ⟨us, e, rfl, he⟩ := h
  have hc' : (tsPeek (us ++ [e])).kind = k := of_decide_eq_true hc
  cases us with
  | nil =>
    rw [← hc'] at hk
    change passKind e.kind = true at hk
    rw [he] at hk
    cases hk
  | cons u us =>
    have hadv : tsAdvance (u :: us ++ [e]) = us ++ [e] := by
      cases us <;> rfl
    rw [hadv]
    refine ⟨⟨us, e, rfl, he⟩, [u], rfl, fun v hv => ?_⟩
    rw [List.mem_singleton.1 hv, show u.kind = k from hc', hk]

theorem bind_eq_ok {x : Except Fail α} {f : α → Except Fail β} {b : β} (h : x >>= f = .ok b) :
    ∃ a, x = .ok a ∧ f a = .ok b := by
  cases x with
  | error e => cases h
  | ok a => exact ⟨a, rfl, h⟩

theorem tsExpect_eq_ok {what : Bytes} {t : Token} (h : tsExpect k what ts = .ok (t, us)) :
    tsCheck ts k = true ∧ t = tsPeek ts ∧ us = tsAdvance ts := by
  unfold tsExpect at h
  split at h
  next hc =>
    cases h
    exact ⟨hc, rfl, rfl⟩
  · cases h

theorem PassesOk.expect (what : Bytes) (hk : passKind k = true) : PassesOk (tsExpect k what) := by
  intro ts t us hs h
  obtain ⟨hc, -, rfl⟩ := tsExpect_eq_ok h
  exact .advance hs hc hk

theorem eatIdent_passes (kw : Bytes) (hs : Stream ts) : Passes ts (eatIdent kw ts).2 := by
  unfold eatIdent
  split
  next hm => exact .advance hs (Bool.and_eq_true_iff.1 hm).1 rfl
  · exact .refl hs

theorem PassesOk.angle1 {p : Parse Ty} {mk : Ty → Ty} {what : Bytes} (hp : PassesOk p) :
    PassesOk (angle1 p mk what) := by
  intro ts a us hs h
  unfold Parser.angle1 at h
  split at h
  next hc =>
    obtain ⟨⟨el, ts1⟩, h1, h⟩ := bind_eq_ok h
    obtain ⟨⟨t, ts2⟩, h2, h⟩ := bind_eq_ok h
    cases h
    have r0 := Passes.advance hs hc rfl
    have r1 := hp _ _ _ r0.1 h1
    exact r0.trans (r1.trans (PassesOk.expect what rfl _ _ _ r1.1 h2))
  · cases h
    exact .refl hs

theorem PassesOk.angleMap {p : Parse Ty} (hp : PassesOk p) : PassesOk (angleMap p) := by
  intro ts a us hs h
  unfold Parser.angleMap at h
  split at h
  next hc =>
    obtain ⟨⟨key, ts1⟩, h1, h⟩ := bind_eq_ok h
    obtain ⟨⟨t, ts2⟩, h2, h⟩ := bind_eq_ok h
    obtain ⟨⟨val, ts3⟩, h3, h⟩ := bind_eq_ok h
    obtain ⟨⟨u, ts4⟩, h4, h⟩ := bind_eq_ok h
    cases h
    have r0 := Passes.advance hs hc rfl
    have r1 := r0.trans (hp _ _ _ r0.1 h1)
    have r2 := r1.trans (PassesOk.expect _ rfl _ _ _ r1.1 h2)
    have r3 := r2.trans (hp _ _ _ r2.1 h3)
    exact r3.trans (PassesOk.expect _ rfl _ _ _ r3.1 h4)
  · cases h
    exact .refl hs

theorem PassesOk.angleResult {p : Parse Ty} (hp : PassesOk p) : PassesOk (angleResult p) := by
  intro ts a us hs h
  unfold Parser.angleResult at h
  split at h
  next hc =>
    obtain ⟨⟨o, ts1⟩, h1, h⟩ := bind_eq_ok h
    obtain ⟨⟨e, ts2⟩, h2, h⟩ := bind_eq_ok h
    obtain ⟨⟨u, ts3⟩, h3, h⟩ := bind_eq_ok h
    cases h
    have r0 := Passes.advance hs hc rfl
    have r1 := r0.trans (hp _ _ _ r0.1 h1)
    have r2 : Passes ts1 ts2 := by
      unfold errType at h2
      split at h2
      next hc' =>
        have r := Passes.advance r1.1 hc' rfl
        exact r.trans (hp _ _ _ r.1 h2)
      · cases h2
        exact .refl r1.1
    exact (r1.trans r2).trans (PassesOk.expect _ rfl _ _ _ r2.1 h3)
  · cases h
    exact .refl hs

theorem PassesOk.fnType {p : Parse Ty} {params : Parse (List Ty)} (hp : PassesOk p)
    (hps : PassesOk params) : PassesOk (fnType p params) := by
  intro ts a us hs h
  unfold Parser.fnType at h
  obtain ⟨⟨ps, ts1⟩, h1, h⟩ := bind_eq_ok h
  obtain ⟨⟨t, ts2⟩, h2, h⟩ := bind_eq_ok h
  have r1 := hps _ _ _ hs h1
  have r2 := r1.trans (PassesOk.expect _ rfl _ _ _ r1.1 h2)
  dsimp only at h
  split at h
  next hc =>
    obtain ⟨⟨r, ts3⟩, h3, h⟩ := bind_eq_ok h
    cases h
    have r3 := r2.trans (Passes.advance r2.1 hc rfl)
    exact r3.trans (hp _ _ _ r3.1 h3)
  · cases h
    exact r2

theorem PassesOk.namedType {p : Parse Ty} {params : Parse (List Ty)} {n : Bytes} (hp : PassesOk p)
    (hps : PassesOk params) : PassesOk (namedType p params n) := by
  intro ts a us hs h
  unfold Parser.namedType at h
  split at h
  · cases h
    exact .refl hs
  split at h
  · cases h
    exact .refl hs
  split at h
  · cases h
    exact .refl hs
  split at h
  next hc =>
    have r := Passes.advance hs hc.2 rfl
    exact r.trans (hp.fnType hps _ _ _ r.1 h)
  split at h
  · exact hp.angle1 _ _ _ hs h
  split at h
  · exact hp.angle1 _ _ _ hs h
  split at h
  · exact hp.angleMap _ _ _ hs h
  split at h
  · exact hp.angle1 _ _ _ hs h
  split at h
  · exact hp.angleResult _ _ _ hs h
  · cases h
    exact .refl hs

/-- **What `parse_type` reads**: tokens of `passKind`, and never the last one. -/
theorem parse_passes (f : Nat) : PassesOk (parseType f) ∧ PassesOk (parseParams f) := by
  induction f with
  | zero => exact ⟨fun _ _ _ _ h => (nomatch h), fun _ _ _ _ h => (nomatch h)⟩
  | succ f ih =>
    obtain ⟨ht, hps⟩ := ih
    constructor
    · intro ts a us hs h
      rw [parseType] at h
      split at h
      next hc =>
        have r := Passes.advance hs hc rfl
        obtain ⟨⟨el, ts1⟩, h1, h⟩ := bind_eq_ok h
        cases h
        have r1 := r.trans (eatIdent_passes (ascii "mut") r.1)
        exact r1.trans (ht _ _ _ r1.1 h1)
      split at h
      next hc =>
        have r := Passes.advance hs hc rfl
        obtain ⟨⟨el, ts1⟩, h1, h⟩ := bind_eq_ok h
        cases h
        exact r.trans (ht _ _ _ r.1 h1)
      split at h
      next hc =>
        have r := Passes.advance hs hc rfl
        obtain ⟨⟨el, ts1⟩, h1, h⟩ := bind_eq_ok h
        cases h
        exact r.trans (ht _ _ _ r.1 h1)
      split at h
      next hc =>
        have r := Passes.advance hs hc rfl
        obtain ⟨⟨el, ts1⟩, h1, h⟩ := bind_eq_ok h
        obtain ⟨⟨t, ts2⟩, h2, h⟩ := bind_eq_ok h
        cases h
        have r1 := r.trans (ht _ _ _ r.1 h1)
        exact r1.trans (PassesOk.expect _ rfl _ _ _ r1.1 h2)
      split at h
      next hc =>
        have r := Passes.advance hs hc rfl
        exact r.trans (ht.namedType hps _ _ _ r.1 h)
      · obtain ⟨⟨t, ts1⟩, h1, h⟩ := bind_eq_ok h
        have r := PassesOk.expect _ rfl _ _ _ hs h1
        exact r.trans (ht.namedType hps _ _ _ r.1 h)
    · intro ts a us hs h
      rw [parseParams] at h
      split at h
      · cases h
        exact .refl hs
      · obtain ⟨⟨t, ts1⟩, h1, h⟩ := bind_eq_ok h
        have r := ht _ _ _ hs h1
        dsimp only at h
        split at h
        next hc =>
          obtain ⟨⟨rest, ts2⟩, h2, h⟩ := bind_eq_ok h
          cases h
          have r' := r.trans (Passes.advance r.1 hc rfl)
          exact r'.trans (hps _ _ _ r'.1 h2)
        · cases h
          exact r

end Parser
end HolyPhp
