import HolyPhp.Json.DecodeSpec
import HolyPhp.Lexer.Token
import HolyPhp.Lib.Balanced
import HolyPhp.Lib.Brackets
import HolyPhp.Runtime.Str

/-!
# The text of binary operators

* `printed`, `cut`     what the growable buffers and a buffer of 256 bytes keep of a text;
* `format`, `emitBinop`, `emitDotChain`, `emit`  the code that is emitted for an `EX_BIN`;
* `Shape`, `needed`    the text around the operands that the operator needs;
* `Kept`               the text is that, with all of the operands' texts in it, and balanced;
* `operands_iff`       **the text is kept exactly where it is shorter than 2^31 bytes, and the
                       operands of an identity, when they are boxed, have at most 255.**
-/

set_option autoImplicit false

namespace HolyPhp
namespace Binop
open Lexer (TokKind)
open Balanced (build)
open Str (hpStrFromInt)

/-! ## printing -/

/-- `buf_printf` and `fmt`: where the number of bytes is no `int`, `vsnprintf` fails, and nothing is
written -/
def printed (s : Bytes) : Bytes := if s.length < 2 ^ 31 then s else []

/-- `snprintf` to 256 bytes, the last of which is 0 -/
def cut (s : Bytes) : Bytes := s.take 255

/-- a format with two `%s` -/
structure Shape where
  pre : Bytes
  mid : Bytes
  post : Bytes

def Shape.fill (f : Shape) (a b : Bytes) : Bytes := f.pre ++ a ++ f.mid ++ b ++ f.post

def shape (pre mid post : String) : Shape := ⟨ascii pre, ascii mid, ascii post⟩

/-- a format with one `%s` -/
structure Wrap where
  pre : Bytes
  post : Bytes

def Wrap.fill (w : Wrap) (s : Bytes) : Bytes := w.pre ++ s ++ w.post

def wrap (pre post : String) : Wrap := ⟨ascii pre, ascii post⟩

/-! ## expressions -/

inductive TypeKind where
  | error
  | int | i8 | i16 | i32 | i64
  | float | f32 | f64
  | bool | string | void | mixed
  | array | vec | map | set | ref | mutref | ptr | own | rc
  | struct | cls | iface | enum | fn | tuple | option | result | self
  deriving DecidableEq

/-- `type_is_numeric` -/
def TypeKind.isNumeric : TypeKind → Bool
  | .int | .i8 | .i16 | .i32 | .i64 | .float | .f32 | .f64 => true
  | _ => false

def TypeKind.isFloat : TypeKind → Bool
  | .float | .f32 | .f64 => true
  | _ => false

/-- the kinds of expressions that `emit_binop` and `to_hval` ask for -/
inductive Lit where
  | int (v : Int64)
  | float
  | str
  | bool (b : Bool)
  | other
  deriving DecidableEq

def boolText (b : Bool) : Bytes := if b then ascii "true" else ascii "false"

/-- an expression of another kind, with the text that is emitted for it -/
structure Leaf where
  lit : Lit
  type : Option TypeKind
  text : Bytes
  bool_text : ∀ b, lit = .bool b → text = boolText b

inductive Expr where
  | leaf (o : Leaf)
  | bin (op : TokKind) (l r : Expr) (type : Option TypeKind)
  | nullcoal (l r : Expr) (type : Option TypeKind)
  | slice (obj lo hi : Expr) (type : Option TypeKind)
  /-- without an upper bound -/
  | sliceFrom (obj lo : Expr) (type : Option TypeKind)

namespace Expr

def type : Expr → Option TypeKind
  | leaf o => o.type
  | bin _ _ _ t => t
  | nullcoal _ _ t => t
  | slice _ _ _ t => t
  | sliceFrom _ _ t => t

def lit : Expr → Lit
  | leaf o => o.lit
  | _ => .other

end Expr

/-! ## `emit_binop` -/

/-- what the cases of the operators ask for -/
structure Flags where
  numeric : Bool
  /-- `lf || rf` -/
  floats : Bool
  strings : Bool
  /-- `lt->kind == rt->kind` -/
  same : Bool
  /-- the node has the type string -/
  stringNode : Bool
  /-- the right operand is an integer literal that is not 0 -/
  nonzero : Bool

def isA (p : TypeKind → Bool) (t : Option TypeKind) : Bool := (t.map p).getD false

def flags (l r : Expr) (type : Option TypeKind) : Flags where
  numeric := isA TypeKind.isNumeric l.type && isA TypeKind.isNumeric r.type
  floats := isA TypeKind.isFloat l.type || isA TypeKind.isFloat r.type
  strings := decide (l.type = some .string) && decide (r.type = some .string)
  same := decide (l.type = r.type)
  stringNode := decide (type = some .string)
  nonzero :=
    match r.lit with
    | .int v => decide (v ≠ 0)
    | _ => false

/-- `fold_int_binop` -/
def foldIntBinop (op : TokKind) (a b : Int64) : Option Int64 :=
  match op with
  | .plus => some (a + b)
  | .minus => some (a - b)
  | .star => some (a * b)
  | .percent => if b = 0 then none else some (a % b)
  | .shl => if b < 0 ∨ 63 < b then none else some (a <<< b)
  | .shr => if b < 0 ∨ 63 < b then none else some (a >>> b)
  | .amp => some (a &&& b)
  | .pipe => some (a ||| b)
  | .caret => some (a ^^^ b)
  | _ => none

/-- the literal that is emitted for two literals -/
def folded (op : TokKind) (l r : Expr) (f : Flags) : Option Int64 :=
  if f.numeric && !f.floats then
    match l.lit, r.lit with
    | .int a, .int b => foldIntBinop op a b
    | _, _ => none
  else none

/-- `===` or `!==` of two that are not strings, and not numbers of one type: they are boxed -/
def boxed (op : TokKind) (f : Flags) : Bool :=
  (decide (op = .eq2) || decide (op = .neq2)) && (!(f.numeric && f.same) && !f.strings)

def concatShape : Shape := shape "hp_str_concat_v(hv(" "), hv(" "))"

/-- the comparisons, for doubles, for integers, and for boxed values -/
def compareShape (floats ints boxes : String) (f : Flags) : Shape :=
  if f.floats then shape floats "), (" "))"
  else if f.numeric then shape ints "), (" "))"
  else shape boxes "), hv(" "))"

/-- the `switch` over the operator -/
def format (op : TokKind) (f : Flags) : Shape :=
  match op with
  | .plus =>
    if f.numeric then shape "((" ") + (" "))"
    else if f.stringNode then shape "hp_add(hv(" "), hv(" ")).u.s"
    else shape "hp_add(hv(" "), hv(" "))"
  | .minus =>
    if f.numeric then shape "((" ") - (" "))" else shape "hpbi_scalar_sub(hv(" "), hv(" "))"
  | .star =>
    if f.numeric then shape "((" ") * (" "))" else shape "hpbi_scalar_mul(hv(" "), hv(" "))"
  | .shl => shape "(hp_val_to_int(hv(" ")) << hp_val_to_int(hv(" ")))"
  | .shr => shape "(hp_val_to_int(hv(" ")) >> hp_val_to_int(hv(" ")))"
  | .slash =>
    if f.numeric then
      if f.nonzero then shape "(((double)(" ")) / ((double)(" ")))" else shape "hp_div((" "), (" "))"
    else shape "hp_val_to_float(hp_divv(hv(" "), hv(" ")))"
  | .percent =>
    if f.numeric then shape "hp_mod_i(" ", " ")"
    else shape "hp_mod(hp_val_to_int(hv(" ")), hp_val_to_int(hv(" ")))"
  | .pow =>
    if f.numeric then shape "hp_pow_i((int64_t)(" "), (int64_t)(" "))"
    else shape "hp_powv(hv(" "), hv(" "))"
  | .dot => concatShape
  | .eq =>
    if f.numeric then shape "((" ") == (" "))"
    else if f.strings then shape "hp_str_eq(" ", " ")"
    else shape "hp_streq(hv(" "), hv(" "))"
  | .eq2 =>
    if f.strings then shape "hp_str_eq(" ", " ")"
    else if f.numeric && f.same then shape "((" ") == (" "))"
    else shape "hp_ident_eq(" ", " ")"
  | .neq =>
    if f.numeric then shape "((" ") != (" "))"
    else if f.strings then shape "(!hp_str_eq(" ", " "))"
    else shape "(!hp_streq(hv(" "), hv(" ")))"
  | .neq2 =>
    if !(f.numeric && f.same) && !f.strings then shape "(!hp_ident_eq(" ", " "))"
    else if f.numeric then shape "((" ") != (" "))"
    else if f.strings then shape "(!hp_str_eq(" ", " "))"
    else shape "(!hp_streq(hv(" "), hv(" ")))"
  | .lt => compareShape "hp_lt_f((" "hp_lt_i((" "hp_lt(hv(" f
  | .gt => compareShape "hp_gt_f((" "hp_gt_i((" "hp_gt(hv(" f
  | .le => compareShape "hp_le_f((" "hp_le_i((" "hp_le(hv(" f
  | .ge => compareShape "hp_ge_f((" "hp_ge_i((" "hp_ge(hv(" f
  | .spaceship => shape "hp_cmp(hv(" "), hv(" "))"
  | .andand => shape "((" ") && (" "))"
  | .oror => shape "((" ") || (" "))"
  | .amp => shape "((" ") & (" "))"
  | .pipe => shape "((" ") | (" "))"
  | .caret => shape "((" ") ^ (" "))"
  | _ => shape "hpbi_scalar_binop(hv(" "), hv(" "))"

/-- the conversions of a mixed operand, the inner one first -/
def converts (op : TokKind) (f : Flags) (t : Option TypeKind) : List Wrap :=
  if t = some .mixed then
    (if f.floats then [wrap "hp_val_to_float(hv(" "))"] else []) ++
      if op = .andand ∨ op = .oror then [wrap "hp_val_to_bool(hv(" "))"] else []
  else []

def convert (ws : List Wrap) (s : Bytes) : Bytes := ws.foldl (fun s w => printed (w.fill s)) s

def ofBool : Wrap := wrap "hp_of_bool(" ")"

def hv : Wrap := wrap "hv(" ")"

/-- `lw` and `rw`; `s` is the text of the operand, converted -/
def box (o : Lit) (s : Bytes) : Bytes :=
  match o with
  | .bool b => cut (ofBool.fill (boolText b))
  | _ => cut (hv.fill s)

/-- the operands are emitted already -/
def emitBinop (op : TokKind) (l r : Expr) (type : Option TypeKind) (ls rs : Bytes) : Bytes :=
  let f := flags l r type
  match folded op l r f with
  | some v => printed (ascii "(int64_t)" ++ hpStrFromInt v ++ ascii "LL")
  | none =>
    let ls := convert (converts op f l.type) ls
    let rs := convert (converts op f r.type) rs
    if boxed op f then printed ((format op f).fill (box l.lit ls) (box r.lit rs))
    else printed ((format op f).fill ls rs)

/-! ## the other forms -/

def printTree : Balanced.Tree Bytes → Bytes
  | .leaf s => s
  | .node a b => printed (concatShape.fill (printTree a) (printTree b))

/-- the calls of the parts, halved again and again -/
def emitDotChain (parts : List Bytes) : Bytes :=
  ((build (fun i => (parts[i]?).map Balanced.Tree.leaf) 0 parts.length).map printTree).getD []

/-- `to_hval` -/
def toHval (o : Lit) (t : Option TypeKind) : Wrap :=
  match o, t with
  | .bool _, _ => ofBool
  | .str, none => wrap "hp_of_str(" ")"
  | .int _, none => wrap "hp_of_int(" ")"
  | .float, none => wrap "hp_of_float(" ")"
  | _, none => hv
  | _, some .int | _, some .i8 | _, some .i16 | _, some .i32 | _, some .i64 =>
    wrap "hp_of_int(" ")"
  | _, some .float | _, some .f32 | _, some .f64 => wrap "hp_of_float(" ")"
  | _, some .bool => ofBool
  | _, some .string => wrap "hp_of_str(" ")"
  | _, some .array | _, some .vec | _, some .map | _, some .set => wrap "hp_of_arr(" ")"
  | _, some .fn => wrap "hp_of_clo(" ")"
  | _, some .cls | _, some .iface | _, some .struct | _, some .enum => wrap "hp_of_ptr(" ")"
  | _, some _ => hv

/-- `hp_str_slice` or `hp_arr_slice`: the format with three `%s` -/
def sliceName (t : Option TypeKind) : Bytes :=
  if t = some .string then ascii "hp_str_slice(" else ascii "hp_arr_slice("

def slice (t : Option TypeKind) (o lo hi : Bytes) : Bytes :=
  sliceName t ++ o ++ ascii ", " ++ lo ++ ascii ", " ++ hi ++ ascii ")"

def openEnd : Bytes := ascii "(int64_t)-1"

/-- `emit_expr`, with the texts of the operands of the `.` chain that it is -/
def emitParts : Expr → Bytes × List Bytes
  | .leaf o => (o.text, [o.text])
  | .bin op l r type =>
    let (ls, parts) := emitParts l
    let (rs, _) := emitParts r
    if op = .dot then
      let parts := parts ++ [rs]
      (if 3 < parts.length then emitDotChain parts else emitBinop op l r type ls rs, parts)
    else
      let s := emitBinop op l r type ls rs
      (s, [s])
  | .nullcoal l r _ =>
    let ls := printed ((toHval l.lit l.type).fill (emitParts l).1)
    let rs := printed ((toHval r.lit r.type).fill (emitParts r).1)
    let s := printed ((shape "hp_nullcoal(" ", " ")").fill ls rs)
    (s, [s])
  | .slice obj lo hi _ =>
    let s := printed (slice obj.type (emitParts obj).1 (emitParts lo).1 (emitParts hi).1)
    (s, [s])
  | .sliceFrom obj lo _ =>
    let s := printed (slice obj.type (emitParts obj).1 (emitParts lo).1 openEnd)
    (s, [s])

def emit (e : Expr) : Bytes := (emitParts e).1

/-! ## what the operators need -/

/-- the brackets of the emitted code -/
def lexis : Brackets.Lexis UInt8 where
  opens c := c = 40
  closes c := c = 41
  quote c := c = 34
  escape c := c = 92

def IsBalanced (s : Bytes) : Prop := Brackets.Balanced lexis s

instance (s : Bytes) : Decidable (IsBalanced s) :=
  inferInstanceAs (Decidable (Brackets.run lexis (.code, 0) s = some (.code, 0)))

/-- what stands in front of a text that is wrapped, the inner one first, and behind it -/
def opening (ws : List Wrap) : Bytes := (ws.reverse.map Wrap.pre).flatten

def closing (ws : List Wrap) : Bytes := (ws.map Wrap.post).flatten

def Shape.around (f : Shape) (l r : List Wrap) : Shape where
  pre := f.pre ++ opening l
  mid := closing l ++ f.mid ++ opening r
  post := closing r ++ f.post

def wraps (op : TokKind) (f : Flags) (e : Expr) : List Wrap :=
  if boxed op f then
    match e.lit with
    | .bool _ => [ofBool]
    | _ => converts op f e.type ++ [hv]
  else converts op f e.type

/-- the code around two operands -/
def needed (op : TokKind) (l r : Expr) (type : Option TypeKind) : Shape :=
  let f := flags l r type
  (format op f).around (wraps op f l) (wraps op f r)

def literal (v : Int64) : Bytes := ascii "(int64_t)" ++ hpStrFromInt v ++ ascii "LL"

/-- the calls of a chain -/
def render : Balanced.Tree Bytes → Bytes
  | .leaf s => s
  | .node a b => concatShape.fill (render a) (render b)

def isChain (op : TokKind) (l : Expr) : Bool :=
  decide (op = .dot) && decide (3 < (emitParts l).2.length + 1)

/-- **The text has all of the operands' texts**, where the operator needs them, and is balanced when
they are. -/
def Kept : Expr → Prop
  | .leaf _ => True
  | .bin op l r type =>
    if isChain op l then
      ∃ t : Balanced.Tree Bytes, t.leaves = (emitParts l).2 ++ [emit r] ∧
        emit (.bin op l r type) = render t ∧
        ((∀ s ∈ t.leaves, IsBalanced s) → IsBalanced (render t))
    else
      match folded op l r (flags l r type) with
      | some v => emit (.bin op l r type) = literal v ∧ IsBalanced (literal v)
      | none => emit (.bin op l r type) = (needed op l r type).fill (emit l) (emit r) ∧
          (IsBalanced (emit l) → IsBalanced (emit r) → IsBalanced (emit (.bin op l r type)))
  | .nullcoal l r type =>
    emit (.nullcoal l r type) = ((shape "hp_nullcoal(" ", " ")").around [toHval l.lit l.type]
        [toHval r.lit r.type]).fill (emit l) (emit r) ∧
      (IsBalanced (emit l) → IsBalanced (emit r) → IsBalanced (emit (.nullcoal l r type)))
  | .slice obj lo hi type =>
    emit (.slice obj lo hi type) = slice obj.type (emit obj) (emit lo) (emit hi) ∧
      (IsBalanced (emit obj) → IsBalanced (emit lo) → IsBalanced (emit hi) →
        IsBalanced (emit (.slice obj lo hi type)))
  | .sliceFrom obj lo type =>
    emit (.sliceFrom obj lo type) = slice obj.type (emit obj) (emit lo) openEnd ∧
      (IsBalanced (emit obj) → IsBalanced (emit lo) → IsBalanced (emit (.sliceFrom obj lo type)))

/-- the length of an operand that is boxed -/
def boxLength (op : TokKind) (f : Flags) (e : Expr) : Nat :=
  (opening (wraps op f e)).length + (emit e).length + (closing (wraps op f e)).length

/-- **The texts are short enough.** -/
def Fits : Expr → Prop
  | .leaf _ => True
  | .bin op l r type =>
    if isChain op l then
      (((emitParts l).2 ++ [emit r]).map List.length).sum + 27 * (emitParts l).2.length < 2 ^ 31
    else if (folded op l r (flags l r type)).isSome then True
    else
      ((needed op l r type).fill (emit l) (emit r)).length < 2 ^ 31 ∧
        (boxed op (flags l r type) = true →
          boxLength op (flags l r type) l ≤ 255 ∧ boxLength op (flags l r type) r ≤ 255)
  | .nullcoal l r _ =>
    (((shape "hp_nullcoal(" ", " ")").around [toHval l.lit l.type]
      [toHval r.lit r.type]).fill (emit l) (emit r)).length < 2 ^ 31
  | .slice obj lo hi _ => (slice obj.type (emit obj) (emit lo) (emit hi)).length < 2 ^ 31
  | .sliceFrom obj lo _ => (slice obj.type (emit obj) (emit lo) openEnd).length < 2 ^ 31

/-! ## printing -/

theorem printed_of_lt {s : Bytes} (h : s.length < 2 ^ 31) : printed s = s := if_pos h

theorem printed_lt (s : Bytes) : (printed s).length < 2 ^ 31 := by
  unfold printed
  split
  · next h => exact h
  · exact Nat.two_pow_pos 31

theorem printed_le (s : Bytes) : (printed s).length ≤ s.length := by
  unfold printed
  split
  · exact Nat.le_refl _
  · exact Nat.zero_le _

/-- a text is printed whole when it is short enough -/
theorem printed_eq_iff {s : Bytes} : printed s = s ↔ s.length < 2 ^ 31 :=
  ⟨fun h => h ▸ printed_lt s, printed_of_lt⟩

theorem Shape.fill_length (f : Shape) (a b : Bytes) : (f.fill a b).length =
    f.pre.length + a.length + f.mid.length + b.length + f.post.length := by
  simp only [Shape.fill, List.length_append]

theorem Wrap.fill_length (w : Wrap) (s : Bytes) :
    (w.fill s).length = w.pre.length + s.length + w.post.length := by
  simp only [Wrap.fill, List.length_append]

/-- a text in all its conversions -/
def whole (ws : List Wrap) (s : Bytes) : Bytes := ws.foldl (fun s w => w.fill s) s

theorem whole_eq (ws : List Wrap) (s : Bytes) : whole ws s = opening ws ++ s ++ closing ws := by
  induction ws generalizing s with
  | nil => exact (List.append_nil s).symm
  | cons w ws ih =>
    show whole ws (w.fill s) = _
    rw [ih]
    simp [opening, closing, Wrap.fill]

theorem whole_length (ws : List Wrap) (s : Bytes) :
    (whole ws s).length = (opening ws).length + s.length + (closing ws).length := by
  rw [whole_eq, List.length_append, List.length_append]

theorem around_fill (f : Shape) (l r : List Wrap) (a b : Bytes) :
    (f.around l r).fill a b = f.fill (whole l a) (whole r b) := by
  rw [whole_eq, whole_eq]
  simp [Shape.around, Shape.fill]

theorem convert_eq {ws : List Wrap} {s : Bytes} (h : (whole ws s).length < 2 ^ 31) :
    convert ws s = whole ws s := by
  induction ws generalizing s with
  | nil => rfl
  | cons w ws ih =>
    have hw : (whole ws (w.fill s)).length < 2 ^ 31 := h
    have hp : printed (w.fill s) = w.fill s := by
      have hl := whole_length ws (w.fill s)
      exact printed_of_lt (by omega)
    show convert ws (printed (w.fill s)) = whole ws (w.fill s)
    rw [hp, ih hw]

theorem convert_le (ws : List Wrap) (s : Bytes) : (convert ws s).length ≤ (whole ws s).length := by
  induction ws generalizing s with
  | nil => exact Nat.le_refl _
  | cons w ws ih =>
    show (convert ws (printed (w.fill s))).length ≤ (whole ws (w.fill s)).length
    have h1 := ih (printed (w.fill s))
    have h2 := printed_le (w.fill s)
    rw [whole_length] at h1 ⊢
    omega

/-! ## brackets -/

def code : Brackets.Mode × Nat → Option Nat
  | (.code, d) => some d
  | _ => none

/-- with balanced texts in its places -/
def Shape.good (f : Shape) : Bool :=
  match (Brackets.run lexis (.code, 0) f.pre).bind code with
  | none => false
  | some a =>
    match (Brackets.run lexis (.code, a) f.mid).bind code with
    | none => false
    | some b => decide (Brackets.run lexis (.code, b) f.post = some (.code, 0))

def Wrap.good (w : Wrap) : Bool := (Shape.mk [] w.pre w.post).good

theorem code_eq {st : Option (Brackets.Mode × Nat)} {d : Nat} (h : st.bind code = some d) :
    st = some (.code, d) := by
  obtain ⟨⟨m, e⟩, hst, hd⟩ := Option.bind_eq_some_iff.1 h
  cases m <;> cases hd
  exact hst

theorem Shape.frame {f : Shape} (h : f.good = true) :
    Brackets.Frame lexis f.pre f.mid f.post := by
  unfold Shape.good at h
  split at h
  · cases h
  · next a ha =>
    split at h
    · cases h
    · next b hb => exact ⟨a, b, code_eq ha, code_eq hb, of_decide_eq_true h⟩

theorem Shape.fill_balanced {f : Shape} (h : f.good = true) {a b : Bytes} (ha : IsBalanced a)
    (hb : IsBalanced b) : IsBalanced (f.fill a b) :=
  Brackets.Balanced.fill (Shape.frame h) ha hb

theorem Wrap.fill_balanced {w : Wrap} (h : w.good = true) {s : Bytes} (hs : IsBalanced s) :
    IsBalanced (w.fill s) := by
  have hf := Shape.fill_balanced h (show IsBalanced [] from rfl) hs
  exact hf

theorem whole_balanced {ws : List Wrap} (h : ∀ w ∈ ws, w.good = true) {s : Bytes}
    (hs : IsBalanced s) : IsBalanced (whole ws s) := by
  induction ws generalizing s with
  | nil => exact hs
  | cons w ws ih =>
    exact ih (fun v hv => h v (List.mem_cons_of_mem w hv))
      (Wrap.fill_balanced (h w List.mem_cons_self) hs)

theorem compareShape_good {floats ints boxes : String}
    (hf : (shape floats "), (" "))").good = true) (hi : (shape ints "), (" "))").good = true)
    (hb : (shape boxes "), hv(" "))").good = true) (f : Flags) :
    (compareShape floats ints boxes f).good = true := by
  unfold compareShape
  split_ifs
  · exact hf
  · exact hi
  · exact hb

theorem format_good (op : TokKind) (f : Flags) : (format op f).good = true := by
  unfold format
  split
  all_goals
    first
    | rfl
    | exact compareShape_good rfl rfl rfl f
    | (split_ifs <;> rfl)

theorem wraps_good (op : TokKind) (f : Flags) (e : Expr) : ∀ w ∈ wraps op f e, w.good = true := by
  have hconv : ∀ w ∈ converts op f e.type, w.good = true := by
    unfold converts
    intro w hw
    split_ifs at hw
    all_goals
      simp only [List.append_nil, List.nil_append, List.mem_append, List.mem_singleton,
        List.not_mem_nil] at hw
    · rcases hw with rfl | rfl <;> rfl
    · subst hw
      rfl
    · subst hw
      rfl
  unfold wraps
  intro w hw
  split at hw
  · split at hw
    · rw [List.mem_singleton.1 hw]
      rfl
    · rcases List.mem_append.1 hw with hw | hw
      · exact hconv w hw
      · rw [List.mem_singleton.1 hw]
        rfl
  · exact hconv w hw

theorem toHval_good (o : Lit) (t : Option TypeKind) : (toHval o t).good = true := by
  cases t with
  | none => cases o <;> rfl
  | some t => cases t <;> cases o <;> rfl

theorem literal_balanced (v : Int64) : IsBalanced (literal v) := by
  have hdigits : IsBalanced (hpStrFromInt v) := by
    apply Brackets.balanced_of_plain
    intro c hc
    have hall : c = 45 ∨ isDigit c = true := by
      rcases List.mem_append.1 hc with hc | hc
      · split at hc
        · exact .inl (List.mem_singleton.1 hc)
        · cases hc
      · exact .inr (HolyPhp.Std.decimal_digits _ c hc)
    have hplain : c ≠ 40 ∧ c ≠ 41 ∧ c ≠ 34 := by
      rcases hall with rfl | hd
      · decide
      · refine ⟨?_, ?_, ?_⟩ <;> rintro rfl <;> cases hd
    exact ⟨decide_eq_false hplain.1, decide_eq_false hplain.2.1, decide_eq_false hplain.2.2⟩
  exact Brackets.Balanced.append (Brackets.Balanced.append rfl hdigits) rfl

theorem literal_length (v : Int64) : (literal v).length < 2 ^ 31 := by
  have hdigits : (Nat.toDigits 10 v.toInt.natAbs).length ≤ 20 := by
    refine (Nat.length_toDigits_le_iff (by decide) (by decide)).2 ?_
    have h1 := v.le_toInt
    have h2 := v.toInt_lt
    omega
  have hsign : ∀ b : Prop, [Decidable b] → (if b then [45] else [] : Bytes).length ≤ 1 := by
    intro b _
    split <;> decide
  have hs := hsign (v.toInt < 0)
  have h9 : (ascii "(int64_t)").length = 9 := rfl
  have h2 : (ascii "LL").length = 2 := rfl
  rw [literal, List.length_append, List.length_append, hpStrFromInt, List.length_append,
    List.length_map, h9, h2]
  omega

/-! ## one operator -/

theorem lit_bool {e : Expr} {b : Bool} (h : e.lit = .bool b) : emit e = boolText b := by
  cases e with
  | leaf o => exact o.bool_text b h
  | bin _ _ _ _ => cases h
  | nullcoal _ _ _ => cases h
  | slice _ _ _ _ => cases h
  | sliceFrom _ _ _ => cases h

/-- what is put in a buffer of 256 bytes -/
theorem box_eq {op : TokKind} {f : Flags} {e : Expr} (hb : boxed op f = true)
    (hlt : (whole (wraps op f e) (emit e)).length < 2 ^ 31) :
    box e.lit (convert (converts op f e.type) (emit e)) = cut (whole (wraps op f e) (emit e)) := by
  have hother : (∀ b, e.lit ≠ .bool b) → wraps op f e = converts op f e.type ++ [hv] ∧
      box e.lit (convert (converts op f e.type) (emit e)) =
        cut (hv.fill (convert (converts op f e.type) (emit e))) := by
    intro hne
    unfold box
    rw [wraps, if_pos hb]
    cases hl : e.lit with
    | bool b => exact absurd hl (hne b)
    | _ => exact ⟨rfl, rfl⟩
  by_cases hl : ∃ b, e.lit = .bool b
  · obtain ⟨b, hl⟩ := hl
    rw [wraps, if_pos hb, hl, lit_bool hl]
    rfl
  · obtain ⟨hw, hbox⟩ := hother fun b h => hl ⟨b, h⟩
    have hwhole : whole (converts op f e.type ++ [hv]) (emit e) =
        hv.fill (whole (converts op f e.type) (emit e)) := by
      rw [whole, List.foldl_append]
      rfl
    rw [hw, hwhole, Wrap.fill_length] at hlt
    rw [hbox, hw, hwhole, convert_eq (by omega)]

theorem cut_eq_iff {s : Bytes} : cut s = s ↔ s.length ≤ 255 := List.take_eq_self_iff s

theorem cut_le (s : Bytes) : (cut s).length ≤ s.length ∧ (cut s).length ≤ 255 :=
  ⟨List.length_take_le' _ _, List.length_take_le _ _⟩

/-- **An operator that is not folded.** -/
theorem emitBinop_iff {op : TokKind} {l r : Expr} {type : Option TypeKind}
    (hf : folded op l r (flags l r type) = none) :
    emitBinop op l r type (emit l) (emit r) = (needed op l r type).fill (emit l) (emit r) ↔
      ((needed op l r type).fill (emit l) (emit r)).length < 2 ^ 31 ∧
        (boxed op (flags l r type) = true →
          boxLength op (flags l r type) l ≤ 255 ∧ boxLength op (flags l r type) r ≤ 255) := by
  have hneed : (needed op l r type).fill (emit l) (emit r) =
      (format op (flags l r type)).fill (whole (wraps op (flags l r type) l) (emit l))
        (whole (wraps op (flags l r type) r) (emit r)) := around_fill _ _ _ _ _
  have hl : boxLength op (flags l r type) l =
      (whole (wraps op (flags l r type) l) (emit l)).length := (whole_length _ _).symm
  have hr : boxLength op (flags l r type) r =
      (whole (wraps op (flags l r type) r) (emit r)).length := (whole_length _ _).symm
  unfold emitBinop
  simp only [hf]
  rw [hneed, hl, hr]
  generalize flags l r type = f at *
  by_cases hlen : ((format op f).fill (whole (wraps op f l) (emit l))
      (whole (wraps op f r) (emit r))).length < 2 ^ 31
  swap
  · -- what is printed is shorter
    refine iff_of_false (fun h => hlen ?_) fun h => hlen h.1
    rw [← h]
    split
    · exact printed_lt _
    · exact printed_lt _
  rw [Shape.fill_length] at hlen
  cases hb : boxed op f with
  | false =>
    have hw : ∀ e, wraps op f e = converts op f e.type := fun e =>
      if_neg (by rw [hb]; exact Bool.false_ne_true)
    rw [if_neg Bool.false_ne_true, hw, hw] at *
    rw [convert_eq (by omega), convert_eq (by omega), printed_eq_iff, Shape.fill_length]
    exact ⟨fun h => ⟨h, fun h' => absurd h' Bool.false_ne_true⟩, And.left⟩
  | true =>
    rw [if_pos rfl, box_eq hb (by omega), box_eq hb (by omega)]
    have hcl := cut_le (whole (wraps op f l) (emit l))
    have hcr := cut_le (whole (wraps op f r) (emit r))
    rw [printed_of_lt (by rw [Shape.fill_length]; omega)]
    constructor
    · intro h
      have h := congrArg List.length h
      rw [Shape.fill_length, Shape.fill_length] at h
      rw [Shape.fill_length]
      exact ⟨hlen, fun _ => by omega⟩
    · intro h
      obtain ⟨h1, h2⟩ := h.2 rfl
      rw [cut_eq_iff.2 h1, cut_eq_iff.2 h2]

theorem needed_balanced (op : TokKind) (l r : Expr) (type : Option TypeKind) {a b : Bytes}
    (ha : IsBalanced a) (hb : IsBalanced b) : IsBalanced ((needed op l r type).fill a b) := by
  rw [needed, around_fill]
  exact Shape.fill_balanced (format_good _ _) (whole_balanced (wraps_good _ _ _) ha)
    (whole_balanced (wraps_good _ _ _) hb)

/-! ## chains -/

theorem render_length (t : Balanced.Tree Bytes) :
    (render t).length + 27 = (t.leaves.map List.length).sum + 27 * t.leaves.length := by
  induction t with
  | leaf s => simp [render, Balanced.Tree.leaves]
  | node a b iha ihb =>
    have hfill : (concatShape.fill (render a) (render b)).length =
        19 + (render a).length + 6 + (render b).length + 2 := Shape.fill_length _ _ _
    rw [render, Balanced.Tree.leaves, List.map_append, List.sum_append, List.length_append, hfill]
    omega

theorem printTree_le (t : Balanced.Tree Bytes) : (printTree t).length ≤ (render t).length := by
  induction t with
  | leaf s => exact Nat.le_refl _
  | node a b iha ihb =>
    refine Nat.le_trans (printed_le _) ?_
    rw [render, Shape.fill_length, Shape.fill_length]
    omega

theorem printTree_eq {t : Balanced.Tree Bytes} (h : (render t).length < 2 ^ 31) : printTree t = render t := by
  induction t with
  | leaf s => rfl
  | node a b iha ihb =>
    rw [render, Shape.fill_length] at h
    rw [printTree, render, iha (by omega), ihb (by omega)]
    apply printed_of_lt
    rw [Shape.fill_length]
    omega

theorem render_balanced {t : Balanced.Tree Bytes} (h : ∀ s ∈ t.leaves, IsBalanced s) :
    IsBalanced (render t) := by
  induction t with
  | leaf s => exact h s (List.mem_singleton.2 rfl)
  | node a b iha ihb =>
    exact Shape.fill_balanced (f := concatShape) rfl
      (iha fun s hs => h s (List.mem_append_left _ hs))
      (ihb fun s hs => h s (List.mem_append_right _ hs))

/-- the parts are the leaves of the calls -/
theorem emitDotChain_tree {parts : List Bytes} (h : 4 ≤ parts.length) :
    ∃ a b : Balanced.Tree Bytes, (Balanced.Tree.node a b).leaves = parts ∧
      emitDotChain parts = printTree (.node a b) := by
  have hf : ∀ i, 0 ≤ i → i < parts.length →
      (parts[i]?).map Balanced.Tree.leaf = some (Balanced.Tree.leaf (parts.getD i [])) := by
    intro i _ hi
    rw [List.getElem?_eq_getElem hi, List.getD_eq_getElem _ _ hi]
    rfl
  obtain ⟨t, ht, hl, -⟩ := @Balanced.build_spec _ (fun i => (parts[i]?).map Balanced.Tree.leaf)
    (fun i => Balanced.Tree.leaf (parts.getD i [])) 0 parts.length (by omega) hf
  have hleaves : t.leaves = parts := by
    have hmap : Balanced.between (fun i => Balanced.Tree.leaf (parts.getD i [])) 0 (parts.length - 0) =
        (List.range parts.length).map fun i => parts.getD i [] := by
      rw [Balanced.between, Nat.sub_zero, ← List.range_eq_range']
      exact List.map_eq_flatMap.symm
    rw [hl, hmap]
    apply List.ext_getElem
    · rw [List.length_map, List.length_range]
    · intro i h1 h2
      rw [List.getElem_map, List.getElem_range, List.getD_eq_getElem _ _ h2]
  cases t with
  | leaf s =>
    rw [← hleaves] at h
    have h1 : (Balanced.Tree.leaf s).leaves.length = 1 := rfl
    omega
  | node a b =>
    refine ⟨a, b, hleaves, ?_⟩
    rw [emitDotChain, ht]
    rfl

/-- **A long chain.** -/
theorem emitDotChain_iff {parts : List Bytes} (h : 4 ≤ parts.length) :
    (∃ t : Balanced.Tree Bytes, t.leaves = parts ∧ emitDotChain parts = render t) ↔
      (parts.map List.length).sum + 27 * (parts.length - 1) < 2 ^ 31 := by
  obtain ⟨a, b, hl, hp⟩ := emitDotChain_tree h
  constructor
  · rintro ⟨t, ht, he⟩
    have hlen := render_length t
    have hlt : (printTree (.node a b)).length < 2 ^ 31 := printed_lt _
    rw [← he, hp, ht] at hlen
    omega
  · intro hlt
    have hlen := render_length (.node a b)
    rw [hl] at hlen
    exact ⟨.node a b, hl, by rw [hp, printTree_eq (by omega)]⟩

/-! ## all forms -/

theorem emitParts_bin (op : TokKind) (l r : Expr) (type : Option TypeKind) :
    emit (.bin op l r type) =
      if isChain op l then emitDotChain ((emitParts l).2 ++ [emit r])
      else emitBinop op l r type (emit l) (emit r) := by
  unfold isChain emit
  rw [emitParts]
  by_cases hop : op = .dot
  · subst hop
    simp only [if_pos, decide_true, Bool.true_and, decide_eq_true_eq, List.length_append,
      List.length_singleton]
  · simp only [if_neg hop, decide_eq_false hop, Bool.false_and]
    rw [if_neg Bool.false_ne_true]

theorem slice_length (t : Option TypeKind) (o lo hi : Bytes) : (slice t o lo hi).length =
    13 + o.length + 2 + lo.length + 2 + hi.length + 1 := by
  have hname : (sliceName t).length = 13 := by
    unfold sliceName
    split <;> rfl
  have h2 : (ascii ", ").length = 2 := rfl
  have h1 : (ascii ")").length = 1 := rfl
  simp only [slice, List.length_append, hname, h2, h1]

theorem slice_balanced (t : Option TypeKind) {o lo hi : Bytes} (ho : IsBalanced o)
    (hlo : IsBalanced lo) (hhi : IsBalanced hi) : IsBalanced (slice t o lo hi) := by
  have hname : Brackets.run lexis (.code, 0) (sliceName t) = some (.code, 1) := by
    unfold sliceName
    split <;> rfl
  have hcomma : IsBalanced (ascii ", ") := rfl
  have hbody : IsBalanced (o ++ ascii ", " ++ lo ++ ascii ", " ++ hi) :=
    (((ho.append hcomma).append hlo).append hcomma).append hhi
  have hclose : Brackets.run lexis (.code, 1) (ascii ")") = some (.code, 0) := rfl
  have hall : IsBalanced _ := Brackets.Balanced.wrap hname hclose hbody
  simpa only [slice, List.append_assoc] using hall

/-- a text that is printed, of a form that keeps brackets balanced -/
theorem kept_iff {s t : Bytes} {p : Prop} (h : s = printed t) (hp : s = t → p) :
    (s = t ∧ p) ↔ t.length < 2 ^ 31 := by
  rw [← printed_eq_iff, ← h]
  exact ⟨And.left, fun hs => ⟨hs, hp hs⟩⟩

theorem nullcoal_eq_iff (l r : Expr) (type : Option TypeKind) :
    emit (.nullcoal l r type) = ((shape "hp_nullcoal(" ", " ")").around [toHval l.lit l.type]
        [toHval r.lit r.type]).fill (emit l) (emit r) ↔
      (((shape "hp_nullcoal(" ", " ")").around [toHval l.lit l.type]
        [toHval r.lit r.type]).fill (emit l) (emit r)).length < 2 ^ 31 := by
  generalize hL : toHval l.lit l.type = L
  generalize hR : toHval r.lit r.type = R
  have hemit : emit (.nullcoal l r type) = printed ((shape "hp_nullcoal(" ", " ")").fill
      (printed (L.fill (emit l))) (printed (R.fill (emit r)))) := by
    rw [← hL, ← hR]
    rfl
  have hfill : ((shape "hp_nullcoal(" ", " ")").around [L] [R]).fill (emit l) (emit r) =
      (shape "hp_nullcoal(" ", " ")").fill (L.fill (emit l)) (R.fill (emit r)) :=
    around_fill _ _ _ _ _
  rw [hemit, hfill]
  constructor
  · intro h
    rw [← h]
    exact printed_lt _
  · intro h
    have hlen := h
    rw [Shape.fill_length] at hlen
    rw [printed_of_lt (s := L.fill (emit l)) (by omega),
      printed_of_lt (s := R.fill (emit r)) (by omega), printed_of_lt h]

/-- **Operands are kept** where the texts are short enough, and only there. -/
theorem operands_iff (e : Expr) : Kept e ↔ Fits e := by
  cases e with
  | leaf o => exact Iff.rfl
  | bin op l r type =>
    rw [Kept, Fits]
    by_cases hchain : isChain op l = true
    · rw [if_pos hchain, if_pos hchain, emitParts_bin, if_pos hchain]
      have h3 : 3 < (emitParts l).2.length + 1 := by
        unfold isChain at hchain
        exact of_decide_eq_true (Bool.and_eq_true _ _ ▸ hchain).2
      have hlen : 4 ≤ ((emitParts l).2 ++ [emit r]).length := by
        rw [List.length_append, List.length_singleton]
        exact h3
      have h := emitDotChain_iff hlen
      rw [List.length_append, List.length_singleton, Nat.add_sub_cancel] at h
      rw [← h]
      constructor
      · rintro ⟨t, ht, he, -⟩
        exact ⟨t, ht, he⟩
      · rintro ⟨t, ht, he⟩
        exact ⟨t, ht, he, render_balanced⟩
    · rw [if_neg hchain, if_neg hchain, emitParts_bin, if_neg hchain]
      cases hf : folded op l r (flags l r type) with
      | some v =>
        have hemit : emitBinop op l r type (emit l) (emit r) = literal v := by
          unfold emitBinop
          simp only [hf]
          exact printed_of_lt (literal_length v)
        exact ⟨fun _ => trivial, fun _ => ⟨hemit, literal_balanced v⟩⟩
      | none =>
        rw [if_neg (show ¬(none : Option Int64).isSome = true from Bool.false_ne_true),
          ← emitBinop_iff hf]
        refine ⟨And.left, fun h => ⟨h, fun hl hr => ?_⟩⟩
        rw [h]
        exact needed_balanced op l r type hl hr
  | nullcoal l r type =>
    rw [Kept, Fits, ← nullcoal_eq_iff l r type]
    refine ⟨And.left, fun h => ⟨h, fun hl hr => ?_⟩⟩
    rw [h, around_fill]
    exact Shape.fill_balanced (f := shape "hp_nullcoal(" ", " ")") rfl
      (Wrap.fill_balanced (toHval_good _ _) hl) (Wrap.fill_balanced (toHval_good _ _) hr)
  | slice obj lo hi type =>
    refine kept_iff rfl fun h hobj hlo hhi => ?_
    rw [h]
    exact slice_balanced obj.type hobj hlo hhi
  | sliceFrom obj lo type =>
    refine kept_iff rfl fun h hobj hlo => ?_
    rw [h]
    exact slice_balanced obj.type hobj hlo rfl

/-- the text of a variable of the type mixed -/
def mixedLeaf (s : Bytes) : Expr :=
  .leaf { lit := .other, type := some .mixed, text := s, bool_text := fun _ h => nomatch h }

/-- a literal of 240 letters -/
def longText : Bytes := ascii "hp_str_lit(\"" ++ List.replicate 240 97 ++ ascii "\")"

/-- `$a === "aa…"` -/
def longIdentity : Expr := .bin .eq2 (mixedLeaf (ascii "v1")) (mixedLeaf longText) (some .bool)

/-- The end of the literal is lost, with its quote and two brackets. -/
theorem identity_cut : ¬Kept longIdentity ∧ ¬IsBalanced (emit longIdentity) ∧
    IsBalanced (ascii "v1") ∧ IsBalanced longText := by
  refine ⟨fun h => ?_, by decide +kernel, rfl, by decide +kernel⟩
  have hk : emit longIdentity = (needed .eq2 (mixedLeaf (ascii "v1")) (mixedLeaf longText)
      (some .bool)).fill (ascii "v1") longText := h.1
  have hlen := congrArg List.length hk
  revert hlen
  decide +kernel

end Binop
end HolyPhp
