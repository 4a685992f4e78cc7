import HolyPhp.Runtime.Arr
import HolyPhp.Runtime.Str

/-!
# `hpbi_json_decode`

The cursor `JsonP` is the bytes from `pos` on.  The heap of arrays grows at its end: an array goes
in when its brackets close.  Strings are taken by their bytes.

* `jpWs`, `jpString`, `jpNumber`   the scanners: what was read, and the bytes left;
* `jpValue`, `jpMembers`, `jpElems`   the recursion, by fuel: `none` means that it does not return;
* `hpIdentEq`   the comparison `===`.
-/

set_option linter.unusedVariables false

namespace HolyPhp
namespace Std
open Arr Str

abbrev Heap := List Harr

theorem getElem?_append {h : Heap} {p : Nat} {a : Harr} (hp : h[p]? = some a) (new : Heap) :
    (h ++ new)[p]? = some a := by
  rw [List.getElem?_append_left (List.getElem?_eq_some_iff.mp hp).1, hp]

/-! ## scanners -/

def jpWs : Bytes → Bytes
  | [] => []
  | c :: cs => if c = 32 ∨ c = 9 ∨ c = 10 ∨ c = 13 then jpWs cs else c :: cs

/-- `if (p[pos] == c) pos++` -/
def skip (c : UInt8) : Bytes → Bytes
  | [] => []
  | d :: cs => if d = c then cs else d :: cs

/-- a digit of `\u`; any other byte counts as if it were a capital letter -/
def hexDigit (h : UInt8) : UInt32 :=
  if 48 ≤ h ∧ h ≤ 57 then h.toUInt32 - 48
  else if 97 ≤ h ∧ h ≤ 102 then h.toUInt32 - 97 + 10
  else UInt32.ofInt (h.toInt8.toInt - 65 + 10)

def hexCode (a b c d : UInt8) : UInt32 :=
  ((hexDigit a * 16 + hexDigit b) * 16 + hexDigit c) * 16 + hexDigit d

/-- the bytes of a code point below `0x10000` -/
def utf8 (cp : UInt32) : Bytes :=
  if cp < 0x80 then [cp.toUInt8]
  else if cp < 0x800 then [(cp >>> 6 ||| 0xC0).toUInt8, (cp &&& 63 ||| 0x80).toUInt8]
  else [(cp >>> 12 ||| 0xE0).toUInt8, (cp >>> 6 &&& 63 ||| 0x80).toUInt8,
    (cp &&& 63 ||| 0x80).toUInt8]

/-- the `switch (e)` other than `u` -/
def unescape (e : UInt8) : UInt8 :=
  if e = 110 then 10
  else if e = 116 then 9
  else if e = 114 then 13
  else if e = 98 then 8
  else if e = 102 then 12
  else e

/-- the loop of `jp_string` and the closing quote: the bytes of `b`, and the bytes left -/
def jpChars : Bytes → Bytes × Bytes
  | [] => ([], [])
  | 34 :: cs => ([], cs)
  | [92] => ([92], [])
  | 92 :: 117 :: a :: b :: c :: d :: cs =>
    (utf8 (hexCode a b c d) ++ (jpChars cs).1, (jpChars cs).2)
  -- fewer than four bytes behind the `u`
  | 92 :: 117 :: cs => jpChars cs
  | 92 :: e :: cs => (unescape e :: (jpChars cs).1, (jpChars cs).2)
  | c :: cs => (c :: (jpChars cs).1, (jpChars cs).2)

def jpString : Bytes → Bytes × Bytes
  | 34 :: cs => jpChars cs
  | s => ([], s)

def isFloatMark (d : UInt8) : Bool := d == 46 || d == 101 || d == 69

def isNumByte (d : UInt8) : Bool := isFloatMark d || isDigit d || d == 45 || d == 43

section
variable (strtod : Bytes → Double)

def jpNumber (s : Bytes) : Val × Bytes :=
  let t := s.takeWhile isNumByte
  -- garbage: skip
  if t = [] then (.null, s.drop 1)
  else
    let tmp := t.take 63
    (if t.any isFloatMark then .float (strtod tmp) else .int (strtoll tmp), s.dropWhile isNumByte)

/-! ## values -/

variable (junk : Nat → Val)

mutual

def jpValue : Nat → Heap → Bytes → Option (Val × Heap × Bytes)
  | 0, _, _ => none
  | fuel + 1, h, s =>
    match jpWs s with
    | [] => some (.null, h, [])
    | 123 :: cs =>
      match jpWs cs with
      | 125 :: cs => some (.arr (some h.length), h ++ [emptyMap junk], cs)
      | cs => jpMembers fuel h (emptyMap junk) cs
    | 91 :: cs =>
      match jpWs cs with
      | 93 :: cs => some (.arr (some h.length), h ++ [hpArrNew junk], cs)
      | cs => jpElems fuel h (hpArrNew junk) cs
    | 34 :: cs => some (.str (some (jpString (34 :: cs)).1), h, (jpString (34 :: cs)).2)
    | 116 :: 114 :: 117 :: 101 :: cs => some (.bool true, h, cs)
    | 102 :: 97 :: 108 :: 115 :: 101 :: cs => some (.bool false, h, cs)
    | 110 :: 117 :: 108 :: 108 :: cs => some (.null, h, cs)
    | cs => some ((jpNumber strtod cs).1, h, (jpNumber strtod cs).2)

/-- the loop behind `{` -/
def jpMembers : Nat → Heap → Harr → Bytes → Option (Val × Heap × Bytes)
  | 0, _, _, _ => none
  | fuel + 1, h, m, s =>
    let (k, s) := jpString (jpWs s)
    (jpValue fuel h (skip 58 (jpWs s))).bind fun (v, h, s) =>
      (hpArrSet m (.str (some k)) v).bind fun m =>
        match jpWs s with
        | 44 :: cs => jpMembers fuel h m cs
        | cs => some (.arr (some h.length), h ++ [m], skip 125 cs)

/-- the loop behind `[` -/
def jpElems : Nat → Heap → Harr → Bytes → Option (Val × Heap × Bytes)
  | 0, _, _, _ => none
  | fuel + 1, h, a, s =>
    (jpValue fuel h s).bind fun (v, h, s) =>
      match jpWs s with
      | 44 :: cs => jpElems fuel h (hpArrPush a v) cs
      | cs => some (.arr (some h.length), h ++ [hpArrPush a v], skip 93 cs)

end

/-- `fromDouble` is what `snprintf` makes of a `double` -/
def hpValToStr (fromDouble : Double → Bytes) : Val → Bytes
  | .null => []
  | .int i => hpStrFromInt i
  | .float f => fromDouble f
  | .bool b => if b then text "1" else []
  | .str (some s) => s
  | .str none => []
  | .arr _ => text "Array"
  | .obj _ => text "Object"
  | .clo _ => text "Closure"

def hpbiJsonDecode (fromDouble : Double → Bytes) (fuel : Nat) (h : Heap) (s : Val) :
    Option (Val × Heap × Bytes) :=
  jpValue strtod junk fuel h (hpValToStr fromDouble s)

end

/-! ## `===` -/

def Double.isNaN (d : Double) : Bool := 0x7FF0000000000000 < (d.bits &&& 0x7FFFFFFFFFFFFFFF)

/-- `==` on doubles -/
def Double.eq (a b : Double) : Bool :=
  !Double.isNaN a && !Double.isNaN b && (a.bits == b.bits || (a.bits ||| b.bits) <<< 1 == 0)

/-- `hp_ident_eq_r`; `room` is 65 minus the depth, and `none` means a fault -/
def hpIdentEqR (h : Heap) : Nat → Val → Val → Option Bool
  | room, .arr p, .arr q =>
    if p = q then some true
    else match p, q with
      | some p, some q => h[p]?.bind fun a => h[q]?.bind fun b =>
        if a.len ≠ b.len ∨ a.isMap ≠ b.isMap then some false
        else match room with
          | 0 => some false
          | room + 1 => (List.range a.len).foldlM (fun ok i =>
            if ¬ ok ∨ a.keyed ≠ b.keyed then some false
            else if a.keyed then
              (hpIdentEqR h room (a.key i) (b.key i)).bind fun ok =>
                if ok then hpIdentEqR h room (a.vals i) (b.vals i) else some false
            else hpIdentEqR h room (a.vals i) (b.vals i)) true
      | _, _ => some false
  | _, .null, .null => some true
  | _, .bool a, .bool b => some (a == b)
  | _, .int a, .int b => some (a == b)
  | _, .float a, .float b => some (Double.eq a b)
  | _, .str a, .str b => some (a == b)
  | _, .obj a, .obj b => some (a == b)
  | _, .clo a, .clo b => some (a == b)
  | _, _, _ => some false

def hpIdentEq (h : Heap) (a b : Val) : Option Bool := hpIdentEqR h 65 a b

end Std
end HolyPhp
