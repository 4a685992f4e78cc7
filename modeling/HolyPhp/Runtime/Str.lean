import Mathlib.Data.List.Basic
import HolyPhp.Runtime.Value

/-!
# Strings on the heap: `hp_str_concat2`, `hp_str_concat_v`, `hp_val_to_str`

An `hstr` is found at an address (its place in `Heap.objs`; nothing is ever freed), and a value
`.str (some p)` refers to it, so that two names can share one string.

* `Heap.lit`         `hp_str_lit`: a new string;
* `hpValToStr`       the string of a value, which for a string value is the SAME `hstr`;
* `hpStrConcat2`     in place when `Hstr.hasRoom`, else into a new string;
* `hpStrConcatV`     the operator `.` on two values.

`concat_spec` says exactly when a concatenation leaves all other strings alone.  A string and a
heap carry what makes the accesses valid: a string has room for its NUL, the static string of
`hp_null_str` is empty and has no room.
-/

set_option linter.unusedVariables false

namespace HolyPhp
namespace Str

structure Hstr where
  bytes : Bytes
  cap : Nat
  /-- 0 when not computed -/
  hash : UInt32
  rc : UInt32
  len_lt : bytes.length < cap

structure Heap where
  objs : List Hstr
  /-- the static variable of `hp_null_str` -/
  nullStr : Option Addr
  null_ok : ∀ p, nullStr = some p → ∃ s, objs[p]? = some s ∧ s.bytes = [] ∧ s.cap = 1

/-- `hp_str_new` -/
def hpStrNew (bytes : Bytes) : Hstr where
  bytes := bytes
  cap := bytes.length + 1
  hash := 0
  rc := 1
  len_lt := Nat.lt_succ_self _

/-- unique owner, spare capacity, room for `n` more bytes -/
def Hstr.hasRoom (s : Hstr) (n : Nat) : Prop :=
  s.rc = 1 ∧ s.bytes.length < s.cap ∧ s.bytes.length + n < s.cap

instance (s : Hstr) (n : Nat) : Decidable (s.hasRoom n) := inferInstanceAs (Decidable (_ ∧ _ ∧ _))

/-- `memcpy` to the end, `hash = 0`; nothing where there is no room -/
def Hstr.push (s : Hstr) (bs : Bytes) : Hstr :=
  if h : s.bytes.length + bs.length < s.cap then
    { s with
      bytes := s.bytes ++ bs
      hash := 0
      len_lt := by rwa [List.length_append] }
  else s

theorem Hstr.push_cap (s : Hstr) (bs : Bytes) : (s.push bs).cap = s.cap := by
  unfold Hstr.push
  split <;> rfl

/-- a string without room stays empty -/
theorem Hstr.push_empty {s : Hstr} (hb : s.bytes = []) (hc : s.cap = 1) (bs : Bytes) :
    (s.push bs).bytes = [] := by
  have hlt := (s.push bs).len_lt
  rw [Hstr.push_cap, hc, Nat.lt_one_iff] at hlt
  exact List.length_eq_zero_iff.mp hlt

theorem Hstr.push_of_room {s : Hstr} {bs : Bytes} (h : s.hasRoom bs.length) :
    (s.push bs).bytes = s.bytes ++ bs ∧ (s.push bs).hash = 0 := by
  unfold Hstr.push
  rw [dif_pos h.2.2]
  exact ⟨rfl, rfl⟩

/-- the new string of a concatenation; it has spare capacity when `a` had one owner -/
def Hstr.join (a b : Hstr) : Hstr where
  bytes := a.bytes ++ b.bytes
  cap :=
    if a.rc = 1 then (a.bytes.length + b.bytes.length) * 2 + 16
    else a.bytes.length + b.bytes.length + 1
  hash := 0
  rc := 1
  len_lt := by
    rw [List.length_append]
    split <;> omega

namespace Heap

def get (h : Heap) (p : Addr) : Option Hstr := h.objs[p]?

def alloc (h : Heap) (s : Hstr) : Heap × Addr :=
  ({ h with
    objs := h.objs ++ [s]
    null_ok := fun p hp => by
      obtain ⟨t, ht, h0⟩ := h.null_ok p hp
      obtain ⟨hlt, -⟩ := List.getElem?_eq_some_iff.mp ht
      exact ⟨t, by rw [List.getElem?_append_left hlt]; exact ht, h0⟩ }, h.objs.length)

/-- append in place to the string at `p` -/
def append (h : Heap) (p : Addr) (bs : Bytes) : Heap :=
  { h with
    objs := h.objs.modify p (·.push bs)
    null_ok := fun q hq => by
      obtain ⟨t, ht, hb, hc⟩ := h.null_ok q hq
      by_cases e : p = q
      · refine ⟨t.push bs, ?_, Hstr.push_empty hb hc bs, (t.push_cap bs).trans hc⟩
        rw [e, List.getElem?_modify_eq, ht]
        rfl
      · exact ⟨t, (List.getElem?_modify_ne _ _ e).trans ht, hb, hc⟩ }

/-- `hp_str_lit` -/
def lit (h : Heap) (bytes : Bytes) : Heap × Addr := h.alloc (hpStrNew bytes)

/-- `if (!a) a = hp_str_lit("")` -/
def orEmpty (h : Heap) : Option Addr → Heap × Addr
  | some p => (h, p)
  | none => h.lit []

/-- `hp_null_str` -/
def hpNullStr (h : Heap) : Heap × Addr :=
  match h.nullStr with
  | some p => (h, p)
  | none =>
    ({ (h.lit []).1 with
      nullStr := some h.objs.length
      null_ok := fun p hp => ⟨hpStrNew [], by
        rw [← Option.some.inj hp]
        exact List.getElem?_concat_length, rfl, rfl⟩ }, h.objs.length)

/-- the body of `hp_str_concat2`; an address that is not in the heap is a fault -/
def concat (h : Heap) (a b : Addr) : Option (Heap × Addr) :=
  match h.get a, h.get b with
  | some s, some t =>
    if s.hasRoom t.bytes.length then some (h.append a t.bytes, a) else some (h.alloc (s.join t))
  | _, _ => none

end Heap

def hpStrConcat2 (h : Heap) (a b : Option Addr) : Option (Heap × Addr) :=
  let (h, a) := h.orEmpty a
  let (h, b) := h.orEmpty b
  h.concat a b

/-- ASCII text -/
def text (s : String) : Bytes := s.toList.map fun c => c.toNat.toUInt8

/-- `"%lld"` -/
def hpStrFromInt (i : Int64) : Bytes :=
  (if i.toInt < 0 then [45] else []) ++
    (Nat.toDigits 10 i.toInt.natAbs).map fun c => c.toNat.toUInt8

section
variable (fromDouble : Double → Bytes)

/-- `fromDouble` is what `snprintf` makes of a `double` -/
def hpValToStr (h : Heap) : HVal Addr → Heap × Addr
  | .null => h.lit []
  | .int i => h.lit (hpStrFromInt i)
  | .float f => h.lit (fromDouble f)
  | .bool b => h.lit (if b then text "1" else [])
  | .str (some p) => (h, p)
  | .str none => h.hpNullStr
  | .arr _ => h.lit (text "Array")
  | .obj _ => h.lit (text "Object")
  | .clo _ => h.lit (text "Closure")

def hpStrConcatV (h : Heap) (a b : HVal Addr) : Option (Heap × Addr) :=
  let (h, l) := hpValToStr fromDouble h a
  let (h, r) := hpValToStr fromDouble h b
  hpStrConcat2 h (some l) (some r)

end

/-! ## what stays -/

variable {h h1 h2 h' : Heap} {p q r : Addr} {bs a b : Bytes} {s t : Hstr}

/-- every string of `h` has the same bytes and the same cached hash in `h'` -/
def Keeps (h h' : Heap) : Prop :=
  ∀ p s, h.get p = some s → ∃ t, h'.get p = some t ∧ t.bytes = s.bytes ∧ t.hash = s.hash

/-- from `h` to `h'` the string `a ++ b` at `r` was made, and nothing else happened -/
def Appends (h h' : Heap) (r : Addr) (a b : Bytes) : Prop :=
  (∃ s, h'.get r = some s ∧ s.bytes = a ++ b) ∧ Keeps h h'

/-- appending `b` to the string at `old` changes no string of the heap: it has no room, or there
is nothing to append and no hash to lose -/
def Calm (h : Heap) (old : Option Addr) (b : Bytes) : Prop :=
  ∀ p s, old = some p → h.get p = some s → ¬ s.hasRoom b.length ∨ (b = [] ∧ s.hash = 0)

theorem get_lt (hp : h.get p = some s) : p < h.objs.length :=
  (List.getElem?_eq_some_iff.mp hp).1

theorem get_append_self (hp : h.get p = some s) : (h.append p bs).get p = some (s.push bs) := by
  show (h.objs.modify p _)[p]? = _
  rw [List.getElem?_modify_eq, show h.objs[p]? = some s from hp]
  rfl

theorem get_append_ne (hq : p ≠ q) : (h.append p bs).get q = h.get q :=
  List.getElem?_modify_ne _ _ hq

theorem alloc_ext (h : Heap) (s : Hstr) : h.objs <+: (h.alloc s).1.objs := List.prefix_append ..

theorem get_alloc (h : Heap) (s : Hstr) : (h.alloc s).1.get (h.alloc s).2 = some s :=
  List.getElem?_concat_length

theorem get_ext (hx : h.objs <+: h1.objs) (hp : h.get p = some s) : h1.get p = some s := by
  obtain ⟨l, e⟩ := hx
  rw [Heap.get, ← e, List.getElem?_append_left (get_lt hp)]
  exact hp

theorem keeps_of_ext (hx : h.objs <+: h1.objs) : Keeps h h1 := fun p s hp =>
  ⟨s, get_ext hx hp, rfl, rfl⟩

/-- `p` refers in `h1` to a string with the bytes `bs`, and `h1` is `h` with more strings; if it
was there before, `old` says so -/
structure Denotes (h h1 : Heap) (p : Addr) (old : Option Addr) (bs : Bytes) : Prop where
  ext : h.objs <+: h1.objs
  get : ∃ s, h1.get p = some s ∧ s.bytes = bs
  old : old = if p < h.objs.length then some p else none

namespace Denotes

/-- a string that was there before -/
theorem there (hp : h.get p = some s) (hb : s.bytes = bs) : Denotes h h p (some p) bs :=
  ⟨List.prefix_refl _, ⟨s, hp, hb⟩, (if_pos (get_lt hp)).symm⟩

theorem lit (h : Heap) (bs : Bytes) : Denotes h (h.lit bs).1 (h.lit bs).2 none bs :=
  ⟨alloc_ext .., ⟨_, get_alloc .., rfl⟩, (if_neg (Nat.lt_irrefl _)).symm⟩

theorem nullStr (h : Heap) : Denotes h h.hpNullStr.1 h.hpNullStr.2 h.nullStr [] := by
  unfold Heap.hpNullStr
  cases hn : h.nullStr with
  | none =>
    exact ⟨alloc_ext .., ⟨_, get_alloc h (hpStrNew []), rfl⟩, (if_neg (Nat.lt_irrefl _)).symm⟩
  | some p =>
    obtain ⟨s, hs, hb, -⟩ := h.null_ok p hn
    exact there hs hb

theorem old_some {o : Option Addr} {p' : Addr} (ha : Denotes h h1 p o bs) (ho : o = some p') :
    p = p' := by
  have := ha.old.symm.trans ho
  split at this
  · exact Option.some.inj this
  · cases this

/-- **The concatenation of two strings that are there**: the branch of the code decides. -/
theorem concat {o : Option Addr} (ha : Denotes h h1 p o a)
    (hb : ∃ t, h2.get q = some t ∧ t.bytes = b) (hx : h1.objs <+: h2.objs) :
    ∃ h' r, h2.concat p q = some (h', r) ∧ (Appends h h' r a b ↔ Calm h o b) := by
  obtain ⟨s, hs1, rfl⟩ := ha.get
  obtain ⟨t, ht, rfl⟩ := hb
  have hs : h2.get p = some s := get_ext hx hs1
  have hx' : h.objs <+: h2.objs := ha.ext.trans hx
  have hconcat : h2.concat p q = if s.hasRoom t.bytes.length then some (h2.append p t.bytes, p)
      else some (h2.alloc (s.join t)) := by
    unfold Heap.concat
    rw [hs, ht]
  by_cases hroom : s.hasRoom t.bytes.length
  · obtain ⟨hbytes, hhash⟩ := Hstr.push_of_room hroom
    refine ⟨_, _, hconcat.trans (if_pos hroom), ⟨fun happ => ?_, fun hcalm => ⟨?_, ?_⟩⟩⟩
    · intro p' s' ho hs'
      obtain rfl := ha.old_some ho
      obtain rfl : s = s' := Option.some.inj (hs.symm.trans (get_ext hx' hs'))
      obtain ⟨u, hu, hub, huh⟩ := happ.2 p s hs'
      obtain rfl : s.push t.bytes = u := Option.some.inj ((get_append_self hs).symm.trans hu)
      refine .inr ⟨?_, huh.symm.trans hhash⟩
      exact List.append_right_eq_self.mp (hbytes.symm.trans hub)
    · exact ⟨_, get_append_self hs, hbytes⟩
    · intro p' s' hs'
      have hs2 : h2.get p' = some s' := get_ext hx' hs'
      by_cases e : p = p'
      · subst e
        obtain rfl : s = s' := Option.some.inj (hs.symm.trans hs2)
        rcases hcalm p s (ha.old.trans (if_pos (get_lt hs'))) hs' with hn | ⟨hnil, h0⟩
        · exact absurd hroom hn
        · exact ⟨_, get_append_self hs, by rw [hbytes, hnil, List.append_nil], by rw [hhash, h0]⟩
      · exact ⟨s', (get_append_ne e).trans hs2, rfl, rfl⟩
  · refine ⟨_, _, hconcat.trans (if_neg hroom), iff_of_true ⟨⟨_, get_alloc .., rfl⟩, ?_⟩ ?_⟩
    · exact keeps_of_ext (hx'.trans (alloc_ext ..))
    · intro p' s' ho hs'
      obtain rfl := ha.old_some ho
      obtain rfl : s = s' := Option.some.inj (hs.symm.trans (get_ext hx' hs'))
      exact .inl hroom

end Denotes

/-! ## the operations -/

/-- the string a value holds -/
def ref : HVal Addr → Option Addr
  | .str r => r
  | _ => none

/-- a reference is NULL or the address of a string -/
def Heap.Valid (h : Heap) (a : Option Addr) : Prop := ∀ p, a = some p → p < h.objs.length

/-- NULL reads as the empty string -/
def Heap.bytesOf (h : Heap) (a : Option Addr) : Bytes := ((a.bind h.get).map Hstr.bytes).getD []

/-- the string that `hp_val_to_str` does not make but takes -/
def Heap.taken (h : Heap) : HVal Addr → Option Addr
  | .str (some p) => some p
  | .str none => h.nullStr
  | _ => none

theorem valid_get {o : Option Addr} (ho : h.Valid o) (hp : o = some p) :
    ∃ s, h.get p = some s ∧ s.bytes = h.bytesOf o := by
  have hlt := ho p hp
  have hs : h.get p = some h.objs[p] := List.getElem?_eq_getElem hlt
  refine ⟨_, hs, ?_⟩
  rw [hp, Heap.bytesOf, Option.bind_some, hs]
  rfl

theorem bytesOf_ext {o : Option Addr} (hx : h.objs <+: h1.objs) (ho : h.Valid o) :
    h1.bytesOf o = h.bytesOf o := by
  cases o with
  | none => rfl
  | some p =>
    obtain ⟨s, hs, hb⟩ := valid_get ho rfl
    rw [← hb, Heap.bytesOf, Option.bind_some, get_ext hx hs]
    rfl

theorem valid_ext {o : Option Addr} (hx : h.objs <+: h1.objs) (ho : h.Valid o) : h1.Valid o :=
  fun p hp => Nat.lt_of_lt_of_le (ho p hp) hx.length_le

theorem orEmpty_denotes {o : Option Addr} (ho : h.Valid o) :
    Denotes h (h.orEmpty o).1 (h.orEmpty o).2 o (h.bytesOf o) := by
  cases o with
  | none => exact .lit h []
  | some p =>
    obtain ⟨s, hs, hb⟩ := valid_get ho rfl
    exact .there hs hb

section
variable (fromDouble : Double → Bytes)

/-- the bytes of `hp_val_to_str` -/
def valBytes (h : Heap) : HVal Addr → Bytes
  | .null => []
  | .int i => hpStrFromInt i
  | .float f => fromDouble f
  | .bool b => if b then text "1" else []
  | .str r => h.bytesOf r
  | .arr _ => text "Array"
  | .obj _ => text "Object"
  | .clo _ => text "Closure"

theorem valToStr_denotes {v : HVal Addr} (hv : h.Valid (ref v)) :
    Denotes h (hpValToStr fromDouble h v).1 (hpValToStr fromDouble h v).2 (h.taken v)
      (valBytes fromDouble h v) := by
  cases v with
  | str r =>
    cases r with
    | none => exact .nullStr h
    | some p =>
      obtain ⟨s, hs, hb⟩ := valid_get hv rfl
      exact .there hs hb
  | null | int i | float f | bool b | arr x | obj x | clo x => exact .lit h _

theorem valBytes_ext {v : HVal Addr} (hx : h.objs <+: h1.objs) (hv : h.Valid (ref v)) :
    valBytes fromDouble h1 v = valBytes fromDouble h v := by
  cases v with
  | str r => exact bytesOf_ext hx hv
  | null | int i | float f | bool b | arr x | obj x | clo x => rfl

/-- **Exactly when a concatenation leaves all other strings alone**, for `hp_str_concat2` and for
the operator on values. -/
theorem concat_spec (h : Heap) :
    (∀ a b : Option Addr, h.Valid a → h.Valid b → ∃ h' r, hpStrConcat2 h a b = some (h', r) ∧
      (Appends h h' r (h.bytesOf a) (h.bytesOf b) ↔ Calm h a (h.bytesOf b))) ∧
    (∀ a b : HVal Addr, h.Valid (ref a) → h.Valid (ref b) →
      ∃ h' r, hpStrConcatV fromDouble h a b = some (h', r) ∧
        (Appends h h' r (valBytes fromDouble h a) (valBytes fromDouble h b) ↔
          Calm h (h.taken a) (valBytes fromDouble h b))) := by
  constructor
  · intro a b ha hb
    have h1 := orEmpty_denotes ha
    have h2 := orEmpty_denotes (valid_ext h1.ext hb)
    rw [bytesOf_ext h1.ext hb] at h2
    exact h1.concat h2.get h2.ext
  · intro a b ha hb
    have h1 := valToStr_denotes fromDouble ha
    have h2 := valToStr_denotes fromDouble (valid_ext h1.ext hb)
    rw [valBytes_ext fromDouble h1.ext hb] at h2
    exact h1.concat h2.get h2.ext

end

/-- `"a"` at address 0 -/
def heapA : Heap := ⟨[hpStrNew [97]], none, by simp⟩

/-- `7 . "a"` and `"a" . "a"` -/
theorem concat_spec_a : (∃ h' r, hpStrConcatV (fun _ => []) heapA (.int 7) (.str (some 0)) =
      some (h', r) ∧ Appends heapA h' r [55] [97]) ∧
    ∃ h' r, hpStrConcat2 heapA (some 0) (some 0) = some (h', r) ∧ Appends heapA h' r [97] [97] := by
  have hvalid : heapA.Valid (some 0) := fun p hp => by
    rw [← Option.some.inj hp]
    decide
  constructor
  · obtain ⟨h', r, hc, happ⟩ := (concat_spec (fun _ => []) heapA).2 (.int 7) (.str (some 0))
      (by simp [Heap.Valid, ref]) hvalid
    exact ⟨h', r, hc, happ.mpr fun p s hp => by cases hp⟩
  · obtain ⟨h', r, hc, happ⟩ := (concat_spec (fun _ => []) heapA).1 (some 0) (some 0) hvalid hvalid
    refine ⟨h', r, hc, happ.mpr fun p s hp hs => .inl ?_⟩
    obtain rfl := Option.some.inj hp
    obtain rfl := Option.some.inj hs
    decide

/-- `"a"`, `"b"` and `"a" . "b"`, which has 20 bytes of capacity -/
def heapAB : Heap := ⟨[hpStrNew [97], hpStrNew [98], (hpStrNew [97]).join (hpStrNew [98])], none,
  by simp⟩

/-- who shares the string at 2 sees it grow when `"b"` is appended -/
theorem concat_changes : ¬ ∀ (h : Heap) (a b : Option Addr), h.Valid a → h.Valid b →
    ∀ h' r, hpStrConcat2 h a b = some (h', r) → Appends h h' r (h.bytesOf a) (h.bytesOf b) := by
  intro hall
  have hvalid : ∀ n < 3, heapAB.Valid (some n) := fun n hn p hp => by
    rw [← Option.some.inj hp]
    exact hn
  have happ := hall heapAB (some 2) (some 1) (hvalid 2 (by decide)) (hvalid 1 (by decide)) _ _ rfl
  obtain ⟨t, ht, hb, -⟩ := happ.2 2 ((hpStrNew [97]).join (hpStrNew [98])) rfl
  obtain rfl := Option.some.inj ht
  exact absurd hb (by decide)

end Str
end HolyPhp
