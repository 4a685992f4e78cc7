import HolyPhp.Lib.Json
import HolyPhp.Package.Registry

/-!
# Manifests

`json_get_str` looks for the key between quotes in the raw text, wherever it is, and takes the
string behind it, without the backslashes.

* `pkgManifestParse`   the manifest of a text, by a reader of keys;
* `Flat`               objects whose members are strings;
* `Plain`              keys that a pattern can find;
* `looksLike`, `keyRead`  the strings that the pattern matches, and the value behind the first of
                       them, where that is a key;
* `jsonGetStr_flat`    what is read of a flat object;
* `Clear`, `Direct`    the conditions; they agree where the keys are different;
* `jsonGetStr_iff`     **a key is read like by a JSON parser if and only if its first match is the
                       key, or behind no key where it is absent.**
-/

set_option autoImplicit false

namespace HolyPhp
namespace Package
namespace Manifest
open Json hiding Bytes
open Substr Assoc

/-! ## the manifest -/

structure PkgManifest where
  name : Bytes
  version : Bytes
  entry : Bytes
  desc : Bytes
  author : Bytes
  deriving DecidableEq

/-- `fatal("%s: ...", dir ? dir : "package")` -/
def manifestFatal (dir : Option Bytes) (text : String) : Except Bytes PkgManifest :=
  .error (dir.getD (ascii "package") ++ ascii text)

/-- `pkg_manifest_parse`, where `get` reads a key of the text -/
def manifestParse (get : Bytes → Option Bytes) (js : Option Bytes) (dir : Option Bytes) :
    Except Bytes PkgManifest :=
  if js.getD [] = [] then manifestFatal dir ": empty or missing hphp.json"
  else match get nameKey, get versionKey with
    | some name, version =>
      if pkgNameOk name = false then
        manifestFatal dir ": manifest needs a valid \"name\" (lowercase letters, digits, _)"
      else if version.getD [] = [] then
        manifestFatal dir ": manifest needs a \"version\" (e.g. \"1.0.0\")"
      else .ok ⟨name, version.getD [], (get (ascii "entry")).getD (name ++ ascii ".hphp"),
        (get (ascii "description")).getD [], (get (ascii "author")).getD []⟩
    | none, _ =>
      manifestFatal dir ": manifest needs a valid \"name\" (lowercase letters, digits, _)"

def pkgManifestParse (js dir : Option Bytes) : Except Bytes PkgManifest :=
  manifestParse (jsonGetStr (js.getD [])) js dir

/-- the keys of a manifest -/
def manifestKeys : List Bytes :=
  [nameKey, versionKey, ascii "entry", ascii "description", ascii "author"]

/-! ## flat objects -/

/-- all members are strings -/
inductive Flat : Members → Prop
  | last {w w₁ w₂ w' : List Ws} {k v : List Ch} : StrOk k → StrOk v →
      Flat (.last w k w₁ w₂ (.str v) w')
  | cons {w w₁ w₂ w' : List Ws} {k v : List Ch} {ms : Members} : StrOk k → StrOk v → Flat ms →
      Flat (.cons w k w₁ w₂ (.str v) w' ms)

inductive FlatObject : Cst → Prop
  | empty (w : List Ws) : FlatObject (.objEmpty w)
  | members {ms : Members} : Flat ms → FlatObject (.obj ms)

/-- an object with blanks around it -/
def document (w : List Ws) (o : Cst) (w' : List Ws) : Bytes := ws w ++ (o.text ++ ws w')

/-- what a parser reads for the key -/
def valueOf (o : Cst) (K : Bytes) : Option Bytes :=
  match o.denote with
  | .map l =>
    match find l (.str K) with
    | some (.str b) => some b
    | _ => none
  | _ => none

/-- a key that fits the pattern, without quotes and backslashes, that is not made of what stands
between two strings -/
structure Plain (K : Bytes) : Prop where
  quote : 34 ∉ K
  backslash : 92 ∉ K
  short : K.length ≤ 61
  solid : K = [] ∨ ∃ c ∈ K, isGap c = false ∧ c ≠ 44

/-! ## what the pattern matches -/

def isQuote : Ch → Bool
  | .esc .quote => true
  | _ => false

/-- the string ends with an escaped quote and then the key -/
def endsLike (K : Bytes) : List Ch → Bool
  | [] => false
  | c :: s => isQuote c && chars s = K || endsLike K s

/-- the raw text of the string is the key, or it ends like it -/
def looksLike (K : Bytes) (s : List Ch) : Bool := chars s = K || endsLike K s

/-- the character behind the backslash of an escape -/
def Letters : Ch → Bytes
  | .raw b => [b]
  | .esc e => [e.letter]
  | .hex a b c d => [117, a.byte, b.byte, c.byte, d.byte]

/-- a string without the backslashes of its escapes -/
def letters (s : List Ch) : Bytes := s.flatMap Letters

def strOf : Cst → List Ch
  | .str v => v
  | _ => []

/-- keys and values -/
def pairs : Members → List (List Ch × List Ch)
  | .last _ k _ _ v _ => [(k, strOf v)]
  | .cons _ k _ _ v _ ms => (k, strOf v) :: pairs ms

def objPairs : Cst → List (List Ch × List Ch)
  | .obj ms => pairs ms
  | _ => []

/-- the value behind the first string that looks like the key, where that is a key -/
def keyRead (K : Bytes) : List (List Ch × List Ch) → Option (List Ch)
  | [] => none
  | p :: ps =>
    if looksLike K p.1 then some p.2 else if looksLike K p.2 then none else keyRead K ps

/-- the first string that looks like the key is a key with the right value, or none is in front of
a value where the key is absent -/
structure Clear (K : Bytes) (o : Cst) : Prop where
  absent : valueOf o K = none → keyRead K (objPairs o) = none
  present : ∀ b, valueOf o K = some b → ∃ v, keyRead K (objPairs o) = some v ∧ letters v = b

/-! ## finding the pattern -/

/-- `"key"` -/
def pattern (K : Bytes) : Bytes := 34 :: (K ++ [34])

section
variable {K g r : Bytes} {s : List Ch} {ms : Members} {v : List Ch} {w w' : List Ws}

/-- no raw quote, no raw backslash -/
def RawPlain (s : List Ch) : Prop := ∀ b, .raw b ∈ s → b ≠ 34 ∧ b ≠ 92

theorem ok_plain (h : StrOk s) : RawPlain s := fun _ hb => (h.raw_plain hb).2

theorem RawPlain.tail {c : Ch} (h : RawPlain (c :: s)) : RawPlain s :=
  fun b hb => h b (List.mem_cons_of_mem c hb)

theorem hex_byte (h : Hex) : h.byte ≠ 34 ∧ h.byte ≠ 92 := by
  obtain ⟨v, u⟩ := h
  revert v u
  decide

/-- a key in front of a quote is the text of a string, if it is in front of its end -/
theorem key_front (hq : 34 ∉ K) (hb : 92 ∉ K) (hs : RawPlain s) (r : Bytes) :
    K ++ [34] <+: chars s ++ 34 :: r ↔ chars s = K := by
  constructor
  · intro h
    by_cases h34 : 34 ∈ chars s
    · -- the first quote of the string has a backslash in front of it, which the key has not
      exfalso
      induction s generalizing K with
      | nil => cases h34
      | cons c s ih =>
        cases c with
        | raw b =>
          cases K with
          | nil =>
            have hb34 := (List.cons_prefix_cons.mp h).1
            exact (hs b List.mem_cons_self).1 hb34.symm
          | cons a K =>
            have hrest : K ++ [34] <+: chars s ++ 34 :: r := (List.cons_prefix_cons.mp h).2
            rw [List.mem_cons, not_or] at hq hb
            have hin : 34 ∈ b :: chars s := h34
            rcases List.mem_cons.mp hin with he | hin
            · exact (hs b List.mem_cons_self).1 he.symm
            · exact ih hq.2 hb.2 hs.tail hrest hin
        | esc e =>
          cases K with
          | nil => cases (List.cons_prefix_cons.mp h).1
          | cons a K =>
            have ha := (List.cons_prefix_cons.mp h).1
            exact hb (ha ▸ List.mem_cons_self)
        | hex a b c d =>
          cases K with
          | nil => cases (List.cons_prefix_cons.mp h).1
          | cons a' K =>
            have ha := (List.cons_prefix_cons.mp h).1
            exact hb (ha ▸ List.mem_cons_self)
    · exact ((prefix_delim hq h34).mp h).symm
  · rintro rfl
    exact ⟨r, by rw [List.append_assoc]; rfl⟩

theorem pattern_next (h : ¬ K ++ [34] <+: r) :
    strstr (pattern K) (34 :: r) = strstr (pattern K) r :=
  strstr_next fun hp => h (List.cons_prefix_cons.mp hp).2

theorem pattern_ne {c : UInt8} (h : c ≠ 34) (r : Bytes) :
    strstr (pattern K) (c :: r) = strstr (pattern K) r := strstr_ne h

/-- **Inside of a string** the pattern matches at an escaped quote. -/
theorem strstr_chars (hK : Plain K) (hs : RawPlain s) (r : Bytes) :
    strstr (pattern K) (chars s ++ 34 :: r) =
      if endsLike K s = true then some (34 :: (K ++ 34 :: r))
      else strstr (pattern K) (34 :: r) := by
  induction s with
  | nil => rfl
  | cons c s ih =>
    have ih := ih hs.tail
    cases c with
    | raw b =>
      exact (pattern_ne (hs b List.mem_cons_self).1 _).trans ih
    | hex a b c d =>
      have hskip : strstr (pattern K) ([92, 117, a.byte, b.byte, c.byte, d.byte] ++
          (chars s ++ 34 :: r)) = strstr (pattern K) (chars s ++ 34 :: r) := by
        refine strstr_skip ?_
        simp only [List.mem_cons, List.not_mem_nil, or_false, not_or]
        exact ⟨by decide, by decide, (hex_byte a).1.symm, (hex_byte b).1.symm,
          (hex_byte c).1.symm, (hex_byte d).1.symm⟩
      exact hskip.trans ih
    | esc e =>
      show strstr (pattern K) (92 :: e.letter :: (chars s ++ 34 :: r)) = _
      rw [pattern_ne (by decide)]
      by_cases he : e = .quote
      · subst he
        show strstr (pattern K) (34 :: (chars s ++ 34 :: r)) =
          if (decide (chars s = K) || endsLike K s) = true then _ else _
        by_cases hk : chars s = K
        · rw [hk, decide_eq_true rfl, Bool.true_or, if_pos rfl]
          exact strstr_quoted 34 K r
        · rw [decide_eq_false hk, Bool.false_or,
            pattern_next fun hp => hk ((key_front hK.quote hK.backslash hs.tail r).mp hp)]
          exact ih
      · have hletter : e.letter ≠ 34 := by
          cases e <;> first | exact absurd rfl he | decide
        have hquote : isQuote (.esc e) = false := by
          cases e <;> first | exact absurd rfl he | rfl
        rw [pattern_ne hletter, ih, endsLike, hquote]
        rfl

/-- **At a string** it matches where the string looks like the key. -/
theorem strstr_string (hK : Plain K) (hs : RawPlain s) (r : Bytes) :
    strstr (pattern K) (34 :: (chars s ++ 34 :: r)) =
      if looksLike K s = true then some (34 :: (K ++ 34 :: r))
      else strstr (pattern K) (34 :: r) := by
  unfold looksLike
  by_cases hk : chars s = K
  · rw [decide_eq_true hk, Bool.true_or, if_pos rfl, hk]
    exact strstr_quoted 34 K r
  · rw [decide_eq_false hk, Bool.false_or,
      pattern_next fun hp => hk ((key_front hK.quote hK.backslash hs r).mp hp)]
    exact strstr_chars hK hs r

/-- what may stand between two strings -/
def Gap (g : Bytes) : Prop := g ≠ [] ∧ ∀ c ∈ g, isGap c = true ∨ c = 44

theorem Gap.quote (hg : Gap g) : 34 ∉ g := by
  intro h
  rcases hg.2 34 h with h | h <;> cases h

theorem Gap.ne (hK : Plain K) (hg : Gap g) : K ≠ g := by
  rintro rfl
  rcases hK.solid with h | ⟨c, hc, hgap, h44⟩
  · exact hg.1 h
  · rcases hg.2 c hc with h | h
    · rw [hgap] at h
      cases h
    · exact h44 h

/-- **Between two strings** it does not match. -/
theorem strstr_gap (hK : Plain K) (hg : Gap g) (r : Bytes) :
    strstr (pattern K) (34 :: (g ++ 34 :: r)) = strstr (pattern K) (34 :: r) := by
  rw [pattern_next fun hp => hg.ne hK ((prefix_delim hK.quote hg.quote).mp hp)]
  exact strstr_skip hg.quote

theorem strstr_end (h : 34 ∉ r) : strstr (pattern K) (34 :: r) = none := by
  rw [pattern_next fun hp => h (hp.subset (List.mem_append_right K List.mem_cons_self)),
    ← List.append_nil r]
  exact strstr_skip h

/-! ## blanks -/

theorem mem_ws {c : UInt8} (h : c ∈ ws w) : isGap c = true := by
  obtain ⟨x, -, rfl⟩ := List.mem_map.mp h
  cases x <;> rfl

theorem dropWhile_gap (h : ∀ c ∈ g, isGap c = true) (r : Bytes) :
    (g ++ r).dropWhile isGap = r.dropWhile isGap := by
  induction g with
  | nil => rfl
  | cons c g ih =>
    rw [List.cons_append, List.dropWhile_cons_of_pos (h c List.mem_cons_self)]
    exact ih fun d hd => h d (List.mem_cons_of_mem c hd)

theorem ws_quote (w : List Ws) : 34 ∉ ws w := by
  intro h
  cases mem_ws h

/-- the blanks and the colon between a key and its value -/
theorem colon_gap (w w' : List Ws) : (∀ c ∈ ws w ++ 58 :: ws w', isGap c = true) ∧
    Gap (ws w ++ 58 :: ws w') := by
  have hall : ∀ c ∈ ws w ++ 58 :: ws w', isGap c = true := by
    intro c hc
    rcases List.mem_append.mp hc with hc | hc
    · exact mem_ws hc
    · rcases List.mem_cons.mp hc with rfl | hc
      · rfl
      · exact mem_ws hc
  exact ⟨hall, by simp, fun c hc => .inl (hall c hc)⟩

/-- the blanks and the comma between two members -/
theorem comma_gap (w w' : List Ws) : Gap (ws w ++ 44 :: ws w') := by
  refine ⟨by simp, fun c hc => ?_⟩
  rcases List.mem_append.mp hc with hc | hc
  · exact .inl (mem_ws hc)
  · rcases List.mem_cons.mp hc with rfl | hc
    · exact .inr rfl
    · exact .inl (mem_ws hc)

/-! ## what is read of an object -/

theorem strBody_chars (hs : RawPlain s) (r : Bytes) : strBody (chars s ++ 34 :: r) = letters s := by
  induction s with
  | nil => exact strBody_quote r
  | cons c s ih =>
    have ih := ih hs.tail
    cases c with
    | raw b =>
      obtain ⟨h34, h92⟩ := hs b List.mem_cons_self
      have hstep : strBody (b :: (chars s ++ 34 :: r)) = b :: strBody (chars s ++ 34 :: r) :=
        strBody_plain h34 h92
      exact hstep.trans (congrArg _ ih)
    | esc e =>
      show strBody (92 :: e.letter :: (chars s ++ 34 :: r)) = e.letter :: letters s
      rw [strBody, ih]
    | hex a b c d =>
      have hstep : strBody (92 :: 117 :: a.byte :: b.byte :: c.byte :: d.byte ::
          (chars s ++ 34 :: r)) =
          117 :: a.byte :: b.byte :: c.byte :: d.byte :: strBody (chars s ++ 34 :: r) := by
        rw [strBody, strBody_plain (hex_byte a).1 (hex_byte a).2,
          strBody_plain (hex_byte b).1 (hex_byte b).2, strBody_plain (hex_byte c).1 (hex_byte c).2,
          strBody_plain (hex_byte d).1 (hex_byte d).2]
      rw [ih] at hstep
      exact hstep

/-- what `json_get_str` does behind its match -/
def readBehind (K : Bytes) (k : Bytes) : Option Bytes :=
  match (k.drop (pattern K).length).dropWhile isGap with
  | 34 :: p => some (strBody p)
  | _ => none

theorem jsonGetStr_pattern (hK : Plain K) (js : Bytes) :
    jsonGetStr js K = (strstr (pattern K) js).bind (readBehind K) := by
  have hlen : (pattern K).length ≤ 63 := by
    have := hK.short
    simp only [pattern, List.length_cons, List.length_append, List.length_nil]
    omega
  unfold jsonGetStr
  rw [show 34 :: (K ++ [34]) = pattern K from rfl, List.take_of_length_le hlen]
  rfl

theorem readBehind_match (K r : Bytes) : readBehind K (34 :: (K ++ 34 :: r)) =
    match r.dropWhile isGap with
    | 34 :: p => some (strBody p)
    | _ => none := by
  have hdrop : (34 :: (K ++ 34 :: r)).drop (pattern K).length = r := by
    rw [show 34 :: (K ++ 34 :: r) = pattern K ++ r by simp [pattern]]
    exact List.drop_left
  rw [readBehind, hdrop]

/-- behind a key its value is read -/
theorem read_key (w w' : List Ws) (hv : RawPlain v) (K r : Bytes) :
    readBehind K (34 :: (K ++ 34 :: (ws w ++ 58 :: ws w' ++ 34 :: (chars v ++ 34 :: r)))) =
      some (letters v) := by
  rw [readBehind_match, dropWhile_gap (colon_gap w w').1]
  show some (strBody (chars v ++ 34 :: r)) = _
  rw [strBody_chars hv]

/-- behind a value there is a comma or a bracket -/
theorem read_value (w : List Ws) {c : UInt8} (hc : isGap c = false) (h34 : c ≠ 34) (K r : Bytes) :
    readBehind K (34 :: (K ++ 34 :: (ws w ++ c :: r))) = none := by
  rw [readBehind_match, dropWhile_gap fun _ => mem_ws,
    List.dropWhile_cons_of_neg (by rw [hc]; exact Bool.false_ne_true)]
  split
  · rename_i heq
    exact absurd (List.cons.inj heq).1 h34
  · rfl

/-- the text of a member in front of a comma or a bracket -/
theorem member_text (w w₁ w₂ w' : List Ws) (k v : List Ch) (r : Bytes) :
    ws w ++ string k ++ ws w₁ ++ 58 :: (ws w₂ ++ string v ++ ws w') ++ r =
      ws w ++ 34 :: (chars k ++ 34 :: (ws w₁ ++ 58 :: ws w₂ ++
        34 :: (chars v ++ 34 :: (ws w' ++ r)))) := by
  simp [string]

/-- **What a member contributes.** -/
theorem get_member (hK : Plain K) {k : List Ch} (hk : RawPlain k) (hv : RawPlain v)
    (w w₁ w₂ w' : List Ws) {c : UInt8} (hc : isGap c = false) (h34 : c ≠ 34) (r : Bytes) :
    (strstr (pattern K) (ws w ++ string k ++ ws w₁ ++ 58 :: (ws w₂ ++ string v ++ ws w') ++
      c :: r)).bind (readBehind K) =
    if looksLike K k = true then some (letters v)
    else if looksLike K v = true then none
    else (strstr (pattern K) (34 :: (ws w' ++ c :: r))).bind (readBehind K) := by
  rw [member_text, show ∀ x, strstr (pattern K) (ws w ++ x) = strstr (pattern K) x from
    fun x => strstr_skip (ws_quote w), strstr_string hK hk]
  split
  · exact read_key w₁ w₂ hv K _
  · rw [strstr_gap hK (colon_gap w₁ w₂).2, strstr_string hK hv]
    split
    · exact read_value w' hc h34 K r
    · rfl

theorem Flat.front (h : Flat ms) : ∃ w r, ms.text = ws w ++ 34 :: r := by
  cases h with
  | last _ _ => exact ⟨_, _, by rw [Members.text]; simp [string]; rfl⟩
  | cons _ _ _ => exact ⟨_, _, by rw [Members.text]; simp [string]; rfl⟩

/-- **What is read of the members**, whatever is behind the bracket. -/
theorem get_members (hK : Plain K) (h : Flat ms) {e : Bytes} (he : 34 ∉ e) :
    (strstr (pattern K) (ms.text ++ 125 :: e)).bind (readBehind K) =
      (keyRead K (pairs ms)).map letters := by
  induction h with
  | @last w w₁ w₂ w' k v hk hv =>
    have hend : 34 ∉ ws w' ++ 125 :: e := by
      rw [List.mem_append, List.mem_cons]
      rintro (h | h | h)
      · exact ws_quote w' h
      · cases h
      · exact he h
    rw [Members.text, Cst.text,
      get_member hK (ok_plain hk) (ok_plain hv) w w₁ w₂ w' (c := 125) rfl (by decide) e,
      strstr_end hend, pairs, keyRead]
    split
    · rfl
    · show _ = Option.map letters (if looksLike K v = true then none else none)
      split <;> rfl
  | @cons w w₁ w₂ w' k v ms hk hv hms ih =>
    obtain ⟨u, r, hfront⟩ := hms.front
    have hcomma : strstr (pattern K) (34 :: (ws w' ++ 44 :: (ms.text ++ 125 :: e))) =
        strstr (pattern K) (ms.text ++ 125 :: e) := by
      have hskip : strstr (pattern K) (ms.text ++ 125 :: e) =
          strstr (pattern K) (34 :: (r ++ 125 :: e)) := by
        rw [hfront, List.append_assoc]
        exact strstr_skip (ws_quote u)
      have hgap := strstr_gap hK (comma_gap w' u) (r ++ 125 :: e)
      rw [hskip, ← hgap, hfront]
      simp
    rw [Members.text, Cst.text, List.append_assoc _ (44 :: ms.text), List.cons_append,
      get_member hK (ok_plain hk) (ok_plain hv) w w₁ w₂ w' (c := 44) rfl (by decide), hcomma, ih,
      pairs, keyRead]
    split
    · rfl
    · show _ = Option.map letters (if looksLike K v = true then none else keyRead K (pairs ms))
      split <;> rfl

/-- **What `json_get_str` reads** of a flat object. -/
theorem jsonGetStr_flat (hK : Plain K) {o : Cst} (ho : FlatObject o) (w w' : List Ws) :
    jsonGetStr (document w o w') K = (keyRead K (objPairs o)).map letters := by
  rw [jsonGetStr_pattern hK]
  cases ho with
  | empty w₁ =>
    have hno : 34 ∉ document w (.objEmpty w₁) w' := by
      simp only [document, Cst.text, List.mem_append, List.mem_cons, List.not_mem_nil, or_false,
        not_or]
      exact ⟨ws_quote w, ⟨by decide, ws_quote w₁, by decide⟩, ws_quote w'⟩
    have hnone : strstr (pattern K) (document w (.objEmpty w₁) w') = none := by
      rw [← List.append_nil (document _ _ _)]
      exact strstr_skip hno
    rw [hnone]
    rfl
  | @members ms hms =>
    have hskip : strstr (pattern K) (document w (.obj ms) w') =
        strstr (pattern K) (ms.text ++ 125 :: ws w') := by
      have hfront : 34 ∉ ws w ++ [123] := by
        rw [List.mem_append, List.mem_singleton]
        rintro (h | h)
        · exact ws_quote w h
        · cases h
      have htext : document w (.obj ms) w' = (ws w ++ [123]) ++ (ms.text ++ 125 :: ws w') := by
        simp [document, Cst.text]
      rw [htext]
      exact strstr_skip hfront
    rw [hskip, get_members hK hms (ws_quote w')]
    rfl

theorem read_iff_clear (hK : Plain K) {o : Cst} (ho : FlatObject o) (w w' : List Ws) :
    jsonGetStr (document w o w') K = valueOf o K ↔ Clear K o := by
  rw [jsonGetStr_flat hK ho]
  constructor
  · intro h
    refine ⟨fun ha => ?_, fun b hb => ?_⟩
    · rw [ha] at h
      exact Option.map_eq_none_iff.mp h
    · rw [hb] at h
      exact Option.map_eq_some_iff.mp h
  · intro h
    cases hv : valueOf o K with
    | none => rw [h.absent hv, Option.map_none]
    | some b =>
      obtain ⟨v, hread, hl⟩ := h.present b hv
      rw [hread, Option.map_some, hl]

/-! ## different keys -/

/-- raw characters, and escapes of quotes, backslashes and slashes -/
def simpleCh : Ch → Bool
  | .raw _ | .esc .quote | .esc .backslash | .esc .slash => true
  | _ => false

/-- the key is written without escapes, no value in front of it looks like it, and its value has
simple escapes only -/
def Direct (K : Bytes) (ps : List (List Ch × List Ch)) : Prop :=
  ∀ a k v b, ps = a ++ (k, v) :: b → bytes k = K →
    chars k = K ∧ v.all simpleCh = true ∧ ∀ p ∈ a, looksLike K p.2 = false

theorem letters_length (c : Ch) : (Ch.denote c).length ≤ (Letters c).length ∧
    (Letters c = Ch.denote c ↔ simpleCh c = true) := by
  cases c with
  | raw b => exact ⟨Nat.le_refl _, iff_of_true rfl rfl⟩
  | esc e => cases e <;> decide
  | hex a b c d =>
    have hlen : (Ch.denote (.hex a b c d)).length ≤ 4 := by
      rw [Ch.denote, String.length_utf8EncodeChar]
      exact Char.utf8Size_le_four _
    have hfive : (Letters (.hex a b c d)).length = 5 := rfl
    refine ⟨by omega, iff_of_false (fun h => ?_) Bool.false_ne_true⟩
    rw [h] at hfive
    omega

/-- **The backslashes can be dropped** just if the escapes are simple. -/
theorem letters_eq_iff (v : List Ch) : letters v = bytes v ↔ v.all simpleCh = true := by
  have hle : ∀ v : List Ch, (bytes v).length ≤ (letters v).length := by
    intro v
    induction v with
    | nil => exact Nat.le_refl _
    | cons c v ih =>
      have := (letters_length c).1
      rw [bytes, letters, List.flatMap_cons, List.flatMap_cons, List.length_append,
        List.length_append]
      exact Nat.add_le_add this ih
  induction v with
  | nil => exact iff_of_true rfl rfl
  | cons c v ih =>
    rw [List.all_cons, Bool.and_eq_true]
    refine Iff.trans ?_ (and_congr (letters_length c).2 ih)
    show Letters c ++ letters v = Ch.denote c ++ bytes v ↔ _
    constructor
    · intro h
      have hlen := congrArg List.length h
      rw [List.length_append, List.length_append] at hlen
      have h1 := (letters_length c).1
      have h2 := hle v
      exact List.append_inj h (by omega)
    · rintro ⟨h1, h2⟩
      rw [h1, h2]

/-- a string whose raw text has no backslash is what it says -/
theorem bytes_of_chars (h : 92 ∉ chars s) : bytes s = chars s := by
  induction s with
  | nil => rfl
  | cons c s ih =>
    cases c with
    | raw b =>
      have hs : 92 ∉ chars s := fun hm => h (List.mem_cons_of_mem b hm)
      exact congrArg (b :: ·) (ih hs)
    | esc e => exact absurd List.mem_cons_self h
    | hex a b c d => exact absurd List.mem_cons_self h

/-- the last member with the key counts -/
theorem find_denote (h : Flat ms) (K : Bytes) (l : List (Key × Value)) :
    find (ms.denote l) (.str K) = (pairs ms).foldl
      (fun x p => if bytes p.1 = K then some (.str (bytes p.2)) else x) (find l (.str K)) := by
  induction h generalizing l with
  | last _ _ =>
    rw [Members.denote, find_assign, pairs, List.foldl_cons, List.foldl_nil]
    simp only [Key.str.injEq]
    rfl
  | cons _ _ _ ih =>
    rw [Members.denote, ih, find_assign, pairs, List.foldl_cons]
    simp only [Key.str.injEq]
    rfl

/-- what a parser reads, by the members -/
theorem valueOf_eq {o : Cst} (ho : FlatObject o) (K : Bytes) : valueOf o K =
    (objPairs o).foldl (fun x p => if bytes p.1 = K then some (bytes p.2) else x) none := by
  have hmap : ∀ (ps : List (List Ch × List Ch)) (x : Option Bytes), ps.foldl (fun x p =>
      if bytes p.1 = K then some (Value.str (bytes p.2)) else x) (x.map Value.str) =
      (ps.foldl (fun x p => if bytes p.1 = K then some (bytes p.2) else x) x).map Value.str := by
    intro ps
    induction ps with
    | nil => exact fun _ => rfl
    | cons p ps ih =>
      intro x
      rw [List.foldl_cons, List.foldl_cons, ← ih]
      split <;> rfl
  cases ho with
  | empty w => rfl
  | @members ms hms =>
    have h := find_denote hms K []
    rw [show find [] (Key.str K) = (none : Option Bytes).map Value.str from rfl, hmap] at h
    unfold valueOf
    rw [Cst.denote]
    dsimp only
    rw [h, show objPairs (.obj ms) = pairs ms from rfl]
    generalize (pairs ms).foldl (fun x p => if bytes p.1 = K then some (bytes p.2) else x) none = x
    cases x <;> rfl

section
variable {a b ps : List (List Ch × List Ch)} {k : List Ch}

theorem foldl_absent (h : ∀ p ∈ ps, bytes p.1 ≠ K) (x : Option Bytes) :
    ps.foldl (fun x p => if bytes p.1 = K then some (bytes p.2) else x) x = x := by
  induction ps generalizing x with
  | nil => rfl
  | cons p ps ih =>
    rw [List.foldl_cons, if_neg (h p List.mem_cons_self)]
    exact ih (fun q hq => h q (List.mem_cons_of_mem p hq)) x

/-- the value of a key that stands at one place -/
theorem foldl_present (hk : bytes k = K) (hb : ∀ p ∈ b, bytes p.1 ≠ K) :
    (a ++ (k, v) :: b).foldl (fun x p => if bytes p.1 = K then some (bytes p.2) else x) none =
      some (bytes v) := by
  rw [List.foldl_append, List.foldl_cons, if_pos hk]
  exact foldl_absent hb _

/-- a key that denotes another one does not look like it, unless it ends like it -/
theorem not_looks (hK : Plain K) (hne : bytes k ≠ K) (he : endsLike K k = false) :
    looksLike K k = false := by
  rw [looksLike, he, Bool.or_false, decide_eq_false]
  intro hc
  apply hne
  rw [bytes_of_chars (hc ▸ hK.backslash), hc]

theorem keyRead_absent (h : ∀ p ∈ ps, looksLike K p.1 = false) : keyRead K ps = none := by
  induction ps with
  | nil => rfl
  | cons p ps ih =>
    rw [keyRead, h p List.mem_cons_self, if_neg Bool.false_ne_true]
    split
    · rfl
    · exact ih fun q hq => h q (List.mem_cons_of_mem p hq)

/-- members in front of the key -/
theorem keyRead_front (ha : ∀ p ∈ a, looksLike K p.1 = false) : keyRead K (a ++ ps) =
    if a.any (fun p => looksLike K p.2) = true then none else keyRead K ps := by
  induction a with
  | nil => rfl
  | cons p a ih =>
    rw [List.cons_append, keyRead, ha p List.mem_cons_self, if_neg Bool.false_ne_true,
      ih fun q hq => ha q (List.mem_cons_of_mem p hq), List.any_cons]
    cases looksLike K p.2 <;> rfl

/-- no other member has the key -/
theorem others_ne (hn : (ps.map fun p => bytes p.1).Nodup) (hps : ps = a ++ (k, v) :: b)
    (hk : bytes k = K) : (∀ p ∈ a, bytes p.1 ≠ K) ∧ ∀ p ∈ b, bytes p.1 ≠ K := by
  rw [hps, List.map_append, List.map_cons, List.nodup_append, List.nodup_cons] at hn
  obtain ⟨-, ⟨hb, -⟩, hab⟩ := hn
  refine ⟨fun p hp he => ?_, fun p hp he => ?_⟩
  · exact hab _ (List.mem_map_of_mem hp) _ List.mem_cons_self (he.trans hk.symm)
  · exact hb (List.mem_map.mpr ⟨p, hp, he.trans hk.symm⟩)

end

/-- **With different keys**, none of which ends like the key behind an escaped quote, an object is
clear just if the key, where it is present, can be read directly. -/
theorem clear_iff_direct (hK : Plain K) {o : Cst} (ho : FlatObject o)
    (hn : ((objPairs o).map fun p => bytes p.1).Nodup)
    (he : ∀ p ∈ objPairs o, endsLike K p.1 = false) :
    Clear K o ↔ Direct K (objPairs o) := by
  have hval := valueOf_eq ho K
  have hlooks : ∀ p ∈ objPairs o, bytes p.1 ≠ K → looksLike K p.1 = false := fun p hp hne =>
    not_looks hK hne (he p hp)
  constructor
  · intro hc a k v b hps hk
    obtain ⟨ha, hb⟩ := others_ne hn hps hk
    rw [hps] at hval hlooks
    rw [foldl_present hk hb] at hval
    obtain ⟨v', hread, hl⟩ := hc.present _ hval
    rw [hps, keyRead_front fun p hp => hlooks p (List.mem_append_left _ hp) (ha p hp)] at hread
    split at hread
    · cases hread
    · rename_i hany
      have hbefore : ∀ p ∈ a, looksLike K p.2 = false := fun p hp =>
        Bool.eq_false_iff.mpr fun h => hany (List.any_eq_true.mpr ⟨p, hp, h⟩)
      have hin : (k, v) ∈ a ++ (k, v) :: b := List.mem_append_right a List.mem_cons_self
      have htail : keyRead K b = none := keyRead_absent fun p hp =>
        hlooks p (List.mem_append_right a (List.mem_cons_of_mem _ hp)) (hb p hp)
      rw [keyRead, htail] at hread
      by_cases hkc : chars k = K
      · have hlook : looksLike K k = true := by rw [looksLike, decide_eq_true hkc, Bool.true_or]
        rw [if_pos hlook] at hread
        obtain rfl := Option.some.inj hread
        exact ⟨hkc, (letters_eq_iff v).mp hl, hbefore⟩
      · have hend : endsLike K k = false := he (k, v) (hps ▸ hin)
        have hlook : ¬ looksLike K k = true := by
          rw [looksLike, hend, decide_eq_false hkc]
          exact Bool.false_ne_true
        rw [if_neg hlook] at hread
        split at hread <;> cases hread
  · intro hd
    have hsplit : ∀ p ∈ objPairs o, bytes p.1 = K →
        valueOf o K = some (bytes p.2) ∧ keyRead K (objPairs o) = some p.2 ∧
          letters p.2 = bytes p.2 := by
      rintro ⟨k, v⟩ hp hk
      obtain ⟨a, b, hps⟩ := List.append_of_mem hp
      obtain ⟨ha, hb⟩ := others_ne hn hps hk
      obtain ⟨hkc, hsimple, hbefore⟩ := hd a k v b hps hk
      have hlook : looksLike K k = true := by rw [looksLike, decide_eq_true hkc, Bool.true_or]
      have hany : ¬ (a.any fun p => looksLike K p.2) = true := by
        intro h
        obtain ⟨p, hp, hl⟩ := List.any_eq_true.mp h
        rw [hbefore p hp] at hl
        cases hl
      rw [hps] at hval hlooks
      refine ⟨hval.trans (foldl_present hk hb), ?_, (letters_eq_iff v).mpr hsimple⟩
      rw [hps, keyRead_front fun p hp => hlooks p (List.mem_append_left _ hp) (ha p hp),
        if_neg hany, keyRead, if_pos hlook]
    refine ⟨fun hnone => ?_, fun b hb => ?_⟩
    · refine keyRead_absent fun p hp => hlooks p hp fun hk => ?_
      rw [(hsplit p hp hk).1] at hnone
      cases hnone
    · by_cases hex : ∃ p ∈ objPairs o, bytes p.1 = K
      · obtain ⟨p, hp, hk⟩ := hex
        obtain ⟨hv, hread, hl⟩ := hsplit p hp hk
        exact ⟨p.2, hread, hl.trans (Option.some.inj (hv.symm.trans hb))⟩
      · have hno : ∀ p ∈ objPairs o, bytes p.1 ≠ K := fun p hp hk => hex ⟨p, hp, hk⟩
        rw [hval, foldl_absent hno] at hb
        cases hb

end

/-! ## manifests -/

/-- **Keys of flat objects.**  A plain key is read like by a parser if and only if the object is
clear for it; where it is for the keys of a manifest, so is the manifest. -/
theorem jsonGetStr_iff {o : Cst} (ho : FlatObject o) (w w' : List Ws) (dir : Option Bytes) :
    (∀ K, Plain K → (jsonGetStr (document w o w') K = valueOf o K ↔ Clear K o)) ∧
    ((∀ K ∈ manifestKeys, Clear K o) → pkgManifestParse (some (document w o w')) dir =
      manifestParse (valueOf o) (some (document w o w')) dir) := by
  refine ⟨fun K hK => read_iff_clear hK ho w w', fun hall => ?_⟩
  have hplain : ∀ K ∈ manifestKeys, Plain K := by
    have hcheck : manifestKeys.all (fun K => decide (34 ∉ K) && decide (92 ∉ K) &&
        decide (K.length ≤ 61) && K.any fun c => isGap c = false && decide (c ≠ 44)) = true := by
      decide
    intro K hK
    have h := List.all_eq_true.mp hcheck K hK
    simp only [Bool.and_eq_true, decide_eq_true_eq, List.any_eq_true] at h
    exact ⟨h.1.1.1, h.1.1.2, h.1.2, .inr h.2⟩
  have hget : ∀ K ∈ manifestKeys, jsonGetStr (document w o w') K = valueOf o K := fun K hK =>
    (read_iff_clear (hplain K hK) ho w w').mpr (hall K hK)
  have h1 := hget nameKey (by decide)
  have h2 := hget versionKey (by decide)
  have h3 := hget (ascii "entry") (by decide)
  have h4 := hget (ascii "description") (by decide)
  have h5 := hget (ascii "author") (by decide)
  unfold pkgManifestParse manifestParse
  rw [Option.getD_some, h1, h2, h3, h4, h5]

def rawStr (s : String) : List Ch := (ascii s).map Ch.raw

theorem rawStr_ok {s : String} (h : (ascii s).all (fun b => 32 ≤ b.toNat ∧ b.toNat < 128 ∧
    b ≠ 34 ∧ b ≠ 92) = true) : StrOk (rawStr s) :=
  .of_raw fun b hb => of_decide_eq_true (List.all_eq_true.mp h b hb)

/-- `{"name": "a"}` -/
def nameObject : Cst := .obj (.last [] (rawStr "name") [] [.space] (.str (rawStr "a")) [])

theorem nameObject_flat : FlatObject nameObject :=
  .members (.last (rawStr_ok (by decide)) (rawStr_ok (by decide)))

theorem jsonGetStr_name_object : FlatObject nameObject ∧
    jsonGetStr (document [] nameObject []) nameKey = valueOf nameObject nameKey := by
  have hvalue : valueOf nameObject nameKey = some (ascii "a") := by decide
  have hclear : Clear nameKey nameObject := by
    refine ⟨fun h => ?_, fun b hb => ⟨rawStr "a", rfl, ?_⟩⟩
    · rw [hvalue] at h
      cases h
    · exact Option.some.inj (hvalue.symm.trans hb)
  have hplain : Plain nameKey := ⟨by decide, by decide, by decide, .inr (by decide)⟩
  exact ⟨nameObject_flat, ((jsonGetStr_iff nameObject_flat [] [] none).1 nameKey hplain).mpr hclear⟩

/-- `{"author":"name","name":"x"}`: the value is found in place of the key -/
theorem jsonGetStr_misled :
    jsonGetStr (ascii "\x7b\"author\":\"name\",\"name\":\"x\"\x7d") nameKey = none ∧
    (let o := Cst.obj (.cons [] (rawStr "author") [] [] (.str (rawStr "name")) []
      (.last [] (rawStr "name") [] [] (.str (rawStr "x")) []))
    document [] o [] = ascii "\x7b\"author\":\"name\",\"name\":\"x\"\x7d" ∧
    valueOf o nameKey = some (ascii "x")) := by
  decide

end Manifest
end Package
end HolyPhp
