import HolyPhp.Package.Server

/-!
# The paths of the registry

* `packagePath`    what `send_package` reads;
* `publishPaths`   what `handle_publish` writes: the archive under two names, and the metadata;
* `InStore`        a file directly in the folder `store`;
* `Accepts`        `handle_publish` takes the archive for this name and version;
* `publish_inside_iff`  **`send_package` stays in the store, and `handle_publish` does so if and
                   only if** the version, which is not checked, has no slash and no backslash.

A path is a C string: it ends at a NUL.
-/

set_option linter.unusedVariables false
set_option autoImplicit false

namespace HolyPhp
namespace Package
open Arr hiding Key
open HolyPhp.Std
open Str hiding hpValToStr

/-- `$store . "/" . $name` -/
def storePath (name : Bytes) : Bytes := cstr (ascii "store/" ++ name)

/-- directly in the folder -/
def InStore (path : Bytes) : Prop :=
  ∃ f, path = ascii "store/" ++ f ∧ 47 ∉ f ∧ 92 ∉ f ∧ f ≠ ascii "." ∧ f ≠ ascii ".."

/-- `$path` of `send_package` -/
def packagePath (name : Bytes) : Option Bytes :=
  (sanitizeName name).map fun safe => storePath (dot safe hpx).bytes

section
variable (strtod : Bytes → Double) (junk : Nat → Val) (fromDouble : Double → Bytes)

/-- `$safe` and `$m["version"]` behind the checks of `handle_publish`, or `none` where it refuses;
the outer `none` does not return -/
def publishFields (fuel : Nat) (text : Bytes) : Option (Option (Hstr × Bytes)) :=
  (hpxFiles text fuel 0 (hpArrNew junk)).bind fun files =>
  (hpArrHas files (.str (some (ascii "hphp.json")))).bind fun has =>
  if !has then some none else
  (hpArrGet files (.str (some (ascii "hphp.json")))).bind fun json =>
  (hpbiJsonDecode strtod junk fromDouble fuel [] json).bind fun (m, h, _) =>
  if Clone.hpValEq strtod h m .null then some none else
  (issetVal h m (ascii "name")).bind fun hasName =>
  if !hasName then some none else
  (issetVal h m (ascii "version")).bind fun hasVersion =>
  if !hasVersion then some none else
  (elementVal h m (ascii "name")).bind fun name =>
  match sanitizeName (hpValToStr fromDouble name) with
  | none => some none
  | some safe => (elementVal h m (ascii "version")).map fun version =>
      some (safe, hpValToStr fromDouble version)

/-- the paths of the calls of `file_put_contents`; `$safe . ".hpx"` may have been appended in place
when the third is made -/
def publishPaths (fuel : Nat) (text : Bytes) : Option (List Bytes) :=
  if maxPackage < text.length then some []
  else (publishFields strtod junk fromDouble fuel text).map fun fields => match fields with
    | none => []
    | some (safe, version) =>
      [storePath (safe.bytes ++ ascii "-" ++ version ++ hpx), storePath (dot safe hpx).bytes,
        storePath (dot (afterDot safe hpx) (ascii ".json")).bytes]

/-- `$m` behind `json_decode` -/
def Manifest (text : Bytes) (h : Std.Heap) (m : Val) (fuel : Nat) : Prop :=
  ∃ files json rest, hpxFiles text fuel 0 (hpArrNew junk) = some files ∧
    hpArrHas files (.str (some (ascii "hphp.json"))) = some true ∧
    hpArrGet files (.str (some (ascii "hphp.json"))) = some json ∧
    hpbiJsonDecode strtod junk fromDouble fuel [] json = some (m, h, rest)

/-- the manifest of the archive has this name, which is safe, and this version -/
def Accepts (text name version : Bytes) : Prop :=
  SafeName name ∧ ∃ fuel h m n v, Manifest strtod junk fromDouble text h m fuel ∧
    Clone.hpValEq strtod h m .null = false ∧
    issetVal h m (ascii "name") = some true ∧ issetVal h m (ascii "version") = some true ∧
    elementVal h m (ascii "name") = some n ∧ elementVal h m (ascii "version") = some v ∧
    hpValToStr fromDouble n = name ∧ hpValToStr fromDouble v = version

end

section
variable {strtod : Bytes → Double} {junk : Nat → Val} {fromDouble : Double → Bytes} {fuel : Nat}
  {text name version s t p : Bytes} {safe : Hstr} {paths : List Bytes}

/-! ## the checks -/

/-- the two names of the archive that is stored -/
theorem archiveNames_eq : archiveNames strtod junk fromDouble fuel text =
    (publishFields strtod junk fromDouble fuel text).map (Option.map fun fields =>
      (fields.1.bytes ++ ascii "-" ++ fields.2 ++ hpx, (dot fields.1 hpx).bytes)) := by
  unfold archiveNames publishFields
  rw [Option.map_bind]
  refine Option.bind_congr fun files _ => ?_
  rw [Function.comp_apply, Option.map_bind]
  refine Option.bind_congr fun has _ => ?_
  rw [Function.comp_apply]
  split
  · rfl
  rw [Option.map_bind]
  refine Option.bind_congr fun json _ => ?_
  rw [Function.comp_apply, Option.map_bind]
  refine Option.bind_congr ?_
  rintro ⟨m, h, rest⟩ -
  rw [Function.comp_apply]
  dsimp only
  split
  · rfl
  rw [Option.map_bind]
  refine Option.bind_congr fun hasName _ => ?_
  rw [Function.comp_apply]
  split
  · rfl
  rw [Option.map_bind]
  refine Option.bind_congr fun hasVersion _ => ?_
  rw [Function.comp_apply]
  split
  · rfl
  rw [Option.map_bind]
  refine Option.bind_congr fun n _ => ?_
  rw [Function.comp_apply]
  cases sanitizeName (hpValToStr fromDouble n) with
  | none => rfl
  | some safe => cases elementVal h m (ascii "version") <;> rfl

theorem of_publishFields
    (h : publishFields strtod junk fromDouble fuel text = some (some (safe, version))) :
    Accepts strtod junk fromDouble text safe.bytes version := by
  unfold publishFields at h
  obtain ⟨files, hfiles, h⟩ := Option.bind_eq_some_iff.mp h
  obtain ⟨has, hhas, h⟩ := Option.bind_eq_some_iff.mp h
  cases has with
  | false => cases h
  | true =>
  obtain ⟨json, hjson, h⟩ := Option.bind_eq_some_iff.mp h
  obtain ⟨⟨m, heap, rest⟩, hm, h⟩ := Option.bind_eq_some_iff.mp h
  dsimp only [Bool.not_true, Bool.false_eq_true] at h
  split at h
  · cases h
  next hnull =>
  obtain ⟨hasName, hname, h⟩ := Option.bind_eq_some_iff.mp h
  cases hasName with
  | false => cases h
  | true =>
  obtain ⟨hasVersion, hversion, h⟩ := Option.bind_eq_some_iff.mp h
  cases hasVersion with
  | false => cases h
  | true =>
  obtain ⟨n, hn, h⟩ := Option.bind_eq_some_iff.mp h
  split at h
  · cases h
  · next safe' hs =>
    obtain ⟨v, hv, he⟩ := Option.map_eq_some_iff.mp h
    cases he
    obtain ⟨hsafe, hb⟩ := of_sanitizeName hs
    exact ⟨hb ▸ hsafe, fuel, heap, m, n, v, ⟨files, json, rest, hfiles, hhas, hjson, hm⟩,
      Bool.eq_false_iff.mpr hnull, hname, hversion, hn, hv, hb.symm, rfl⟩

theorem publishFields_of (h : Accepts strtod junk fromDouble text name version) :
    ∃ fuel safe, publishFields strtod junk fromDouble fuel text = some (some (safe, version)) ∧
      safe.bytes = name := by
  obtain ⟨hsafe, fuel, heap, m, n, v, ⟨files, json, rest, hfiles, hhas, hjson, hm⟩, hnull, hname,
    hversion, hn, hv, rfl, rfl⟩ := h
  obtain ⟨safe, hs, hb⟩ := sanitizeName_of hsafe
  refine ⟨fuel, safe, ?_, hb⟩
  rw [publishFields, hfiles, Option.bind_some, hhas, Option.bind_some, if_neg (by decide), hjson,
    Option.bind_some, hm, Option.bind_some]
  dsimp only
  rw [hnull, if_neg Bool.false_ne_true, hname, Option.bind_some, if_neg (by decide), hversion,
    Option.bind_some, if_neg (by decide), hn, Option.bind_some, hs, hv]
  rfl

/-! ## paths -/

theorem cstr_append (h : 0 ∉ s) (t : Bytes) : cstr (s ++ t) = s ++ cstr t :=
  List.takeWhile_append_of_pos fun c hc => by
    rw [decide_eq_true_eq]
    rintro rfl
    exact h hc

/-- a byte that the text in front and behind do not have -/
theorem mem_cstr_around {b : UInt8} (hs : 0 ∉ s) (hb : b ∉ s) (hr : b ∉ t) (v : Bytes) :
    b ∈ cstr (s ++ v ++ t) ↔ b ∈ cstr v := by
  rw [List.append_assoc, cstr_append hs, List.mem_append, or_iff_right hb, cstr,
    List.takeWhile_append]
  split
  · next hv =>
    have hall : cstr v = v := (List.takeWhile_prefix _).eq_of_length hv
    rw [List.mem_append, or_iff_left fun h => hr (List.takeWhile_subset _ h), hall]
  · exact Iff.rfl

theorem storePath_eq (name : Bytes) : storePath name = ascii "store/" ++ cstr name :=
  cstr_append (by decide) name

theorem safe_dots {c : UInt8} (h : isSafeByte c = true) : c ≠ 46 ∧ c ≠ 92 := by
  constructor <;> (rintro rfl; cases h)

/-- **A file that is named after a package** is in the store as far as the rest of its name goes. -/
theorem inStore_iff (hn : SafeName name) :
    InStore (storePath (name ++ t)) ↔ 47 ∉ cstr t ∧ 92 ∉ cstr t := by
  have h0 : 0 ∉ name := hn.clean 0 (by simp)
  have h47 : 47 ∉ name := hn.clean 47 (by simp)
  have h92 : 92 ∉ name := fun h => (safe_dots (hn.2 92 h)).2 rfl
  rw [storePath_eq, cstr_append h0]
  constructor
  · rintro ⟨f, hf, hslash, hback, -⟩
    obtain rfl := List.append_cancel_left hf
    rw [List.mem_append, not_or] at hslash hback
    exact ⟨hslash.2, hback.2⟩
  · rintro ⟨hslash, hback⟩
    refine ⟨_, rfl, ?_, ?_, ?_⟩
    · rw [List.mem_append, not_or]
      exact ⟨h47, hslash⟩
    · rw [List.mem_append, not_or]
      exact ⟨h92, hback⟩
    · obtain ⟨c, l, rfl⟩ := List.exists_cons_of_ne_nil hn.1
      have hc := (safe_dots (hn.2 c List.mem_cons_self)).1
      exact ⟨fun h => hc (List.cons.inj h).1, fun h => hc (List.cons.inj h).1⟩

theorem packagePath_inStore (h : packagePath name = some p) : InStore p := by
  obtain ⟨safe, hs, rfl⟩ := Option.map_eq_some_iff.mp h
  obtain ⟨hn, hb⟩ := of_sanitizeName hs
  rw [dot_bytes, hb]
  exact (inStore_iff hn).mpr (by decide)

/-- with the last letters appended to `$safe` or not -/
theorem afterDot_bytes (s : Hstr) (t : Bytes) :
    (afterDot s t).bytes = s.bytes ∨ (afterDot s t).bytes = s.bytes ++ t := by
  unfold afterDot
  split
  · next h => exact .inr (Hstr.push_of_room h).1
  · exact .inl rfl

/-- the paths of an archive that is taken -/
theorem fields_inStore (hn : SafeName safe.bytes) :
    (∀ p ∈ [storePath (safe.bytes ++ ascii "-" ++ version ++ hpx), storePath (dot safe hpx).bytes,
      storePath (dot (afterDot safe hpx) (ascii ".json")).bytes], InStore p) ↔
    47 ∉ cstr version ∧ 92 ∉ cstr version := by
  have hfirst : InStore (storePath (safe.bytes ++ ascii "-" ++ version ++ hpx)) ↔
      47 ∉ cstr version ∧ 92 ∉ cstr version := by
    rw [List.append_assoc, List.append_assoc, inStore_iff hn, ← List.append_assoc,
      mem_cstr_around (by decide) (by decide) (by decide),
      mem_cstr_around (by decide) (by decide) (by decide)]
  have hsecond : InStore (storePath (dot safe hpx).bytes) := by
    rw [dot_bytes]
    exact (inStore_iff hn).mpr (by decide)
  have hthird : InStore (storePath (dot (afterDot safe hpx) (ascii ".json")).bytes) := by
    rw [dot_bytes]
    rcases afterDot_bytes safe hpx with h | h
    · rw [h]
      exact (inStore_iff hn).mpr (by decide)
    · rw [h, List.append_assoc]
      exact (inStore_iff hn).mpr (by decide)
  constructor
  · intro h
    exact hfirst.mp (h _ List.mem_cons_self)
  · intro h p hp
    simp only [List.mem_cons, List.not_mem_nil, or_false] at hp
    rcases hp with rfl | rfl | rfl
    · exact hfirst.mpr h
    · exact hsecond
    · exact hthird

end

/-! ## publishing -/

section
variable (strtod : Bytes → Double) (junk : Nat → Val) (fromDouble : Double → Bytes)

/-- every path that `handle_publish` writes for this upload -/
def PublishesInside (text : Bytes) : Prop :=
  ∀ fuel paths, publishPaths strtod junk fromDouble fuel text = some paths → ∀ p ∈ paths, InStore p

/-- **Fetching stays in the store, and publishing does as far as versions do.** -/
theorem publish_inside_iff :
    (∀ req name p, route req = .pkg name → packagePath name = some p → InStore p) ∧
    ∀ text, PublishesInside strtod junk fromDouble text ↔ (text.length ≤ maxPackage →
      ∀ name version, Accepts strtod junk fromDouble text name version →
        47 ∉ cstr version ∧ 92 ∉ cstr version) := by
  refine ⟨fun _ _ _ _ h => packagePath_inStore h, ?_⟩
  intro text
  constructor
  · intro h hlen name version ha
    obtain ⟨fuel, safe, hf, rfl⟩ := publishFields_of ha
    refine (fields_inStore ha.1).mp (h fuel _ ?_)
    rw [publishPaths, if_neg (Nat.not_lt.mpr hlen), hf]
    rfl
  · intro h fuel paths hpaths
    unfold publishPaths at hpaths
    split at hpaths
    · cases hpaths
      exact fun p hp => nomatch hp
    · next hlen =>
      obtain ⟨fields, hf, rfl⟩ := Option.map_eq_some_iff.mp hpaths
      rcases fields with _ | ⟨safe, version⟩
      · exact fun p hp => nomatch hp
      · have ha := of_publishFields hf
        exact (fields_inStore ha.1).mpr (h (Nat.le_of_not_lt hlen) _ _ ha)

end

/-- a package whose version leads two folders up -/
def outside : Bytes :=
  ascii "hphp.json 36\n\x7b\"name\":\"a\",\"version\":\"\\\\..\\\\..\\\\x\"\x7d"

theorem outside_escapes : ¬ ∀ (strtod : Bytes → Double) (junk : Nat → Val)
    (fromDouble : Double → Bytes) (text : Bytes), PublishesInside strtod junk fromDouble text := by
  intro h
  have hp : publishPaths (fun _ => ⟨0⟩) (fun _ => .null) (fun _ => []) 60 outside =
      some [ascii "store/a-\\..\\..\\x.hpx", ascii "store/a.hpx", ascii "store/a.hpx.json"] := by
    decide +kernel
  obtain ⟨f, hf, -, h92, -⟩ := h _ _ _ outside 60 _ hp _ List.mem_cons_self
  have hf' : ascii "store/" ++ ascii "a-\\..\\..\\x.hpx" = ascii "store/" ++ f := hf
  rw [← List.append_cancel_left hf'] at h92
  exact h92 (by decide)

end Package
end HolyPhp
