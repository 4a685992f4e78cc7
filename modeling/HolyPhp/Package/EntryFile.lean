import HolyPhp.Package.InstallFile

/-!
# The entry of an installed package

`pkg_install_file` reads the entry of the manifest with `json_get_str`; `pkg_import_candidate` looks
for it in the first 4095 bytes, between the next two quotes behind the key.

* `importEntry`, `pkgImportCandidate`  the import's reader, and the path that it gives;
* `Spells`           a string with backslashes, and what `json_get_str` makes of it;
* `SameEntry`        the texts in which both find the same entry, `sameEntry_iff`;
* `import_iff`       **the import finds the file that was checked if and only if** the text is one of
                     these, the package is found in the registry, and its name fits the buffer.
-/

set_option autoImplicit false

namespace HolyPhp
namespace Package
open Posix hiding Bytes
open Json hiding Bytes
open Manifest Substr

/-! ## the import -/

/-- `pkg_is_installed` -/
def pkgIsInstalled (registry : Option Bytes) (name : Bytes) : Bool :=
  (pkgRegistryRead registry).any fun e => e.name = name

def entryKey : Bytes := ascii "entry"

def dotHphp : Bytes := ascii ".hphp"

/-- what `fread` puts into the buffer of 4096, as a C string -/
def importText (file : Bytes) : Bytes := cString (file.take 4095)

/-- it is not empty, and fits the buffer of 256 -/
def entryFits (e : Bytes) : Bool := e ≠ [] && e.length < 256

/-- the entry, between the next two quotes behind the key -/
def importEntry (file : Bytes) : Option Bytes :=
  ((strstr (pattern entryKey) (importText file)).bind fun ek => between 34 (ek.drop 7)).filter
    entryFits

/-- the package of a path without slashes; `none` is one that does not fit the buffer -/
def stemOf (spec : Bytes) : Option Bytes :=
  if 5 < spec.length && dotHphp.isSuffixOf spec then
    if 128 ≤ spec.length - 5 then none else some (spec.take (spec.length - 5))
  else some spec

/-- `pkg_import_candidate` -/
def pkgImportCandidate (home : Bytes) (left : Left) (spec : Bytes) : Option Bytes :=
  match spec.dropWhile fun c => c ≠ 47 with
  | _ :: rest =>
    let pkg := spec.takeWhile fun c => c ≠ 47
    if pkg = [] || 128 ≤ pkg.length then none
    else if pkgIsInstalled left.registry pkg then some (pkgDirOf home pkg ++ 47 :: rest) else none
  | [] =>
    (stemOf spec).bind fun stem =>
      if pkgIsInstalled left.registry stem then
        let entry := match left.packages stem [manifestName] with
          | some (.file c) => importEntry c
          | _ => none
        some (pkgDirOf home stem ++ 47 :: entry.getD (stem ++ dotHphp))
      else none

/-! ## the condition -/

/-- a string that goes on like this is read as `v` -/
inductive Spells : Bytes → Bytes → Prop
  | ended : Spells [] []
  | quote (p : Bytes) : Spells (34 :: p) []
  | plain {c : UInt8} {p v : Bytes} : c ≠ 34 → c ≠ 92 → Spells p v → Spells (c :: p) (c :: v)
  | escaped {p v : Bytes} (c : UInt8) : Spells p v → Spells (92 :: c :: p) (c :: v)
  | last : Spells [92] [92]

/-- behind blanks there is a string -/
def StringBehind (after p : Bytes) : Prop :=
  ∃ gap, after = gap ++ 34 :: p ∧ ∀ c ∈ gap, isGap c = true

/-- behind the key, where the import sees `seen`: it takes the string that `json_get_str` reads, or
both are left with `d` -/
inductive SameBehind (d after seen : Bytes) : Prop
  | taken (gap v r : Bytes) : seen = gap ++ 34 :: (v ++ 34 :: r) → (∀ c ∈ gap, isGap c = true) →
      34 ∉ v → 92 ∉ v → v ≠ [] → v.length < 256 → SameBehind d after seen
  | default : (∀ p, StringBehind after p → Spells p d) →
      (∀ v, between 34 seen = some v → v = [] ∨ 256 ≤ v.length ∨ v = d) → SameBehind d after seen

/-- the manifests in which both find the same entry -/
def SameEntry (d text : Bytes) : Prop :=
  ∀ after, strstr (pattern entryKey) text = some (pattern entryKey ++ after) →
    SameBehind d after (after.take (4095 - (text.length - after.length)))

section
variable {p v after seen text file d gap w : Bytes} {c : UInt8}

theorem spells_strBody (p : Bytes) : Spells p (strBody p) := by
  induction p using strBody.induct with
  | case1 => exact .ended
  | case2 c p ih => exact .escaped c ih
  | case3 p h =>
    rw [strBody_quote]
    exact .quote p
  | case4 c p hesc hc ih =>
    by_cases h92 : c = 92
    · subst h92
      cases p with
      | nil => exact .last
      | cons c p => exact absurd rfl (hesc c p rfl)
    · rw [strBody_plain hc h92]
      exact .plain hc h92 ih

theorem spells_iff : Spells p v ↔ strBody p = v := by
  refine ⟨fun h => ?_, fun h => h ▸ spells_strBody p⟩
  induction h with
  | ended => rfl
  | quote p => exact strBody_quote p
  | plain h34 h92 _ ih => rw [strBody_plain h34 h92, ih]
  | escaped c _ ih => rw [strBody, ih]
  | last => rfl

theorem stringBehind_iff : StringBehind after p ↔ after.dropWhile isGap = 34 :: p := by
  constructor
  · rintro ⟨gap, rfl, hgap⟩
    exact (takeWhile_stop hgap fun c hc => by cases hc; rfl).2
  · intro h
    refine ⟨after.takeWhile isGap, ?_, fun c hc => List.mem_takeWhile_imp hc⟩
    rw [← h, List.takeWhile_append_dropWhile]

theorem gap_quote (h : ∀ c ∈ gap, isGap c = true) : 34 ∉ gap := by
  intro hq
  cases h 34 hq

/-- what `json_get_str` reads behind the key -/
def readString (after : Bytes) : Option Bytes :=
  match after.dropWhile isGap with
  | 34 :: p => some (strBody p)
  | _ => none

theorem readString_iff : readString after = some v ↔ ∃ p, StringBehind after p ∧ Spells p v := by
  simp only [stringBehind_iff, spells_iff]
  rw [readString]
  split
  · next p hp =>
    rw [hp]
    simp
  · next hne =>
    refine iff_of_false (fun h => nomatch h) ?_
    rintro ⟨p, hp, -⟩
    exact hne p hp

theorem entry_not_fits : entryFits v = false ↔ v = [] ∨ 256 ≤ v.length := by
  rw [entryFits, Bool.and_eq_false_iff, decide_eq_false_iff_not, decide_eq_false_iff_not,
    Classical.not_not, Nat.not_lt]

/-- the first two quotes stand in one place -/
theorem quotes_unique {a r p : Bytes} (ha : 34 ∉ a) (hgap : ∀ c ∈ gap, isGap c = true)
    (h : a ++ 34 :: r = gap ++ 34 :: p) : a = gap ∧ r = p := by
  have hpa := takeWhile_delim ha r
  rw [h, takeWhile_delim (gap_quote hgap)] at hpa
  subst hpa
  exact ⟨rfl, (List.cons.inj (List.append_cancel_left h)).2⟩

/-- **Behind the key.** -/
theorem sameBehind_iff (hseen : seen <+: after) : (readString after).getD d =
    ((between 34 seen).filter entryFits).getD d ↔ SameBehind d after seen := by
  obtain ⟨rest, rfl⟩ := hseen
  constructor
  · intro h
    cases hb : (between 34 seen).filter entryFits with
    | none =>
      rw [hb, Option.getD_none] at h
      refine .default (fun p hp => ?_) fun v hv => ?_
      · have hread := readString_iff.mpr ⟨p, hp, spells_strBody p⟩
        rw [hread, Option.getD_some] at h
        exact spells_iff.mpr h
      · rw [hv, Option.filter_eq_none_iff] at hb
        have hno := entry_not_fits.mp (Bool.eq_false_iff.mpr (hb v rfl))
        rcases hno with hno | hno
        exacts [.inl hno, .inr (.inl hno)]
    | some v =>
      obtain ⟨hv, hfit⟩ := Option.filter_eq_some_iff.mp hb
      rw [hb, Option.getD_some] at h
      obtain ⟨a, r, rfl, ha, hv34⟩ := between_iff.mp hv
      cases hread : readString (a ++ 34 :: (v ++ 34 :: r) ++ rest) with
      | none =>
        rw [hread, Option.getD_none] at h
        refine .default (fun p hp => ?_) fun w hw => ?_
        · rw [readString_iff.mpr ⟨p, hp, spells_strBody p⟩] at hread
          cases hread
        · obtain rfl := Option.some.inj (hv.symm.trans hw)
          exact .inr (.inr h.symm)
      | some w =>
        rw [hread, Option.getD_some] at h
        subst h
        obtain ⟨p, ⟨gap, hp, hgap⟩, hspells⟩ := readString_iff.mp hread
        rw [List.append_assoc, List.cons_append] at hp
        obtain ⟨rfl, rfl⟩ := quotes_unique ha hgap hp
        rw [List.append_assoc, List.cons_append] at hspells
        have h92 := (strBody_eq (spells_iff.mp hspells)).2
        have hne : ¬ (w = [] ∨ 256 ≤ w.length) := fun h => by
          rw [entry_not_fits.mpr h] at hfit
          cases hfit
        rw [not_or, Nat.not_le] at hne
        exact .taken a w r rfl hgap hv34 h92 hne.1 hne.2
  · rintro (⟨gap, v, r, rfl, hgap, h34, h92, hne, hlen⟩ | ⟨hstring, hquotes⟩)
    · have hfit : entryFits v = true := by
        rw [entryFits, decide_eq_true hne, decide_eq_true hlen]
        rfl
      have hb : between 34 (gap ++ 34 :: (v ++ 34 :: r)) = some v :=
        between_iff.mpr ⟨gap, r, rfl, gap_quote hgap, h34⟩
      have hread : readString (gap ++ 34 :: (v ++ 34 :: r) ++ rest) = some v := by
        refine readString_iff.mpr ⟨v ++ 34 :: (r ++ rest), ⟨gap, ?_, hgap⟩, ?_⟩
        · simp only [List.append_assoc, List.cons_append]
        · exact spells_iff.mpr (strBody_quoted h34 h92)
      rw [hread, hb, Option.filter_some, if_pos hfit]
    · have hleft : (readString (seen ++ rest)).getD d = d := by
        cases hread : readString (seen ++ rest) with
        | none => rfl
        | some w =>
          obtain ⟨p, hp, hspells⟩ := readString_iff.mp hread
          exact (spells_iff.mp hspells).symm.trans (spells_iff.mp (hstring p hp))
      have hright : ((between 34 seen).filter entryFits).getD d = d := by
        cases hb : (between 34 seen).filter entryFits with
        | none => rfl
        | some v =>
          obtain ⟨hv, hfit⟩ := Option.filter_eq_some_iff.mp hb
          rcases hquotes v hv with h | h | h
          · rw [entry_not_fits.mpr (.inl h)] at hfit
            cases hfit
          · rw [entry_not_fits.mpr (.inr h)] at hfit
            cases hfit
          · exact h
      rw [hleft, hright]

theorem pattern_append (K after : Bytes) : pattern K ++ after = 34 :: (K ++ 34 :: after) := by
  simp [pattern]

theorem entryKey_plain : Manifest.Plain entryKey :=
  ⟨by decide, by decide, by decide, .inr (by decide)⟩

/-- what both find in the whole text -/
theorem entries_behind (file : Bytes) {after : Bytes}
    (h : strstr (pattern entryKey) (cString file) = some (pattern entryKey ++ after)) :
    jsonGetStr (cString file) entryKey = readString after ∧ importEntry file =
      (between 34 (after.take (4095 - ((cString file).length - after.length)))).filter entryFits := by
  have hne : pattern entryKey ≠ [] := List.cons_ne_nil _ _
  have htext : importText file = (cString file).take 4095 := List.take_takeWhile.symm
  constructor
  · rw [jsonGetStr_pattern entryKey_plain, h, Option.bind_some, pattern_append, readBehind_match]
    rfl
  · rw [importEntry, htext, strstr_take hne h]
    congr 1
    split
    · rfl
    · next hlt =>
      rw [Nat.sub_eq_zero_of_le (Nat.le_of_lt (Nat.lt_of_not_le hlt))]
      rfl

/-- **Both find the same entry** in these texts. -/
theorem sameEntry_iff (file d : Bytes) :
    (jsonGetStr (cString file) entryKey).getD d = (importEntry file).getD d ↔
      SameEntry d (cString file) := by
  have hne : pattern entryKey ≠ [] := List.cons_ne_nil _ _
  cases h : strstr (pattern entryKey) (cString file) with
  | none =>
    have hread : jsonGetStr (cString file) entryKey = none := by
      rw [jsonGetStr_pattern entryKey_plain, h]
      rfl
    have himport : importEntry file = none := by
      have hcut : strstr (pattern entryKey) (importText file) = none := by
        have htext : importText file = (cString file).take 4095 := List.take_takeWhile.symm
        rw [htext, strstr_eq_none hne]
        rw [strstr_eq_none hne] at h
        exact fun h' => h (h'.trans (List.take_prefix _ _).isInfix)
      rw [importEntry, hcut]
      rfl
    rw [hread, himport]
    refine iff_of_true rfl fun after hafter => ?_
    rw [h] at hafter
    cases hafter
  | some k =>
    obtain ⟨after, rfl⟩ := (strstr_spec h).1
    obtain ⟨hread, himport⟩ := entries_behind file h
    rw [hread, himport, sameBehind_iff (List.take_prefix _ _)]
    constructor
    · intro hs after' h'
      rw [h] at h'
      obtain rfl := List.append_cancel_left (Option.some.inj h')
      exact hs
    · exact fun hs => hs after h

end

/-! ## the file that is imported -/

/-- `pkg_install_file` succeeds, and the package has the manifest that is read -/
structure Installs (sys : Machine) (h : PkgHome) (hpxPath d file : Bytes) (m : PkgManifest)
    (left : Left) : Prop where
  run : pkgInstallFile sys h hpxPath (some d) = some (.ok (m, left))
  parsed : pkgManifestParse (some (cString file)) (some (tmpInstall h.path)) = .ok m
  manifest : left.packages m.name [manifestName] = some (.file file)

/-- the file whose existence is checked -/
def entryPath (home : Bytes) (m : PkgManifest) : Bytes := pkgDirOf home m.name ++ 47 :: m.entry

section
variable {sys : Machine} {h : PkgHome} {hpxPath d file : Bytes} {m : PkgManifest} {left : Left}

theorem install_registry (hrun : pkgInstallFile sys h hpxPath (some d) = some (.ok (m, left))) :
    left.registry = some (pkgRegistryAdd h.registry m.name m.version) := by
  rw [pkgInstallFile] at hrun
  obtain ⟨r, -, hr⟩ := Option.bind_eq_some_iff.mp hrun
  split at hr
  · cases hr
  · split at hr
    · cases hr
    · next m' hm' =>
      rw [installNamed] at hr
      dsimp only at hr
      split at hr
      · obtain ⟨r', -, hr'⟩ := Option.map_eq_some_iff.mp hr
        split at hr'
        · cases hr'
        · split at hr'
          · cases hr'
          · split at hr'
            · cases hr'
            · cases hr'
              rfl
      · cases hr

theorem manifest_ok {js dir : Option Bytes} (hm : pkgManifestParse js dir = .ok m) :
    pkgNameOk m.name = true ∧
      m.entry = (jsonGetStr (js.getD []) entryKey).getD (m.name ++ dotHphp) := by
  unfold pkgManifestParse manifestParse at hm
  split at hm
  · cases hm
  · split at hm
    · split at hm
      · cases hm
      · next hok =>
        split at hm
        · cases hm
        · cases hm
          exact ⟨by simpa using hok, rfl⟩
    · cases hm

/-- a name of a package is its own stem -/
theorem stemOf_name (hn : pkgNameOk m.name = true) : stemOf m.name = some m.name := by
  have h46 : 46 ∉ m.name := fun h => by
    rw [pkgNameOk, Bool.and_eq_true] at hn
    cases List.all_eq_true.mp hn.2 46 h
  have hsuf : dotHphp.isSuffixOf m.name = false := by
    rw [Bool.eq_false_iff, Ne, List.isSuffixOf_iff_suffix]
    exact fun h => h46 (h.subset (by decide))
  rw [stemOf, hsuf, Bool.and_false]
  rfl

theorem stemOf_dotHphp (hn : pkgNameOk m.name = true) : stemOf (m.name ++ dotHphp) =
    if m.name.length < 128 then some m.name else none := by
  have hne : m.name ≠ [] := by
    rintro h
    rw [h] at hn
    cases hn
  have hpos := List.length_pos_iff.mpr hne
  have hsuf : dotHphp.isSuffixOf (m.name ++ dotHphp) = true :=
    List.isSuffixOf_iff_suffix.mpr (List.suffix_append _ _)
  have hlen : (m.name ++ dotHphp).length = m.name.length + 5 := List.length_append
  rw [stemOf, hsuf, Bool.and_true, hlen, decide_eq_true (by omega), if_pos rfl,
    Nat.add_sub_cancel, List.take_left]
  by_cases h : m.name.length < 128
  · rw [if_pos h, if_neg (Nat.not_le.mpr h)]
  · rw [if_neg h, if_pos (Nat.le_of_not_lt h)]

/-- what is found for a path without slashes -/
theorem candidate_iff (hi : Installs sys h hpxPath d file m left) {spec : Bytes} (h47 : 47 ∉ spec)
    (hs : stemOf spec = none ∨ stemOf spec = some m.name) :
    pkgImportCandidate h.path left spec = some (entryPath h.path m) ↔
      stemOf spec = some m.name ∧ pkgIsInstalled left.registry m.name = true ∧
        SameEntry (m.name ++ dotHphp) (cString file) := by
  have hslash : spec.dropWhile (fun c => c ≠ 47) = [] := by
    rw [List.dropWhile_eq_nil_iff]
    intro c hc
    apply decide_eq_true
    rintro rfl
    exact h47 hc
  have hentry := (manifest_ok hi.parsed).2
  rw [pkgImportCandidate, hslash]
  dsimp only
  rcases hs with hs | hs
  · rw [hs]
    exact iff_of_false (fun h => nomatch h) fun h => nomatch h.1
  · rw [hs, Option.bind_some, hi.manifest, ← sameEntry_iff]
    cases hin : pkgIsInstalled left.registry m.name with
    | false => exact iff_of_false (fun h => nomatch h) fun h => nomatch h.2.1
    | true =>
      rw [if_pos rfl]
      dsimp only
      rw [Option.some.injEq, entryPath, List.append_cancel_left_eq, List.cons.injEq, hentry]
      exact ⟨fun h => ⟨rfl, rfl, h.2.symm⟩, fun h => ⟨rfl, h.2.2.symm⟩⟩

/-- **The entry file.**  The import gives the path that was checked, for both spellings of the
package, if and only if its name fits the buffer, it is found in the registry, and the manifest is
one in which both find the same entry. -/
theorem import_iff (hi : Installs sys h hpxPath d file m left) :
    (∀ spec ∈ [m.name, m.name ++ dotHphp],
      pkgImportCandidate h.path left spec = some (entryPath h.path m)) ↔
    m.name.length < 128 ∧
      pkgIsInstalled (some (pkgRegistryAdd h.registry m.name m.version)) m.name = true ∧
      SameEntry (m.name ++ dotHphp) (cString file) := by
  obtain ⟨hn, -⟩ := manifest_ok hi.parsed
  have h47 : 47 ∉ m.name := fun h => by
    rw [pkgNameOk, Bool.and_eq_true] at hn
    cases List.all_eq_true.mp hn.2 47 h
  have h47' : 47 ∉ m.name ++ dotHphp := by
    rw [List.mem_append, not_or]
    exact ⟨h47, by decide⟩
  have hdot := stemOf_dotHphp hn
  have hshort : stemOf (m.name ++ dotHphp) = some m.name ↔ m.name.length < 128 := by
    rw [hdot]
    split
    · next hlt => exact iff_of_true rfl hlt
    · next hlt => exact iff_of_false (Option.some_ne_none _).symm hlt
  have hstem : stemOf (m.name ++ dotHphp) = none ∨ stemOf (m.name ++ dotHphp) = some m.name := by
    rw [hdot]
    split
    exacts [.inr rfl, .inl rfl]
  rw [List.forall_mem_cons, List.forall_mem_singleton, candidate_iff hi h47 (.inr (stemOf_name hn)),
    candidate_iff hi h47' hstem, hshort, install_registry hi.run]
  constructor
  · rintro ⟨-, hlen, hin, hsame⟩
    exact ⟨hlen, hin, hsame⟩
  · rintro ⟨hlen, hin, hsame⟩
    exact ⟨⟨stemOf_name hn, hin, hsame⟩, hlen, hin, hsame⟩

/-- an archive without directories is installed, if it has the entry -/
theorem installs_flat {es : List (Bytes × Bytes)} {c : Bytes} (hd : d.length < 2 ^ 63)
    (h₁ : entriesFrom sys.first d = some es) (h₂ : entriesFrom sys.second d = some es)
    (hflat : ∀ e ∈ es, unsafeName e.1 = false ∧ IsName e.1) (hnew : h.scratch = none)
    (htmp : mkdirDest sys (tmpInstall h.path) none = some Fs.empty)
    (hdir : mkdirDest sys (pkgDirOf h.path m.name) none = some Fs.empty)
    (hc : fileAt [manifestName] es = some file)
    (hm : pkgManifestParse (some (cString file)) (some (tmpInstall h.path)) = .ok m)
    (hfit : (h.packages m.name).all (itemsFit (pkgDirOf h.path m.name)) = true)
    (he : fileAt [m.entry] es = some c) (hname : IsName m.entry) (hdots : m.entry ≠ ascii "..") :
    ∃ left, Installs sys h hpxPath d file m left := by
  obtain ⟨scratch, dest, hall, hrun⟩ := @install_flat _ _ hpxPath _ _ _ _ hd h₁ h₂ hflat hnew
    htmp hdir hc hm hfit
  rw [entryChecked, readFileSoft_name hname hdots ((hall _).trans he)] at hrun
  refine ⟨_, hrun, hm, ?_⟩
  show (h.changed scratch m.name dest).packages m.name _ = _
  rw [changed_self, nodes_file, hall, hc]

end

/-! ## two manifests -/

/-- the package `a` with this manifest and a file with this name -/
def twoFiles (json name : Bytes) : List (Bytes × Bytes) := [(manifestName, json), (name, ascii "x")]

/-- `{"name":"a","version":"1","entry":"m.hphp"}` -/
def entryJson : Bytes :=
  ascii "\x7b\"name\":\"a\",\"version\":\"1\",\"entry\":\"m.hphp\"\x7d"

/-- `{"name":"a","version":"1","entry":null,"author":"b"}` -/
def nullJson : Bytes :=
  ascii "\x7b\"name\":\"a\",\"version\":\"1\",\"entry\":null,\"author\":\"b\"\x7d"

def entryManifest : PkgManifest := ⟨ascii "a", ascii "1", ascii "m.hphp", [], []⟩

def nullManifest : PkgManifest := ⟨ascii "a", ascii "1", ascii "a.hphp", [], ascii "b"⟩

theorem twoFiles_entries {json name rest : Bytes}
    (h1 : found 4096 (packText (twoFiles json name)) = .entry manifestName json rest)
    (h2 : found 4096 rest = .entry name (ascii "x") (ascii "HPHX1\n")) :
    entriesFrom 4096 (packText (twoFiles json name)) = some (twoFiles json name) := by
  have h3 : found 4096 (ascii "HPHX1\n") = .stop := by decide
  rw [entriesFrom_entry h1, entriesFrom_entry h2, entriesFrom_stop h3]
  rfl

theorem entryJson_installs : ∃ left, Installs machine olderHome (ascii "a.hpx")
    (packText (twoFiles entryJson (ascii "m.hphp"))) entryJson entryManifest left := by
  have hes := @twoFiles_entries entryJson (ascii "m.hphp")
    (packText [(ascii "m.hphp", ascii "x")]) (by decide) (by decide)
  exact installs_flat (by decide) hes hes (by decide) rfl rfl rfl rfl (by decide) (by decide) rfl
    ⟨by decide, by decide⟩ (by decide)

theorem import_iff_entry : ∃ left, Installs machine olderHome (ascii "a.hpx")
      (packText (twoFiles entryJson (ascii "m.hphp"))) entryJson entryManifest left ∧
    ((∀ spec ∈ [entryManifest.name, entryManifest.name ++ dotHphp],
      pkgImportCandidate olderHome.path left spec =
        some (entryPath olderHome.path entryManifest)) ↔
    entryManifest.name.length < 128 ∧
      pkgIsInstalled (some (pkgRegistryAdd olderHome.registry entryManifest.name
        entryManifest.version)) entryManifest.name = true ∧
      SameEntry (entryManifest.name ++ dotHphp) (cString entryJson)) := by
  obtain ⟨left, hi⟩ := entryJson_installs
  exact ⟨left, hi, import_iff hi⟩

/-- the import takes the next key for the entry -/
theorem import_misled : ¬ ∀ (sys : Machine) (h : PkgHome) (hpxPath d file : Bytes) (m : PkgManifest)
    (left : Left), Installs sys h hpxPath d file m left →
      ∀ spec ∈ [m.name, m.name ++ dotHphp],
        pkgImportCandidate h.path left spec = some (entryPath h.path m) := by
  intro hall
  have hes := @twoFiles_entries nullJson (ascii "a.hphp")
    (packText [(ascii "a.hphp", ascii "x")]) (by decide) (by decide)
  obtain ⟨left, hi⟩ := @installs_flat machine olderHome (ascii "a.hpx") _ _ nullManifest _ _
    (by decide) hes hes (by decide) rfl rfl rfl rfl (by decide) (by decide) rfl
    ⟨by decide, by decide⟩ (by decide)
  have hcand := hall _ _ _ _ _ _ _ hi nullManifest.name List.mem_cons_self
  have hsame := ((candidate_iff hi (by decide) (.inr rfl)).mp hcand).2.2
  exact absurd ((sameEntry_iff nullJson _).mpr hsame) (by decide)

end Package
end HolyPhp
