import HolyPhp.Package.ManifestJson
import HolyPhp.Package.RegistryRuns
import HolyPhp.Package.Unpack

/-!
# Installing an archive

`pkg_install_file` unpacks the archive into a scratch directory and reads the manifest that is there
then, deletes the package of that name, unpacks the archive once more, and writes the registry.

* `nodeAt`, `itemsFit`  the tree of a package, and that `pkg_remove_tree` finds all of it;
* `Machine`          what is not in the package home;
* `PkgHome`, `Left`  the package home before and afterwards;
* `pkgInstallFile`   `none`: the size of a line goes around the end of the addresses, or a path is cut
                     off when the old package is deleted;
* `AllOrNothing`     nothing is changed, or the archive is complete and installed;
* `Kept`             what is kept: **other packages always, the registry where it ends with an error,
                     and in a package that is installed are the last entries that were read**.
-/

set_option autoImplicit false

namespace HolyPhp
namespace Package
open Posix hiding Bytes
open Json hiding Bytes
open Manifest

/-! ## the package that is deleted -/

/-- what is at a path below -/
def nodeAt : List Bytes → SrcNode → Option (Node Bytes)
  | [], .file c => some (.file c)
  | [], .dir _ => some .dir
  | _ :: _, .file _ => none
  | x :: p, .dir es => (es.lookup x).bind (nodeAt p)

mutual

/-- the paths of what is below fit the buffer of `pkg_remove_tree`: nothing is left -/
def itemsFit (path : Bytes) : SrcNode → Bool
  | .file _ => true
  | .dir es => entriesFit path es

def entriesFit (path : Bytes) : List (Bytes × SrcNode) → Bool
  | [] => true
  | e :: es => (decide ((path ++ 47 :: e.1).length < 1024) && itemsFit (path ++ 47 :: e.1) e.2) &&
      entriesFit path es

end

/-! ## the package home -/

structure Machine where
  /-- the ends of the memory that the archive is read to, both times -/
  first : Nat
  second : Nat
  /-- whether a directory can be made -/
  makes : Bytes → Bool
  /-- what is read of a directory, and behind `..` -/
  other : Bytes → Option Bytes

structure PkgHome where
  path : Bytes
  /-- `cache/.tmp-install` -/
  scratch : Option (Fs Bytes)
  /-- `packages/` -/
  packages : Bytes → Option SrcNode
  registry : Option Bytes

structure Left where
  scratch : Option (Fs Bytes)
  packages : Bytes → List Bytes → Option (Node Bytes)
  registry : Option Bytes

/-- `hphp.json` -/
def manifestName : Bytes := ascii "hphp.json"

/-- `pkg_dir_of` -/
def pkgDirOf (home name : Bytes) : Bytes := home ++ (ascii "/packages/" ++ name)

def tmpInstall (home : Bytes) : Bytes := home ++ ascii "/cache/.tmp-install"

/-- a C string -/
def cString (s : Bytes) : Bytes := s.takeWhile fun c => c ≠ 0

def nodes (dest : Option (Fs Bytes)) (p : List Bytes) : Option (Node Bytes) :=
  dest.bind fun fs => fs.node p

namespace PkgHome
variable (h : PkgHome)

def nodes (name : Bytes) (p : List Bytes) : Option (Node Bytes) := (h.packages name).bind (nodeAt p)

/-- nothing but the scratch directory has changed -/
def unchanged (scratch : Option (Fs Bytes)) : Left := ⟨scratch, h.nodes, h.registry⟩

/-- and the package `name` -/
def changed (scratch : Option (Fs Bytes)) (name : Bytes) (dest : Option (Fs Bytes)) : Left :=
  ⟨scratch, Function.update h.nodes name (Package.nodes dest), h.registry⟩

end PkgHome

/-! ## `pkg_install_file` -/

section
variable (sys : Machine)

/-- `mkdir_p` of the destination -/
def mkdirDest (dir : Bytes) : Option (Fs Bytes) → Option (Fs Bytes)
  | some fs => some fs
  | none => if dir.length < 1024 && sys.makes dir then some Fs.empty else none

/-- how `pkg_extract` ends -/
def Unpacked.ending : Unpacked → Except (Bytes × Option (Fs Bytes)) (Option (Fs Bytes) × Nat)
  | .done dest files => .ok (dest, files)
  | .unwritten path dest => .error (ascii "cannot write " ++ path, dest)

/-- `pkg_extract` into a directory -/
def pkgExtractTo (fin : Nat) (dir : Bytes) (dest : Option (Fs Bytes)) (hpxPath : Bytes)
    (hpx : Option Bytes) : Option (Except (Bytes × Option (Fs Bytes)) (Option (Fs Bytes) × Nat)) :=
  match hpx.bind readAll with
  | none => some (.error (ascii "cannot read " ++ hpxPath, dest))
  | some d => (unpackFrom fin dir (mkdirDest sys dir dest) 0 d).map Unpacked.ending

/-- `read_file_soft` of `dir/rel` -/
def readFileSoft (dir : Bytes) (node : List Bytes → Option (Node Bytes)) (rel : Bytes) :
    Option Bytes :=
  if ascii ".." ∈ splitSlash rel then sys.other (dir ++ 47 :: rel)
  else match node (resolve rel) with
    | some (.file c) => if (splitSlash rel).getLast?.all leads then some c else none
    | some .dir => sys.other (dir ++ 47 :: rel)
    | none => none

def pkgReadManifestOf (dir : Bytes) (node : List Bytes → Option (Node Bytes)) :
    Except Bytes PkgManifest :=
  match readFileSoft sys dir node manifestName with
  | none => .error (dir ++ ascii ": missing hphp.json")
  | some js => pkgManifestParse (some (cString js)) (some dir)

def emptyText (hpxPath : Bytes) : Bytes := hpxPath ++ ascii ": empty package"

def missingText (m : PkgManifest) : Bytes :=
  m.name ++ (ascii ": package entry \"" ++ (m.entry ++
    ascii "\" missing (rename it or set \"entry\" in hphp.json)"))

/-- behind the manifest -/
def installNamed (h : PkgHome) (hpxPath : Bytes) (hpx : Option Bytes) (scratch : Option (Fs Bytes))
    (m : PkgManifest) : Option (Except (Bytes × Left) (PkgManifest × Left)) :=
  let destdir := pkgDirOf h.path m.name
  if (h.packages m.name).all (itemsFit destdir) then
    (pkgExtractTo sys sys.second destdir (mkdirDest sys destdir none) hpxPath hpx).map fun
      | .error (text, dest) => .error (text, h.changed scratch m.name dest)
      | .ok (dest, files) =>
        let left := h.changed scratch m.name dest
        if files = 0 then .error (emptyText hpxPath, left)
        else match readFileSoft sys destdir (nodes dest) m.entry with
          | none => .error (missingText m, left)
          | some _ =>
            .ok (m, { left with registry := some (pkgRegistryAdd h.registry m.name m.version) })
  else none

/-- the error text or the manifest, and what is there then -/
def pkgInstallFile (h : PkgHome) (hpxPath : Bytes) (hpx : Option Bytes) :
    Option (Except (Bytes × Left) (PkgManifest × Left)) :=
  let tmp := tmpInstall h.path
  (pkgExtractTo sys sys.first tmp h.scratch hpxPath hpx).bind fun
    | .error (text, scratch) => some (.error (text, h.unchanged scratch))
    | .ok (scratch, _) =>
      match pkgReadManifestOf sys tmp (nodes scratch) with
      | .error text => some (.error (text, h.unchanged scratch))
      | .ok m => installNamed sys h hpxPath hpx scratch m

end

/-! ## what is kept -/

/-- the manifest that is used, where the archive has one -/
def ManifestOf (h : PkgHome) (es : List (Bytes × Bytes)) (m : PkgManifest) : Prop :=
  ∀ c, fileAt [manifestName] (taken es) = some c →
    pkgManifestParse (some (cString c)) (some (tmpInstall h.path)) = .ok m

/-- the errors that come when the old package is gone -/
def Late (h : PkgHome) (hpxPath : Bytes) (m : PkgManifest) (text : Bytes) : Prop :=
  (∃ name, text = ascii "cannot write " ++ (pkgDirOf h.path m.name ++ 47 :: name)) ∨
    text = emptyText hpxPath ∨ text = missingText m

/-- the entries of the registry, with the one of the package -/
def EntryAdded (old : List InstalledPkg) (m : PkgManifest) (new : List InstalledPkg) : Prop :=
  ∀ e, e ∈ new ↔ e = ⟨m.name, m.version⟩ ∨ e ∈ old ∧ e.name ≠ m.name

/-- what is kept when an archive with these entries is installed -/
def Kept (h : PkgHome) (hpxPath : Bytes) (es : List (Bytes × Bytes)) :
    Except (Bytes × Left) (PkgManifest × Left) → Prop
  | .error (text, left) => left.registry = h.registry ∧ (left.packages = h.nodes ∨
      ∃ m, ManifestOf h es m ∧ Late h hpxPath m text ∧
        ∀ n, n ≠ m.name → left.packages n = h.nodes n)
  | .ok (m, left) => ManifestOf h es m ∧ (∀ n, n ≠ m.name → left.packages n = h.nodes n) ∧
      (∀ p c, left.packages m.name p = some (.file c) ↔ fileAt p (taken es) = some c) ∧
      ∃ ls, left.registry = some (fileText ls) ∧
        EntryAdded (pkgRegistryRead h.registry) m (ls.map Prod.fst)

/-- an archive up to its end line, and its files -/
def Complete (d : Bytes) (es : List (Bytes × Bytes)) : Prop := ∃ rest, d = packText es ++ rest

/-- nothing has changed, or the archive is complete, and what it has is installed -/
def AllOrNothing (h : PkgHome) (d : Bytes) : Except (Bytes × Left) (PkgManifest × Left) → Prop
  | .error (_, left) => left.packages = h.nodes ∧ left.registry = h.registry
  | .ok (m, left) => ∃ es, Complete d es ∧
      (∃ c dir, fileAt [manifestName] es = some c ∧ pkgManifestParse (some (cString c)) dir = .ok m) ∧
      (∀ n, n ≠ m.name → left.packages n = h.nodes n) ∧
      (∀ p c, left.packages m.name p = some (.file c) ↔ fileAt p es = some c) ∧
      ∀ e : InstalledPkg, e.name ≠ m.name →
        (e ∈ pkgRegistryRead left.registry ↔ e ∈ pkgRegistryRead h.registry)

section
variable {sys : Machine} {h : PkgHome} {hpxPath d dir text c : Bytes} {es : List (Bytes × Bytes)}
  {fin files : Nat} {dest : Option (Fs Bytes)} {m : PkgManifest} {p : List Bytes}

theorem pkgExtractTo_run (hd : d.length < 2 ^ 63) (h : entriesFrom fin d = some es) :
    pkgExtractTo sys fin dir dest hpxPath (some d) =
      some (runEntries dir (mkdirDest sys dir dest) 0 es).ending := by
  have hread : (some d).bind readAll = some d := if_pos hd
  rw [pkgExtractTo, hread]
  show Option.map _ _ = _
  rw [unpackFrom_run h]
  rfl

theorem runEntries_unwritten {files : Nat} {path : Bytes} {d : Option (Fs Bytes)}
    (h : runEntries dir dest files es = .unwritten path d) : ∃ name, path = dir ++ 47 :: name := by
  induction es generalizing dest files with
  | nil => cases h
  | cons e es ih =>
    rw [runEntries] at h
    split at h
    · exact ih h
    · split at h
      · cases h
        exact ⟨e.1, rfl⟩
      · exact ih h

theorem nodes_file : nodes dest p = some (.file c) ↔ contentAt dest p = some c := by
  cases dest with
  | none => exact iff_of_false (fun h => nomatch h) fun h => nomatch h
  | some fs => exact contentAt_iff.symm

/-- a file of the directory itself -/
theorem readFileSoft_name {x : Bytes} (hx : IsName x) (hdots : x ≠ ascii "..")
    (h : contentAt dest [x] = some c) : readFileSoft sys dir (nodes dest) x = some c := by
  have hsplit := splitSlash_name hx.noSlash
  have hres : resolve x = [x] := by
    rw [resolve, hsplit, List.filter_cons_of_pos hx.leads, List.filter_nil]
  have hlast : (splitSlash x).getLast?.all leads = true := by
    rw [hsplit]
    exact hx.leads
  rw [readFileSoft, hres, nodes_file.mpr h, hlast, if_neg]
  · rfl
  · rw [hsplit, List.mem_singleton]
    exact Ne.symm hdots

theorem readFileSoft_manifest (h : contentAt dest [manifestName] = some c) :
    readFileSoft sys dir (nodes dest) manifestName = some c :=
  readFileSoft_name ⟨by decide, by decide⟩ (by decide) h

/-- the manifest is that of the archive, where it has one -/
theorem manifestOf_read {old : Option (Fs Bytes)}
    (h : runEntries dir old 0 es = .done dest files)
    (hm : pkgReadManifestOf sys dir (nodes dest) = .ok m)
    (hc : fileAt [manifestName] (taken es) = some c) :
    pkgManifestParse (some (cString c)) (some dir) = .ok m := by
  have hcontent := run_content h [manifestName]
  rw [hc, Option.some_or] at hcontent
  rw [pkgReadManifestOf, readFileSoft_manifest hcontent] at hm
  exact hm

theorem mkdirDest_content (p : List Bytes) : contentAt (mkdirDest sys dir none) p = none := by
  rw [mkdirDest]
  split
  · exact Option.eq_none_iff_forall_ne_some.mpr fun c hc => Fs.empty_file p c (contentAt_iff.mp hc)
  · rfl

theorem pkgRegistryAdd_entries (file : Option Bytes) (m : PkgManifest) :
    ∃ ls, pkgRegistryAdd file m.name m.version = fileText ls ∧
      EntryAdded (pkgRegistryRead file) m (ls.map Prod.fst) := by
  refine ⟨_, rfl, fun e => ?_⟩
  by_cases hm : m.name ∈ (pkgRegistryRead file).map InstalledPkg.name
  · rw [addLines_old hm, List.mem_map]
    constructor
    · rintro ⟨e', he', rfl⟩
      by_cases hn : e'.name = m.name
      · exact .inl (upgrade_self hn)
      · rw [upgrade_ne hn]
        exact .inr ⟨he', hn⟩
    · rintro (rfl | ⟨he, hn⟩)
      · obtain ⟨e', he', hn⟩ := List.mem_map.mp hm
        exact ⟨e', he', upgrade_self hn⟩
      · exact ⟨e, he, upgrade_ne hn⟩
  · rw [addLines_new hm, List.mem_append, List.mem_singleton]
    constructor
    · rintro (he | rfl)
      · exact .inr ⟨he, fun hn => hm (hn ▸ List.mem_map_of_mem he)⟩
      · exact .inl rfl
    · rintro (rfl | ⟨he, -⟩)
      · exact .inr rfl
      · exact .inl he

theorem changed_other (scratch : Option (Fs Bytes)) {n name : Bytes} (hn : n ≠ name) :
    (h.changed scratch name dest).packages n = h.nodes n := Function.update_of_ne hn _ _

theorem changed_self (scratch : Option (Fs Bytes)) (name : Bytes) :
    (h.changed scratch name dest).packages name = nodes dest := Function.update_self _ _ _

/-- behind the manifest -/
theorem installNamed_kept (hd : d.length < 2 ^ 63) (hes : entriesFrom sys.second d = some es)
    (hfit : (h.packages m.name).all (itemsFit (pkgDirOf h.path m.name)) = true)
    (hm : ManifestOf h es m) (scratch : Option (Fs Bytes)) :
    ∃ r, installNamed sys h hpxPath (some d) scratch m = some r ∧ Kept h hpxPath es r := by
  have hlate : ∀ text dest, Late h hpxPath m text →
      Kept h hpxPath es (.error (text, h.changed scratch m.name dest)) := fun text dest hl =>
    ⟨rfl, .inr ⟨m, hm, hl, fun n hn => changed_other scratch hn⟩⟩
  rw [installNamed]
  dsimp only
  rw [if_pos hfit, pkgExtractTo_run hd hes, Option.map_some]
  refine ⟨_, rfl, ?_⟩
  cases hr : runEntries (pkgDirOf h.path m.name) (mkdirDest sys (pkgDirOf h.path m.name)
      (mkdirDest sys (pkgDirOf h.path m.name) none)) 0 es with
  | unwritten path dest =>
    obtain ⟨name, rfl⟩ := runEntries_unwritten hr
    exact hlate _ dest (.inl ⟨name, rfl⟩)
  | done dest files =>
    dsimp only [Unpacked.ending]
    by_cases hf : files = 0
    · rw [if_pos hf]
      exact hlate _ dest (.inr (.inl rfl))
    rw [if_neg hf]
    cases readFileSoft sys (pkgDirOf h.path m.name) (nodes dest) m.entry with
    | none => exact hlate _ dest (.inr (.inr rfl))
    | some c =>
      obtain ⟨ls, hls, hadded⟩ := pkgRegistryAdd_entries h.registry m
      refine ⟨hm, fun n hn => changed_other scratch hn, fun p c => ?_, ls, congrArg some hls, hadded⟩
      have hself := @changed_self h dest scratch m.name
      have hempty : contentAt (mkdirDest sys (pkgDirOf h.path m.name)
          (mkdirDest sys (pkgDirOf h.path m.name) none)) p = none := by
        cases hmk : mkdirDest sys (pkgDirOf h.path m.name) none with
        | none => exact mkdirDest_content p
        | some fs => rw [mkdirDest, ← hmk, mkdirDest_content]
      show (h.changed scratch m.name dest).packages m.name p = _ ↔ _
      rw [hself, nodes_file, run_content hr p, hempty, Option.or_none]

/-- **Installing.**  Where it ends with an error, the registry and the other packages are as they
were, and also the package itself, until it is deleted; where it succeeds, the package has the
files of the archive. -/
theorem install_kept (hpxPath : Bytes) (h₁ : entriesFrom sys.first d = some es)
    (h₂ : entriesFrom sys.second d = some es)
    (hfit : ∀ n t, h.packages n = some t → itemsFit (pkgDirOf h.path n) t = true) :
    ∃ r, pkgInstallFile sys h hpxPath (some d) = some r ∧ Kept h hpxPath es r := by
  have hearly : ∀ text scratch, Kept h hpxPath es (.error (text, h.unchanged scratch)) :=
    fun text scratch => ⟨rfl, .inl rfl⟩
  rw [pkgInstallFile]
  by_cases hd : d.length < 2 ^ 63
  · rw [pkgExtractTo_run hd h₁, Option.bind_some]
    cases hr : runEntries (tmpInstall h.path) (mkdirDest sys (tmpInstall h.path) h.scratch) 0 es with
    | unwritten path dest => exact ⟨_, rfl, hearly _ dest⟩
    | done dest files =>
      dsimp only [Unpacked.ending]
      cases hm : pkgReadManifestOf sys (tmpInstall h.path) (nodes dest) with
      | error text => exact ⟨_, rfl, hearly text dest⟩
      | ok m =>
        refine installNamed_kept hd h₂ ?_ (fun c hc => manifestOf_read hr hm hc) dest
        cases ht : h.packages m.name with
        | none => rfl
        | some t => exact hfit m.name t ht
  · have hread : (some d).bind readAll = none := if_neg hd
    rw [pkgExtractTo, hread]
    exact ⟨_, rfl, hearly _ h.scratch⟩

end

/-! ## archives without directories -/

section
variable {sys : Machine} {h : PkgHome} {hpxPath d c : Bytes} {es : List (Bytes × Bytes)}
  {m : PkgManifest}

/-- how installing ends, where nothing stops it -/
def entryChecked (sys : Machine) (h : PkgHome) (m : PkgManifest) (left : Left)
    (dest : Option (Fs Bytes)) : Except (Bytes × Left) (PkgManifest × Left) :=
  match readFileSoft sys (pkgDirOf h.path m.name) (nodes dest) m.entry with
  | none => .error (missingText m, left)
  | some _ => .ok (m, { left with registry := some (pkgRegistryAdd h.registry m.name m.version) })

/-- an archive of safe names without slashes is stored into new directories -/
theorem install_flat (hd : d.length < 2 ^ 63) (h₁ : entriesFrom sys.first d = some es)
    (h₂ : entriesFrom sys.second d = some es)
    (hflat : ∀ e ∈ es, unsafeName e.1 = false ∧ IsName e.1)
    (hnew : h.scratch = none) (htmp : mkdirDest sys (tmpInstall h.path) none = some Fs.empty)
    (hdir : mkdirDest sys (pkgDirOf h.path m.name) none = some Fs.empty)
    (hc : fileAt [manifestName] es = some c)
    (hm : pkgManifestParse (some (cString c)) (some (tmpInstall h.path)) = .ok m)
    (hfit : (h.packages m.name).all (itemsFit (pkgDirOf h.path m.name)) = true) :
    ∃ scratch dest, (∀ p, contentAt dest p = fileAt p es) ∧
      pkgInstallFile sys h hpxPath (some d) =
        some (entryChecked sys h m (h.changed scratch m.name dest) dest) := by
  have htaken : taken es = es := List.filter_eq_self.mpr fun e he => by simp [(hflat e he).1]
  have hstore : ∀ dir, ∃ fs, runEntries dir (some Fs.empty) 0 es = .done (some fs) es.length ∧
      ∀ p, contentAt (some fs) p = fileAt p es := by
    intro dir
    obtain ⟨fs, hfs⟩ := @runEntries_flat dir 0 _ _ hflat fun _ => Fs.empty_dir
    rw [Nat.zero_add] at hfs
    refine ⟨fs, hfs, fun p => ?_⟩
    have hempty : contentAt (some Fs.empty) p = none :=
      Option.eq_none_iff_forall_ne_some.mpr fun c hc => Fs.empty_file p c (contentAt_iff.mp hc)
    rw [run_content hfs, htaken, hempty, Option.or_none]
  obtain ⟨scratch, hscratch, hcontent⟩ := hstore (tmpInstall h.path)
  obtain ⟨dest, hdest, hall⟩ := hstore (pkgDirOf h.path m.name)
  have hread : pkgReadManifestOf sys (tmpInstall h.path) (nodes (some scratch)) = .ok m := by
    rw [pkgReadManifestOf, readFileSoft_manifest ((hcontent _).trans hc)]
    exact hm
  have hfiles : es.length ≠ 0 := by
    intro hnil
    rw [List.eq_nil_of_length_eq_zero hnil] at hc
    cases hc
  refine ⟨some scratch, some dest, hall, ?_⟩
  rw [pkgInstallFile, pkgExtractTo_run hd h₁, hnew, htmp, hscratch, Option.bind_some]
  dsimp only [Unpacked.ending]
  rw [hread]
  dsimp only
  rw [installNamed]
  dsimp only
  rw [if_pos hfit, pkgExtractTo_run hd h₂, hdir, mkdirDest, hdest, Option.map_some]
  dsimp only [Unpacked.ending]
  rw [if_neg hfiles]
  rfl

end

/-! ## a package without its entry -/

def machine : Machine := ⟨4096, 4096, fun _ => true, fun _ => none⟩

/-- the package `a` with the file `a.hphp` -/
def olderHome : PkgHome where
  path := ascii "h"
  scratch := none
  packages n := if n = ascii "a" then some (.dir [(ascii "a.hphp", .file (ascii "x"))]) else none
  registry := none

def smallManifest : Bytes := ascii "\x7b\"name\":\"a\",\"version\":\"1\"\x7d"

/-- `hphp.json` alone -/
def loneManifest : Bytes := packText [(manifestName, smallManifest)]

theorem loneManifest_entries : entriesFrom 4096 loneManifest = some [(manifestName, smallManifest)] := by
  have h1 : found 4096 loneManifest = .entry manifestName smallManifest (ascii "HPHX1\n") := by decide
  have h2 : found 4096 (ascii "HPHX1\n") = .stop := by decide
  rw [entriesFrom_entry h1, entriesFrom_stop h2]
  rfl

theorem install_kept_lone : ∃ r,
    pkgInstallFile machine olderHome (ascii "a.hpx") (some loneManifest) = some r ∧
      Kept olderHome (ascii "a.hpx") [(manifestName, smallManifest)] r := by
  refine install_kept (ascii "a.hpx") loneManifest_entries loneManifest_entries fun n t ht => ?_
  obtain ⟨rfl, ht⟩ := Option.ite_none_right_eq_some.mp ht
  obtain rfl := Option.some.inj ht
  decide

/-- the old package is deleted before the entry is missed -/
theorem install_loses : ¬ ∀ (sys : Machine) (h : PkgHome) (hpxPath d : Bytes)
    (r : Except (Bytes × Left) (PkgManifest × Left)),
    pkgInstallFile sys h hpxPath (some d) = some r → AllOrNothing h d r := by
  intro hall
  let m : PkgManifest := ⟨ascii "a", ascii "1", ascii "a.hphp", [], []⟩
  obtain ⟨scratch, dest, hcontent, hrun⟩ := @install_flat machine olderHome (ascii "a.hpx")
    _ _ _ m (by decide) loneManifest_entries loneManifest_entries
    (fun e he => by
      obtain rfl := List.mem_singleton.mp he
      exact ⟨by decide, by decide, by decide⟩)
    rfl rfl rfl rfl (by decide) (by decide)
  have hentry : contentAt dest [ascii "a.hphp"] = none := hcontent _
  have hmiss : readFileSoft machine (pkgDirOf olderHome.path m.name) (nodes dest) m.entry = none := by
    have hres : resolve m.entry = [ascii "a.hphp"] := by decide
    rw [readFileSoft, if_neg (by decide), hres]
    split
    · next c hc =>
      rw [nodes_file, hentry] at hc
      cases hc
    · rfl
    · rfl
  rw [entryChecked, hmiss] at hrun
  have hsame := congrFun (hall machine olderHome _ _ _ hrun).1 m.name
  have hold : olderHome.nodes m.name [ascii "a.hphp"] = some (.file (ascii "x")) := by rfl
  rw [changed_self] at hsame
  rw [← hsame, nodes_file, hentry] at hold
  cases hold

end Package
end HolyPhp
