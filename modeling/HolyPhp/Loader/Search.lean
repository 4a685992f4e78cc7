import HolyPhp.Lib.Posix
import HolyPhp.Runtime.Value

/-!
# Where an import is looked for

Paths are spelled: every candidate of `load_import` is put together from the text of the import and
of the path of the importer.

* `normalise`   the place that a spelling names, without `.` and `..`;
* `Setup`       the files, by their places, and what else the search depends on;
* `candidates`  the paths that `load_import` tries, in this order;
* `findImport`  the first that is there, or else a library of the compiler.
-/

set_option linter.unusedVariables false
set_option autoImplicit false

namespace HolyPhp
namespace Loader
open Posix hiding Bytes

/-! ## texts of paths -/

def isSep (c : UInt8) : Bool := c = 47 || c = 92

/-- what stands in front of the last byte that meets `p` -/
def beforeLast (p : UInt8 → Bool) (s : Bytes) : Option Bytes :=
  match s.reverse.dropWhile fun c => !p c with
  | [] => none
  | _ :: t => some t.reverse

/-- `path_dir_of` -/
def pathDirOf (p : Bytes) : Bytes := (beforeLast isSep p).getD (ascii ".")

/-- `spec` without `.hphp` at its end -/
def stem (spec : Bytes) : Bytes :=
  if 5 < spec.length ∧ ascii ".hphp" <:+ spec then spec.take (spec.length - 5) else spec

def libRelSpec (spec : Bytes) : Bytes :=
  match beforeLast isSep spec with
  | some _ => spec
  | none => stem spec ++ 47 :: spec

/-- a dot behind the last slash -/
def hasExt (spec : Bytes) : Bool :=
  match beforeLast (fun c => c = 46) spec, beforeLast (fun c => c = 47) spec with
  | none, _ => false
  | some _, none => true
  | some d, some s => s.length < d.length

/-- `norm` -/
def withExt (spec : Bytes) : Bytes := if hasExt spec then spec else spec ++ ascii ".hphp"

def isRelative (spec : Bytes) : Bool :=
  match spec with
  | c :: _ => c = 46 || isSep c
  | [] => false

/-- what `lib_name_matches` and the names of libraries are compared for -/
def libPath (name : Bytes) : Bytes := ascii "<hphp-lib>/" ++ name

/-! ## places -/

/-- one name further; `..` goes back -/
def enter (p : List Bytes) (x : Bytes) : List Bytes := if x = ascii ".." then p.dropLast else p ++ [x]

/-- the place of a path, from the directory `cwd` -/
def normalise (cwd path : Bytes) : List Bytes :=
  (if path.head? = some 47 then resolve path else resolve cwd ++ resolve path).foldl enter []

/-- a source text -/
structure Source (D : Type) where
  imports : List Bytes
  decls : List D

structure Setup (D : Type) where
  /-- the working directory -/
  cwd : Bytes
  files : List (List Bytes × Source D)
  /-- what `pkg_import_candidate` gives -/
  pkgImportCandidate : Bytes → Option Bytes
  /-- `$HPHP_PATH` -/
  hphpPath : Option Bytes
  /-- `hp_embed_libs` -/
  libs : List (Bytes × Source D)
  /-- no file stands where a library of the compiler is shown -/
  apart : ∀ l ∈ libs, files.lookup (normalise cwd (libPath l.1)) = none

/-! ## the search -/

section
variable {D : Type} (S : Setup D)

/-- the place that a spelling names -/
def Setup.place (path : Bytes) : List Bytes := normalise S.cwd path

/-- `read_file_soft` -/
def Setup.read (path : Bytes) : Option (Source D) := S.files.lookup (S.place path)

/-- `getcwd` with a buffer of 1024 bytes -/
def Setup.getcwd : Bytes := if S.cwd.length < 1024 then S.cwd else ascii "."

/-- `abs_dir_of` -/
def absDirOf (dir : Bytes) : Bytes :=
  if dir.head?.any isSep || dir[1]? = some 58 then dir
  else if dir = [] ∨ dir = ascii "." then S.getcwd
  else S.getcwd ++ 47 :: dir

/-- the separators at the end, but not the first byte -/
def trimSeps (dir : Bytes) : Bytes :=
  dir.take 1 ++ ((dir.drop 1).reverse.dropWhile isSep).reverse

/-- the loop of `upwards_lib` -/
def upwards (spec : Bytes) : Nat → Bytes → List Bytes
  | 0, _ => []
  | depth + 1, dir =>
    (dir ++ ascii "/lib/" ++ spec) :: (dir ++ ascii "/lib/" ++ libRelSpec spec) ::
      match beforeLast isSep dir with
      | some (c :: cs) => upwards spec depth (c :: cs)
      | _ => []

def upwardsLib (startDir spec : Bytes) : List Bytes :=
  upwards spec 12 (trimSeps (absDirOf S startDir))

/-- the entries of `$HPHP_PATH` that are not empty -/
def pathEntries (path : Bytes) : List Bytes :=
  (path.splitOnP fun c => c = 59 || c = 58).filter fun p => p ≠ []

/-- what `load_import` tries -/
def candidates (importer spec : Bytes) : List Bytes :=
  if isRelative spec then [pathDirOf importer ++ 47 :: spec]
  else
    [ascii "lib/" ++ spec, ascii "lib/" ++ libRelSpec spec] ++
      upwardsLib S (pathDirOf importer) spec ++
      [ascii "src/hphpc/std/" ++ spec, pathDirOf importer ++ 47 :: spec] ++
      (S.pkgImportCandidate spec).toList ++
      (pathEntries (S.hphpPath.getD [])).map fun p => p ++ 47 :: spec

/-- the library of that name -/
def libSource (spec : Bytes) : Option (Bytes × Source D) :=
  S.libs.find? fun l => libRelSpec spec = l.1

/-- what `load_import` loads: the path under which it is known, and the source -/
def findImport (importer spec : Bytes) : Option (Bytes × Source D) :=
  match (candidates S importer (withExt spec)).findSome? fun c => (S.read c).map fun s => (c, s) with
  | some found => some found
  | none => (libSource S (withExt spec)).map fun l => (libPath l.1, l.2)

end

end Loader
end HolyPhp
