import HolyPhp.Json.DecodeSpec
import HolyPhp.Lib.Posix
import HolyPhp.Lib.Substr

/-!
# Packages as archives

An archive is one text: for every file its path, a blank, its size and a newline, and then its
bytes; `HPHX1` and a newline end it.

* `SrcNode`      the tree that is packed, its entries in the order of `readdir`;
* `collectNode`, `packText`, `pkgPackDir`  the packer, with its buffer of 1024 for the path of a
                 directory and its list of 1024 files;
* `mkdirP`, `pathMkdirFor`, `writeAll`     what is done to the destination;
* `extractFrom`, `pkgExtract`              the unpacker; `none`: it ends with an error.
-/

set_option linter.unusedVariables false

namespace HolyPhp
namespace Package
open Posix hiding Bytes
open Json hiding Bytes
open Substr

/-! ## the tree that is packed -/

inductive SrcNode where
  | file (content : Bytes)
  | dir (entries : List (Bytes × SrcNode))

/-- `hphp.lock` -/
def lockName : Bytes := ascii "hphp.lock"

/-- `read_all`: the size has to fit a `long` -/
def readAll (content : Bytes) : Option Bytes :=
  if content.length < 2 ^ 63 then some content else none

/-- what `snprintf` leaves of a text in a buffer of 1024 -/
def buf1024 (s : Bytes) : Bytes := s.take 1023

/-- the path of what is called `name` in the directory `rel` -/
def subPath (rel name : Bytes) : Bytes := if rel = [] then name else rel ++ 47 :: name

/-- the path of the directory `rel` under `dir` -/
def dirPath (dir rel : Bytes) : Bytes := dir ++ if rel = [] then [] else 47 :: rel

section
variable (other : Bytes → List Bytes) (dir : Bytes)

/-- the names that `readdir` gives: of the directory, or, behind a path that was cut off, of
whatever is there -/
def readdir (rel : Bytes) (names : List Bytes) : List Bytes :=
  (if buf1024 (dirPath dir rel) = dirPath dir rel then names
    else other (buf1024 (dirPath dir rel))).filter fun n =>
      n ≠ ascii "." && (n ≠ ascii ".." && n ≠ lockName)

mutual

/-- `collect_dir` for an entry with the path `sub`: paths and contents of the files -/
def collectNode (sub : Bytes) : SrcNode → List (Bytes × Bytes)
  | .file c => ((readAll c).map fun d => (sub, d)).toList
  | .dir es => (readdir other dir sub (es.map Prod.fst)).flatMap fun n =>
      ((collectEntries sub es).lookup n).getD []

/-- what is collected for every entry of the directory `rel` -/
def collectEntries (rel : Bytes) : List (Bytes × SrcNode) → List (Bytes × List (Bytes × Bytes))
  | [] => []
  | e :: es => (e.1, collectNode (subPath rel e.1) e.2) :: collectEntries rel es

end

/-- `collect_dir` for `dir` itself; the list holds 1024 files -/
def collectDir (es : List (Bytes × SrcNode)) : List (Bytes × Bytes) :=
  ((readdir other dir [] (es.map Prod.fst)).flatMap fun n =>
    ((collectEntries other dir [] es).lookup n).getD []).take 1024

/-- the line in front of a file, without its newline -/
def headerText (name : Bytes) (size : Nat) : Bytes := name ++ 32 :: decimal size

def packText (files : List (Bytes × Bytes)) : Bytes :=
  (files.flatMap fun f => headerText f.1 f.2.length ++ 10 :: f.2) ++ ascii "HPHX1\n"

/-- `pkg_pack_dir` -/
def pkgPackDir (es : List (Bytes × SrcNode)) : Bytes := packText (collectDir other dir es)

end

/-! ## the destination -/

/-- the prefixes of a path that end in front of a slash or a backslash -/
def cuts (pre : Bytes) : Bytes → List Bytes
  | [] => []
  | c :: s => (if c = 47 || c = 92 then [pre] else []) ++ cuts (pre ++ [c]) s

/-- what `strrchr(s, '/')` leaves in front of it -/
def beforeSlash (s : Bytes) : Option Bytes :=
  match s.reverse.dropWhile fun c => c ≠ 47 with
  | [] => none
  | _ :: r => some r.reverse

section
variable (destdir : Bytes)

/-- the path under the destination -/
def under (path : Bytes) : Option Bytes :=
  if (destdir ++ [47]).isPrefixOf path then some (path.drop (destdir.length + 1)) else none

/-- `mkdir`; what is not under the destination is not looked at -/
def mkdir (fs : Fs Bytes) (path : Bytes) : Fs Bytes :=
  match under destdir path with
  | none => fs
  | some q => fs.mkdir (resolve q)

/-- `mkdir_p` -/
def mkdirP (fs : Fs Bytes) (path : Bytes) : Fs Bytes :=
  if 1024 ≤ path.length then fs
  else mkdir destdir ((cuts (path.take 1) (path.drop 1)).foldl (mkdir destdir) fs) path

/-- `path_mkdir_for` -/
def pathMkdirFor (fs : Fs Bytes) (path : Bytes) : Fs Bytes :=
  match beforeSlash (buf1024 path) with
  | none => fs
  | some pre => mkdirP destdir fs pre

/-- `write_all`; a path that ends with a slash or a dot is none of a file -/
def writeAll (fs : Fs Bytes) (path content : Bytes) : Option (Fs Bytes) :=
  match under destdir path with
  | none => some fs
  | some q =>
    match (splitSlash q).getLast? with
    | none => none
    | some x => if leads x then fs.write (resolve q) content else none

/-! ## unpacking -/

/-- `strtoull(s, NULL, 10)` -/
def strtoull (s : Bytes) : Nat :=
  match s.dropWhile isSpace with
  | 45 :: cs =>
    if leadingNat 0 cs < 2 ^ 64 then (2 ^ 64 - leadingNat 0 cs) % 2 ^ 64 else 2 ^ 64 - 1
  | 43 :: cs => min (leadingNat 0 cs) (2 ^ 64 - 1)
  | cs => min (leadingNat 0 cs) (2 ^ 64 - 1)

/-- `strstr(name, "..")` -/
def hasDots (name : Bytes) : Bool := (strstr (ascii "..") name).isSome

/-- the loop of `pkg_extract` at `p`; where `p + sz` leaves the memory, the C code is undefined -/
def extractFrom (fs : Fs Bytes) (p : Bytes) : Option (Fs Bytes) :=
  match h : p.dropWhile fun c => c ≠ 10 with
  | [] => some fs
  | _ :: body =>
    if 1024 ≤ (p.takeWhile fun c => c ≠ 10).length then some fs
    else
      let hdr := (p.takeWhile fun c => c ≠ 10).takeWhile fun c => c ≠ 0
      if hdr = ascii "HPHX1" then some fs
      else match hdr.dropWhile fun c => c ≠ 32 with
        | [] => some fs
        | _ :: num =>
          let name := hdr.takeWhile fun c => c ≠ 32
          let sz := strtoull num
          if body.length < sz then some fs
          else if name.head? = some 47 || hasDots name then extractFrom fs (body.drop sz)
          else
            let out := destdir ++ 47 :: name
            (writeAll destdir (pathMkdirFor destdir fs out) out (body.take sz)).bind fun fs' =>
              extractFrom fs' (body.drop sz)
termination_by p.length
decreasing_by
  all_goals
    have hlen := (List.dropWhile_suffix (fun c => c ≠ 10) (l := p)).length_le
    rw [h, List.length_cons] at hlen
    rw [List.length_drop]
    omega

/-- `pkg_extract` into an empty directory: what is there afterwards -/
def pkgExtract (archive : Bytes) : Option (Fs Bytes) :=
  (readAll archive).bind (extractFrom destdir Fs.empty)

end

end Package
end HolyPhp
