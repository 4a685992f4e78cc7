import HolyPhp.Lib.Substr
import HolyPhp.Runtime.Value
import Mathlib.Data.List.TakeWhile

/-!
# The registry of installed packages

`registry.json` is written line by line and read by looking for `"name"` and `"version"`.

* `jsonGetStr`, `pkgRegistryRead`  the reader; a file that is not there reads as `[]`;
* `addLines`, `removeLines`        the entries that are written, and which of them a comma follows;
* `pkgRegistryAdd`, `pkgRegistryRemove`  the file that is written;
* `Readable`                       the lists of entries that come back:
                                   `readFrom_lines` **what is written is read, wherever the commas
                                   are**, and `readable_of_same` **nothing else is**.
-/

set_option linter.unusedVariables false

namespace HolyPhp
namespace Package
open Substr

/-! ## names and entries -/

/-- `islower(c) || isdigit(c) || c == '_'` -/
def isNameByte (c : UInt8) : Bool := (97 ≤ c && c ≤ 122) || ((48 ≤ c && c ≤ 57) || c = 95)

/-- `pkg_name_ok` -/
def pkgNameOk (name : Bytes) : Bool := !name.isEmpty && name.all isNameByte

structure InstalledPkg where
  name : Bytes
  version : Bytes
  deriving DecidableEq

/-- `name` -/
def nameKey : Bytes := ascii "name"

/-- `version` -/
def versionKey : Bytes := ascii "version"

/-! ## reading -/

/-- what may stand between a key and its value -/
def isGap (c : UInt8) : Bool := c = 32 || (c = 58 || (c = 9 || (c = 10 || c = 13)))

/-- the characters up to the next quote, without the backslashes of escapes -/
def strBody : Bytes → Bytes
  | [] => []
  | 92 :: c :: p => c :: strBody p
  | c :: p => if c = 34 then [] else c :: strBody p

/-- `json_get_str` -/
def jsonGetStr (js key : Bytes) : Option Bytes :=
  let pat := (34 :: (key ++ [34])).take 63
  (strstr pat js).bind fun k =>
    match (k.drop pat.length).dropWhile isGap with
    | 34 :: p => some (strBody p)
    | _ => none

/-- the loop of `pkg_registry_read` -/
def readFrom (p : Bytes) : List InstalledPkg :=
  match h : strstr (34 :: (nameKey ++ [34])) p with
  | none => []
  | some k =>
    match jsonGetStr k nameKey with
    | none => []
    | some nm => ⟨nm, (jsonGetStr k versionKey).getD []⟩ :: readFrom (k.drop 6)
termination_by p.length
decreasing_by
  obtain ⟨hpre, hsuf⟩ := strstr_spec h
  have h1 := hpre.length_le
  have h2 := hsuf.length_le
  have h6 : (34 :: (nameKey ++ [34])).length = 6 := rfl
  rw [List.length_drop]
  omega

/-- `slurp_file_or`: the file as far as its first NUL -/
def slurpFileOr (file : Option Bytes) (fallback : Bytes) : Bytes :=
  (file.getD fallback).takeWhile (· ≠ 0)

/-- `pkg_registry_read` -/
def pkgRegistryRead (file : Option Bytes) : List InstalledPkg :=
  readFrom (slurpFileOr file (ascii "[]"))

/-! ## writing -/

def sepText (comma : Bool) : Bytes := if comma then ascii "," else []

/-- a line of the file, behind its first two blanks and the bracket -/
def entryText (e : InstalledPkg) (comma : Bool) : Bytes :=
  ascii "\"name\": \"" ++ (e.name ++ (ascii "\", \"version\": \"" ++ (e.version ++
    (ascii "\"\x7d" ++ (sepText comma ++ ascii "\n")))))

def line (e : InstalledPkg) (comma : Bool) : Bytes := ascii "  \x7b" ++ entryText e comma

def lines (ls : List (InstalledPkg × Bool)) : Bytes := ls.flatMap fun l => line l.1 l.2

/-- the file with these lines -/
def fileText (ls : List (InstalledPkg × Bool)) : Bytes := ascii "[\n" ++ lines ls ++ ascii "]\n"

/-- the entries that `pkg_registry_add` writes, with their commas -/
def addLines (v : List InstalledPkg) (name version : Bytes) : List (InstalledPkg × Bool) :=
  let replaced := v.any fun e => e.name = name
  (v.mapIdx fun i e => (if e.name = name then ⟨e.name, version⟩ else e, decide (i + 1 < v.length)))
    ++ if replaced then [] else [(⟨name, version⟩, decide (v.length ≠ 0))]

/-- the entries that `pkg_registry_remove` writes; only those that stay are counted -/
def removeLines (v : List InstalledPkg) (name : Bytes) : List (InstalledPkg × Bool) :=
  (v.filter fun e => e.name ≠ name).mapIdx fun kept e => (e, decide (kept + 1 < v.length))

def pkgRegistryAdd (file : Option Bytes) (name version : Bytes) : Bytes :=
  fileText (addLines (pkgRegistryRead file) name version)

def pkgRegistryRemove (file : Option Bytes) (name : Bytes) : Bytes :=
  fileText (removeLines (pkgRegistryRead file) name)

/-! ## what is read of a line -/

section
variable {e : InstalledPkg} {k v r s p : Bytes} {c : UInt8} {b : Bool}

theorem nameByte_plain (h : isNameByte c = true) : c ≠ 34 ∧ c ≠ 92 ∧ c ≠ 0 := by
  refine ⟨?_, ?_, ?_⟩
  · rintro rfl
    cases h
  · rintro rfl
    cases h
  · rintro rfl
    cases h

theorem name_plain (h : pkgNameOk k = true) (hc : c ∈ k) : c ≠ 34 ∧ c ≠ 92 ∧ c ≠ 0 := by
  rw [pkgNameOk, Bool.and_eq_true] at h
  exact nameByte_plain (List.all_eq_true.1 h.2 c hc)

theorem strBody_plain (h34 : c ≠ 34) (h92 : c ≠ 92) : strBody (c :: p) = c :: strBody p := by
  cases p with
  | nil => simp [strBody, h34]
  | cons d p =>
    rw [strBody]
    · rw [if_neg h34]
    · exact fun _ _ h => absurd h h92

theorem strBody_quote (p : Bytes) : strBody (34 :: p) = [] := by
  cases p <;> rfl

theorem strBody_escape (c : UInt8) (p : Bytes) : strBody (92 :: c :: p) = c :: strBody p := rfl

theorem strBody_quoted (h34 : 34 ∉ v) (h92 : 92 ∉ v) : strBody (v ++ 34 :: r) = v := by
  induction v with
  | nil => exact strBody_quote r
  | cons c v ih =>
    rw [List.mem_cons, not_or] at h34 h92
    rw [List.cons_append, strBody_plain (fun h => h34.1 h.symm) (fun h => h92.1 h.symm),
      ih h34.2 h92.2]

theorem replicate_snoc (n : Nat) (c : UInt8) (p : Bytes) :
    List.replicate n c ++ c :: p = c :: (List.replicate n c ++ p) := by
  rw [← List.cons_append, ← List.replicate_succ, List.replicate_succ', List.append_assoc]
  rfl

/-- escapes are read as fewer characters -/
theorem strBody_ne (n : Nat) (v r : Bytes) :
    strBody (v ++ 34 :: r) ≠ List.replicate (n + 1) 92 ++ v := by
  intro h
  rw [List.replicate_succ, List.cons_append] at h
  induction v using strBody.induct generalizing n with
  | case1 =>
    rw [List.nil_append, strBody_quote] at h
    cases h
  | case2 c p ih =>
    rw [List.cons_append, List.cons_append, strBody_escape, List.cons.injEq] at h
    obtain ⟨rfl, h⟩ := h
    apply ih (n + 1)
    rw [h, replicate_snoc, replicate_snoc, List.replicate_succ]
    rfl
  | case3 p _ =>
    rw [List.cons_append, strBody_quote] at h
    cases h
  | case4 c p hesc hc _ =>
    by_cases h92 : c = 92
    · cases p with
      | nil =>
        rw [h92] at h
        cases h
      | cons d p => exact hesc d p h92 rfl
    · rw [List.cons_append, strBody_plain hc h92] at h
      exact h92 (List.cons.inj h).1

theorem strBody_eq (h : strBody (v ++ 34 :: r) = v) : 34 ∉ v ∧ 92 ∉ v := by
  induction v with
  | nil => exact ⟨List.not_mem_nil, List.not_mem_nil⟩
  | cons c v ih =>
    have h34 : c ≠ 34 := by
      rintro rfl
      rw [List.cons_append, strBody_quote] at h
      cases h
    by_cases h92 : c = 92
    · subst h92
      cases v with
      | nil => cases h
      | cons d v =>
        rw [List.cons_append, List.cons_append, strBody_escape, List.cons.injEq] at h
        obtain ⟨rfl, h⟩ := h
        exact absurd h (strBody_ne 0 v r)
    · rw [List.cons_append, strBody_plain h34 h92, List.cons.injEq] at h
      obtain ⟨h34', h92'⟩ := ih h.2
      rw [List.mem_cons, List.mem_cons, not_or, not_or]
      exact ⟨⟨fun he => h34 he.symm, h34'⟩, fun he => h92 he.symm, h92'⟩

theorem strstr_entry (e : InstalledPkg) (b : Bool) (rest : Bytes) :
    strstr (34 :: (nameKey ++ [34])) (line e b ++ rest) = some (entryText e b ++ rest) := rfl

/-- the text behind the name -/
def versionText (e : InstalledPkg) (comma : Bool) : Bytes :=
  ascii ", \"version\": \"" ++ (e.version ++
    (ascii "\"\x7d" ++ (sepText comma ++ ascii "\n")))

theorem jsonGetStr_name (he : pkgNameOk e.name = true) (rest : Bytes) :
    jsonGetStr (entryText e b ++ rest) nameKey = some e.name := by
  have h34 : 34 ∉ e.name := fun h => (name_plain he h).1 rfl
  have h92 : 92 ∉ e.name := fun h => (name_plain he h).2.1 rfl
  have hbody : jsonGetStr (entryText e b ++ rest) nameKey =
      some (strBody ((e.name ++ 34 :: versionText e b) ++ rest)) := rfl
  rw [hbody, List.append_assoc, List.cons_append, strBody_quoted h34 h92]

/-- the value of the version; where the name is `version`, it is taken for the key -/
theorem jsonGetStr_version (he : pkgNameOk e.name = true) (b : Bool) (rest : Bytes) :
    ∃ r, jsonGetStr (entryText e b ++ rest) versionKey =
      if e.name = versionKey then none else some (strBody (e.version ++ 34 :: r)) := by
  have h34 : 34 ∉ e.name := fun h => (name_plain he h).1 rfl
  have hkey : 34 ∉ versionKey := by decide
  refine ⟨125 :: (sepText b ++ ascii "\n") ++ rest, ?_⟩
  -- the first quote behind which the key may stand is that of the name
  have hget : jsonGetStr (entryText e b ++ rest) versionKey =
      (strstr (34 :: (versionKey ++ [34])) (34 :: ((e.name ++ 34 :: versionText e b) ++ rest))).bind
        fun k => match (k.drop 9).dropWhile isGap with
          | 34 :: p => some (strBody p)
          | _ => none := rfl
  rw [hget, List.append_assoc, List.cons_append]
  by_cases hn : e.name = versionKey
  · rw [if_pos hn, hn, strstr_quoted 34 _ _]
    rfl
  · rw [if_neg hn, strstr_next, strstr_skip h34]
    · show some (strBody ((e.version ++ _) ++ rest)) = _
      rw [List.append_assoc]
      rfl
    · intro hp
      rw [List.cons_prefix_cons] at hp
      exact hn ((prefix_delim hkey h34).1 hp.2).symm

theorem readFrom_none (h : strstr (34 :: (nameKey ++ [34])) p = none) : readFrom p = [] := by
  rw [readFrom]
  split
  · rfl
  · next k hk =>
    rw [h] at hk
    cases hk

theorem readFrom_some (h : strstr (34 :: (nameKey ++ [34])) p = some s) :
    readFrom p = match jsonGetStr s nameKey with
      | none => []
      | some nm => ⟨nm, (jsonGetStr s versionKey).getD []⟩ :: readFrom (s.drop 6) := by
  rw [readFrom]
  split
  · next hk =>
    rw [h] at hk
    cases hk
  · next k hk =>
    obtain rfl := Option.some.inj (h.symm.trans hk)
    rfl

theorem readFrom_congr
    (h : strstr (34 :: (nameKey ++ [34])) p = strstr (34 :: (nameKey ++ [34])) s) :
    readFrom p = readFrom s := by
  cases hs : strstr (34 :: (nameKey ++ [34])) s with
  | none => rw [readFrom_none (h.trans hs), readFrom_none hs]
  | some k => rw [readFrom_some (h.trans hs), readFrom_some hs]

/-- the next entry is looked for behind the key of this one -/
theorem readFrom_rest (he : pkgNameOk e.name = true) (hv : 34 ∉ e.version) (b : Bool)
    (rest : Bytes) : readFrom ((entryText e b ++ rest).drop 6) =
      if e.name = nameKey ∨ e.version = nameKey then [] else readFrom rest := by
  have h34 : 34 ∉ e.name := fun h => (name_plain he h).1 rfl
  have hkey : 34 ∉ nameKey := by decide
  have hname : readFrom ((entryText e b ++ rest).drop 6) =
      readFrom (34 :: ((e.name ++ 34 :: versionText e b) ++ rest)) := readFrom_congr rfl
  rw [hname, List.append_assoc, List.cons_append]
  by_cases hn : e.name = nameKey
  · -- the name is found as a key, and a comma follows it
    rw [if_pos (.inl hn), hn, readFrom_some (strstr_quoted 34 _ _)]
    rfl
  · have hmiss : ¬ 34 :: (nameKey ++ [34]) <+: 34 :: (e.name ++ 34 :: (versionText e b ++ rest)) := by
      intro hp
      rw [List.cons_prefix_cons] at hp
      exact hn ((prefix_delim hkey h34).1 hp.2).symm
    have hversion : readFrom (34 :: (e.name ++ 34 :: (versionText e b ++ rest))) =
        readFrom (34 :: (e.version ++ 34 :: (125 :: (sepText b ++ ascii "\n")
          ++ rest))) := by
      apply readFrom_congr
      rw [strstr_next hmiss, strstr_skip h34]
      show strstr _ (34 :: ((e.version ++ _) ++ rest)) = _
      rw [List.append_assoc]
      rfl
    rw [hversion]
    by_cases hvn : e.version = nameKey
    · -- the same for the version, and a bracket
      rw [if_pos (.inr hvn), hvn, readFrom_some (strstr_quoted 34 _ _)]
      rfl
    · rw [if_neg (not_or.2 ⟨hn, hvn⟩)]
      apply readFrom_congr
      rw [strstr_next, strstr_skip hv]
      · cases b <;> rfl
      · intro hp
        rw [List.cons_prefix_cons] at hp
        exact hvn ((prefix_delim hkey hv).1 hp.2).symm

/-- an entry that stands in front of others -/
theorem readFrom_line (he : pkgNameOk e.name = true) (b : Bool) (rest : Bytes) :
    ∃ r, readFrom (line e b ++ rest) =
      ⟨e.name, if e.name = versionKey then [] else strBody (e.version ++ 34 :: r)⟩ ::
        readFrom ((entryText e b ++ rest).drop 6) := by
  obtain ⟨r, hr⟩ := jsonGetStr_version he b rest
  refine ⟨r, ?_⟩
  rw [readFrom_some (strstr_entry e b rest), jsonGetStr_name he, hr]
  by_cases hn : e.name = versionKey
  · rw [if_pos hn, if_pos hn]
    rfl
  · rw [if_neg hn, if_neg hn]
    rfl

end

/-! ## what is read of a file -/

/-- what is put into the file comes from `pkg_name_ok` and from C strings -/
structure EntryOk (e : InstalledPkg) : Prop where
  name : pkgNameOk e.name = true
  noNul : 0 ∉ e.version

/-- the lists that come back: no version has a quote or a backslash, a package `version` has the
empty one, and nothing is called `name` but in the last entry -/
def Readable : List InstalledPkg → Prop
  | [] => True
  | e :: l => (34 ∉ e.version ∧ 92 ∉ e.version) ∧ (e.name = versionKey → e.version = []) ∧
      (l ≠ [] → e.name ≠ nameKey ∧ e.version ≠ nameKey) ∧ Readable l

/-- the same entries, every name once -/
structure Same (r l : List InstalledPkg) : Prop where
  nodup : (r.map InstalledPkg.name).Nodup
  mem : ∀ e, e ∈ r ↔ e ∈ l

section
variable {ls : List (InstalledPkg × Bool)} {l r : List InstalledPkg} {e : InstalledPkg} {x : Bytes}

theorem readFrom_end : readFrom (ascii "]\n") = [] := readFrom_none rfl

theorem lines_cons (p : InstalledPkg × Bool) (ls : List (InstalledPkg × Bool)) (rest : Bytes) :
    lines (p :: ls) ++ rest = line p.1 p.2 ++ (lines ls ++ rest) := by
  rw [lines, List.flatMap_cons, List.append_assoc, ← lines]

/-- **what is written is read, wherever the commas are** -/
theorem readFrom_lines (hok : ∀ p ∈ ls, EntryOk p.1) (h : Readable (ls.map Prod.fst)) :
    readFrom (lines ls ++ ascii "]\n") = ls.map Prod.fst := by
  induction ls with
  | nil => exact readFrom_end
  | cons p ls ih =>
    obtain ⟨hclean, hversion, hkey, hrest⟩ := h
    have hp := (hok p List.mem_cons_self).name
    have hih := ih (fun q hq => hok q (List.mem_cons_of_mem p hq)) hrest
    obtain ⟨r, hr⟩ := readFrom_line hp p.2 (lines ls ++ ascii "]\n")
    have hv : (if p.1.name = versionKey then [] else strBody (p.1.version ++ 34 :: r)) =
        p.1.version := by
      split
      · next hn => exact (hversion hn).symm
      · exact strBody_quoted hclean.1 hclean.2
    have htail : (if p.1.name = nameKey ∨ p.1.version = nameKey then []
        else readFrom (lines ls ++ ascii "]\n")) = ls.map Prod.fst := by
      split
      · next hn =>
        cases ls with
        | nil => rfl
        | cons q ls =>
          have hne := hkey (List.cons_ne_nil _ _)
          exact absurd hn (not_or.2 hne)
      · exact hih
    rw [lines_cons, hr, hv, readFrom_rest hp hclean.1, htail]
    rfl

theorem Same.tail (h : Same (e :: r) (e :: l)) (hl : ((e :: l).map InstalledPkg.name).Nodup) :
    Same r l where
  nodup := (List.nodup_cons.1 h.nodup).2
  mem := by
    have hr := (List.nodup_cons.1 h.nodup).1
    have hl := (List.nodup_cons.1 hl).1
    intro x
    have hx := h.mem x
    rw [List.mem_cons, List.mem_cons] at hx
    constructor
    · intro hmem
      rcases hx.1 (.inr hmem) with rfl | hmem'
      · exact absurd (List.mem_map_of_mem hmem) hr
      · exact hmem'
    · intro hmem
      rcases hx.2 (.inr hmem) with rfl | hmem'
      · exact absurd (List.mem_map_of_mem hmem) hl
      · exact hmem'

/-- **what comes back is readable** -/
theorem readable_of_same (hok : ∀ p ∈ ls, EntryOk p.1)
    (hl : ((ls.map Prod.fst).map InstalledPkg.name).Nodup)
    (h : Same (readFrom (lines ls ++ ascii "]\n")) (ls.map Prod.fst)) :
    Readable (ls.map Prod.fst) := by
  induction ls with
  | nil => exact trivial
  | cons p ls ih =>
    have hp := (hok p List.mem_cons_self).name
    obtain ⟨r, hr⟩ := readFrom_line hp p.2 (lines ls ++ ascii "]\n")
    rw [lines_cons, hr, List.map_cons] at h
    rw [List.map_cons] at hl
    -- no other entry has the name of the first one that is read
    have hv : (if p.1.name = versionKey then [] else strBody (p.1.version ++ 34 :: r)) =
        p.1.version := by
      rcases List.mem_cons.1 ((h.mem _).1 List.mem_cons_self) with hfirst | hmem
      · exact congrArg InstalledPkg.version hfirst
      · exact absurd (List.mem_map_of_mem (f := InstalledPkg.name) hmem) (List.nodup_cons.1 hl).1
    rw [hv] at h
    have hclean : 34 ∉ p.1.version ∧ 92 ∉ p.1.version := by
      split at hv
      · rw [← hv]
        exact ⟨List.not_mem_nil, List.not_mem_nil⟩
      · exact strBody_eq hv
    have hversion : p.1.name = versionKey → p.1.version = [] := by
      intro hn
      rw [if_pos hn] at hv
      exact hv.symm
    have htail := h.tail hl
    rw [readFrom_rest hp hclean.1] at htail
    by_cases hn : p.1.name = nameKey ∨ p.1.version = nameKey
    · -- nothing behind it is read
      rw [if_pos hn] at htail
      have hnil : ls = [] := by
        cases ls with
        | nil => rfl
        | cons q ls => exact absurd ((htail.mem q.1).2 List.mem_cons_self) List.not_mem_nil
      rw [hnil]
      exact ⟨hclean, hversion, fun hne => absurd rfl hne, trivial⟩
    · rw [if_neg hn] at htail
      exact ⟨hclean, hversion, fun _ => not_or.1 hn,
        ih (fun q hq => hok q (List.mem_cons_of_mem p hq)) (List.nodup_cons.1 hl).2 htail⟩

theorem noNul_lines (hok : ∀ p ∈ ls, EntryOk p.1) : 0 ∉ fileText ls := by
  have hline : ∀ p : InstalledPkg × Bool, EntryOk p.1 → 0 ∉ line p.1 p.2 := by
    intro p hp
    have hname : 0 ∉ p.1.name := fun h => (name_plain hp.name h).2.2 rfl
    have h1 : 0 ∉ ascii "  \x7b" := by decide
    have h2 : 0 ∉ ascii "\"name\": \"" := by decide
    have h3 : 0 ∉ ascii "\", \"version\": \"" := by decide
    have h4 : 0 ∉ ascii "\"\x7d" := by decide
    have h5 : 0 ∉ sepText p.2 ++ ascii "\n" := by cases p.2 <;> decide
    rw [line, entryText, List.mem_append, List.mem_append, List.mem_append, List.mem_append,
      List.mem_append, List.mem_append]
    simp [h1, h2, h3, h4, h5, hname, hp.noNul]
  have h1 : 0 ∉ ascii "[\n" := by decide
  have h2 : 0 ∉ ascii "]\n" := by decide
  rw [fileText, lines, List.mem_append, List.mem_append, List.mem_flatMap]
  rintro ((h | ⟨p, hp, h⟩) | h)
  · exact h1 h
  · exact hline p (hok p hp) h
  · exact h2 h

/-- what `pkg_registry_read` makes of a file with these lines -/
theorem pkgRegistryRead_fileText (hok : ∀ p ∈ ls, EntryOk p.1) :
    pkgRegistryRead (some (fileText ls)) = readFrom (lines ls ++ ascii "]\n") := by
  have hnul : slurpFileOr (some (fileText ls)) (ascii "[]") = fileText ls := by
    apply List.takeWhile_eq_self_iff.2
    intro c hc
    apply decide_eq_true
    rintro rfl
    exact noNul_lines hok hc
  rw [pkgRegistryRead, hnul, fileText, List.append_assoc]
  exact readFrom_congr rfl

end

end Package
end HolyPhp
