import HolyPhp.Package.ArchiveRun

/-!
# What the unpacker leaves

The loop of `pkg_extract` once more, with its count of files, and with what is in the destination
also where it ends with an error.  `fin` is the address of the end of the archive.

* `Found`, `found`   what the loop finds at a position;
* `unpackFrom`       the loop, `unpackFrom_extract`: it does what `extractFrom` does;
* `entriesFrom`      the entries up to the first line that is none, also those that are passed over;
* `unpackFrom_run`   the loop stores one after the other;
* `fileAt`           the last entry for a place;
* `run_content`      **what is in a file then**.
-/

set_option linter.unusedVariables false
set_option autoImplicit false

namespace HolyPhp
namespace Package
open Posix hiding Bytes
open Json hiding Bytes
open Substr

/-! ## one entry -/

inductive Found where
  /-- the end line, or a line that is no entry -/
  | stop
  /-- `p + sz` goes around the end of the addresses -/
  | around
  | entry (name content rest : Bytes)
  deriving DecidableEq

/-- the line at `p`, in an archive that ends at the address `fin` -/
def found (fin : Nat) (p : Bytes) : Found :=
  match p.dropWhile fun c => c ≠ 10 with
  | [] => .stop
  | _ :: body =>
    let line := p.takeWhile fun c => c ≠ 10
    if 1024 ≤ line.length then .stop
    else
      let hdr := line.takeWhile fun c => c ≠ 0
      if hdr = ascii "HPHX1" then .stop
      else match hdr.dropWhile fun c => c ≠ 32 with
        | [] => .stop
        | _ :: num =>
          if 2 ^ 64 ≤ fin - body.length + strtoull num then .around
          else if body.length < strtoull num then .stop
          else .entry (hdr.takeWhile fun c => c ≠ 32) (body.take (strtoull num))
            (body.drop (strtoull num))

/-- `pkg_extract` has returned, or `write_all` has ended the process -/
inductive Unpacked where
  | done (dest : Option (Fs Bytes)) (files : Nat)
  | unwritten (path : Bytes) (dest : Option (Fs Bytes))

/-- the entries that `pkg_extract` does not take -/
def unsafeName (name : Bytes) : Bool := name.head? = some 47 || hasDots name

section
variable (fin : Nat) (destdir : Bytes)

/-- `path_mkdir_for`; `none` is a destination that is not there -/
def madeFor (dest : Option (Fs Bytes)) (name : Bytes) : Option (Fs Bytes) :=
  dest.map fun fs => pathMkdirFor destdir fs (destdir ++ 47 :: name)

/-- and `write_all` -/
def stored (dest : Option (Fs Bytes)) (name content : Bytes) : Option (Fs Bytes) :=
  (madeFor destdir dest name).bind fun fs => writeAll destdir fs (destdir ++ 47 :: name) content

theorem found_shorter {p name content rest : Bytes}
    (h : found fin p = .entry name content rest) : rest.length < p.length := by
  rw [found] at h
  split at h
  · cases h
  · next b body hp =>
    have hlen := (List.dropWhile_suffix (fun c => c ≠ 10) (l := p)).length_le
    rw [hp, List.length_cons] at hlen
    dsimp only at h
    split at h
    · cases h
    split at h
    · cases h
    split at h
    · cases h
    split at h
    · cases h
    split at h
    · cases h
    · cases h
      rw [List.length_drop]
      omega

/-- the loop of `pkg_extract` -/
def unpackFrom (dest : Option (Fs Bytes)) (files : Nat) (p : Bytes) : Option Unpacked :=
  match h : found fin p with
  | .stop => some (.done dest files)
  | .around => none
  | .entry name content rest =>
    if unsafeName name then unpackFrom dest files rest
    else match stored destdir dest name content with
      | none => some (.unwritten (destdir ++ 47 :: name) (madeFor destdir dest name))
      | some fs => unpackFrom (some fs) (files + 1) rest
termination_by p.length
decreasing_by all_goals exact found_shorter fin h

/-- the entries from `p` on; `none` where a size goes around the end of the addresses -/
def entriesFrom (p : Bytes) : Option (List (Bytes × Bytes)) :=
  match h : found fin p with
  | .stop => some []
  | .around => none
  | .entry name content rest => (entriesFrom rest).map ((name, content) :: ·)
termination_by p.length
decreasing_by exact found_shorter fin h

/-- one entry after the other -/
def runEntries (dest : Option (Fs Bytes)) (files : Nat) : List (Bytes × Bytes) → Unpacked
  | [] => .done dest files
  | e :: es =>
    if unsafeName e.1 then runEntries dest files es
    else match stored destdir dest e.1 e.2 with
      | none => .unwritten (destdir ++ 47 :: e.1) (madeFor destdir dest e.1)
      | some fs => runEntries (some fs) (files + 1) es

end

section
variable {fin : Nat} {destdir : Bytes} {dest : Option (Fs Bytes)} {files : Nat}
  {p name content rest : Bytes} {es : List (Bytes × Bytes)} {fs fs' : Fs Bytes}

theorem entriesFrom_stop (h : found fin p = .stop) : entriesFrom fin p = some [] := by
  rw [entriesFrom]
  split
  · rfl
  · next h' => cases h.symm.trans h'
  · next h' => cases h.symm.trans h'

theorem entriesFrom_around (h : found fin p = .around) : entriesFrom fin p = none := by
  rw [entriesFrom]
  split
  · next h' => cases h.symm.trans h'
  · rfl
  · next h' => cases h.symm.trans h'

theorem entriesFrom_entry (h : found fin p = .entry name content rest) :
    entriesFrom fin p = (entriesFrom fin rest).map ((name, content) :: ·) := by
  rw [entriesFrom]
  split
  · next h' => cases h.symm.trans h'
  · next h' => cases h.symm.trans h'
  · next h' =>
    cases h.symm.trans h'
    rfl

theorem unpackFrom_stop (h : found fin p = .stop) :
    unpackFrom fin destdir dest files p = some (.done dest files) := by
  rw [unpackFrom]
  split
  · rfl
  · next h' => cases h.symm.trans h'
  · next h' => cases h.symm.trans h'

theorem unpackFrom_entry (h : found fin p = .entry name content rest) :
    unpackFrom fin destdir dest files p =
      if unsafeName name then unpackFrom fin destdir dest files rest
      else match stored destdir dest name content with
        | none => some (.unwritten (destdir ++ 47 :: name) (madeFor destdir dest name))
        | some fs => unpackFrom fin destdir (some fs) (files + 1) rest := by
  rw [unpackFrom]
  split
  · next h' => cases h.symm.trans h'
  · next h' => cases h.symm.trans h'
  · next h' =>
    cases h.symm.trans h'
    rfl

/-- the entries are those that the rules for a position give -/
theorem entriesFrom_induct {P : Bytes → List (Bytes × Bytes) → Prop}
    (hstop : ∀ p, found fin p = .stop → P p [])
    (hentry : ∀ p name content rest es, found fin p = .entry name content rest → P rest es →
      P p ((name, content) :: es))
    (h : entriesFrom fin p = some es) : P p es := by
  generalize hn : p.length = n
  induction n using Nat.strongRecOn generalizing p es with
  | ind n ih =>
    cases hf : found fin p with
    | stop =>
      rw [entriesFrom_stop hf] at h
      cases h
      exact hstop p hf
    | around =>
      rw [entriesFrom_around hf] at h
      cases h
    | entry name content rest =>
      rw [entriesFrom_entry hf] at h
      obtain ⟨es, hes, rfl⟩ := Option.map_eq_some_iff.mp h
      exact hentry p name content rest es hf (ih _ (hn ▸ found_shorter fin hf) hes rfl)

/-- the loop stores the entries one after the other -/
theorem unpackFrom_run (h : entriesFrom fin p = some es) (dest : Option (Fs Bytes)) (files : Nat) :
    unpackFrom fin destdir dest files p = some (runEntries destdir dest files es) := by
  refine entriesFrom_induct (P := fun p es => ∀ dest files,
    unpackFrom fin destdir dest files p = some (runEntries destdir dest files es)) ?_ ?_ h dest files
  · exact fun p hf dest files => unpackFrom_stop hf
  · intro p name content rest es hf ih dest files
    rw [unpackFrom_entry hf, runEntries]
    split
    · exact ih dest files
    · cases stored destdir dest name content with
      | none => rfl
      | some fs => exact ih (some fs) (files + 1)

/-! ## the other model of the loop -/

/-- the destination, where the process goes on -/
def Unpacked.result : Unpacked → Option (Fs Bytes)
  | .done dest _ => dest
  | .unwritten _ _ => none

theorem extractFrom_stop (h : found fin p = .stop) : extractFrom destdir fs p = some fs := by
  rw [found] at h
  split at h
  · next hp => exact extractFrom_none hp
  · next b body hp =>
    rw [extractFrom_line hp, atLine]
    dsimp only at h
    split
    · rfl
    · rename_i h1
      rw [if_neg h1] at h
      split
      · rfl
      · rename_i h2
        rw [if_neg h2] at h
        cases hd : ((p.takeWhile fun c => c ≠ 10).takeWhile fun c => c ≠ 0).dropWhile
            fun c => c ≠ 32 with
        | nil => rfl
        | cons d num =>
          rw [hd] at h
          dsimp only at h ⊢
          split at h
          · cases h
          · split at h
            · next hlt => rw [atFile, if_pos hlt]
            · cases h

theorem extractFrom_found (h : found fin p = .entry name content rest) :
    extractFrom destdir fs p = if unsafeName name then extractFrom destdir fs rest
      else (stored destdir (some fs) name content).bind fun fs' => extractFrom destdir fs' rest := by
  rw [found] at h
  split at h
  · cases h
  · next b body hp =>
    rw [extractFrom_line hp, atLine]
    dsimp only at h
    split at h
    · cases h
    split at h
    · cases h
    rename_i h1 h2
    rw [if_neg h1, if_neg h2]
    cases hd : ((p.takeWhile fun c => c ≠ 10).takeWhile fun c => c ≠ 0).dropWhile
        fun c => c ≠ 32 with
    | nil =>
      rw [hd] at h
      cases h
    | cons d num =>
      rw [hd] at h
      dsimp only at h ⊢
      split at h
      · cases h
      split at h
      · cases h
      · next hlt =>
        cases h
        rw [atFile, if_neg hlt]
        rfl

/-- **Where no size goes around**, the loop does what `extractFrom` does. -/
theorem unpackFrom_extract (h : entriesFrom fin p = some es) (fs : Fs Bytes) (files : Nat) :
    (unpackFrom fin destdir (some fs) files p).map Unpacked.result =
      some (extractFrom destdir fs p) := by
  rw [unpackFrom_run h, Option.map_some]
  congr 1
  refine entriesFrom_induct (P := fun p es => ∀ fs files,
    (runEntries destdir (some fs) files es).result = extractFrom destdir fs p) ?_ ?_ h fs files
  · exact fun p hf fs files => (extractFrom_stop hf).symm
  · intro p name content rest es hf ih fs files
    rw [extractFrom_found hf, runEntries]
    split
    · exact ih fs files
    · cases stored destdir (some fs) name content with
      | none => rfl
      | some fs' => exact ih fs' (files + 1)

/-! ## what is in a file -/

/-- the content of the last entry for the place `p` -/
def fileAt (p : List Bytes) : List (Bytes × Bytes) → Option Bytes
  | [] => none
  | e :: es => (fileAt p es).or (if resolve e.1 = p then some e.2 else none)

/-- the entries that are not passed over -/
def taken (es : List (Bytes × Bytes)) : List (Bytes × Bytes) := es.filter fun e => !unsafeName e.1

/-- the content of the file at `p` -/
def contentAt (dest : Option (Fs Bytes)) (p : List Bytes) : Option Bytes :=
  match dest.bind fun fs => fs.node p with
  | some (.file c) => some c
  | _ => none

theorem contentAt_iff {c : Bytes} {p : List Bytes} :
    contentAt (some fs) p = some c ↔ fs.node p = some (.file c) := by
  show (match fs.node p with | some (.file c) => some c | _ => none) = some c ↔ _
  cases hn : fs.node p with
  | none => simp
  | some n => cases n <;> simp

theorem mkdir_content (s : Bytes) (p : List Bytes) :
    contentAt (some (mkdir destdir fs s)) p = contentAt (some fs) p := by
  rw [mkdir]
  split
  · rfl
  · next q hq =>
    apply Option.ext
    intro c
    rw [contentAt_iff, contentAt_iff]
    refine ⟨fun h => ?_, fun h => Fs.mkdir_old h _⟩
    rcases Fs.mkdir_new h with h | h
    · exact h
    · cases h.2.2

theorem pathMkdirFor_content (s : Bytes) (p : List Bytes) :
    contentAt (some (pathMkdirFor destdir fs s)) p = contentAt (some fs) p := by
  have hfold : ∀ (l : List Bytes) (fs : Fs Bytes),
      contentAt (some (l.foldl (mkdir destdir) fs)) p = contentAt (some fs) p := by
    intro l
    induction l with
    | nil => exact fun fs => rfl
    | cons s l ih => exact fun fs => (ih _).trans (mkdir_content s p)
  rw [pathMkdirFor]
  split
  · rfl
  · rw [mkdirP]
    split
    · rfl
    · rw [mkdir_content, hfold]

/-- one entry -/
theorem stored_content (h : stored destdir dest name content = some fs) (p : List Bytes) :
    contentAt (some fs) p =
      if resolve name = p then some content else contentAt dest p := by
  obtain ⟨fs₁, hmade, hw⟩ := Option.bind_eq_some_iff.mp h
  obtain ⟨fs₀, rfl, rfl⟩ := Option.map_eq_some_iff.mp hmade
  rw [writeAll, under_append] at hw
  dsimp only at hw
  have hnode : ∀ q, fs.node q = if q = resolve name then some (.file content)
      else (pathMkdirFor destdir fs₀ (destdir ++ 47 :: name)).node q := by
    split at hw
    · cases hw
    · split at hw
      · exact fun q => Fs.write_node hw
      · cases hw
  apply Option.ext
  intro c
  rw [contentAt_iff, hnode]
  by_cases hp : resolve name = p
  · rw [if_pos hp, if_pos hp.symm]
    simp
  · rw [if_neg hp, if_neg (Ne.symm hp), ← pathMkdirFor_content (destdir ++ 47 :: name),
      contentAt_iff]

/-- **What is in a file** is what the last entry for it has, or what was there. -/
theorem run_content {n : Nat} {d : Option (Fs Bytes)} (h : runEntries destdir dest files es = .done d n)
    (p : List Bytes) : contentAt d p = (fileAt p (taken es)).or (contentAt dest p) := by
  induction es generalizing dest files with
  | nil =>
    cases h
    rfl
  | cons e es ih =>
    rw [runEntries] at h
    cases hu : unsafeName e.1 with
    | true =>
      have htaken : taken (e :: es) = taken es := List.filter_cons_of_neg (by simp [hu])
      rw [if_pos hu] at h
      rw [htaken, ih h]
    | false =>
      have htaken : taken (e :: es) = e :: taken es := List.filter_cons_of_pos (by simp [hu])
      rw [if_neg (by simp [hu])] at h
      rw [htaken, fileAt, Option.or_assoc]
      cases hs : stored destdir dest e.1 e.2 with
      | none =>
        rw [hs] at h
        cases h
      | some fs =>
        rw [hs] at h
        rw [ih h, stored_content hs]
        split <;> rfl

/-- files without directories are stored where no directory is in the way -/
theorem runEntries_flat (hes : ∀ e ∈ es, unsafeName e.1 = false ∧ IsName e.1)
    (hroot : ∀ p, fs.node p = some .dir → p = []) : ∃ fs',
      runEntries destdir (some fs) files es = .done (some fs') (files + es.length) := by
  induction es generalizing fs files with
  | nil => exact ⟨fs, rfl⟩
  | cons e es ih =>
    obtain ⟨hsafe, hname⟩ := hes e List.mem_cons_self
    -- it is stored like a file of the root
    have hf : NamesOk ⟨[], e.1, e.2⟩ := ⟨fun x hx => (nomatch hx), hname⟩
    have heq : stored destdir (some fs) e.1 e.2 = fs.write [e.1] e.2 := storeFile_eq hf (.inl rfl)
    obtain ⟨fs₁, hw⟩ := (Fs.write_iff (p := []) (x := e.1) (c := e.2)).mpr
      ⟨fs.root, fun h => List.cons_ne_nil _ _ (hroot _ h)⟩
    have hroot₁ : ∀ p, fs₁.node p = some .dir → p = [] := by
      intro p hp
      rw [Fs.write_node hw] at hp
      split at hp
      · cases hp
      · exact hroot p hp
    obtain ⟨fs', hfs'⟩ := @ih (files + 1) _ (fun e' he' => hes e' (List.mem_cons_of_mem e he'))
      hroot₁
    refine ⟨fs', ?_⟩
    rw [runEntries, if_neg (by simp [hsafe]), heq]
    simp only [List.nil_append] at hw
    rw [hw]
    dsimp only
    rw [hfs', List.length_cons, Nat.add_right_comm, Nat.add_assoc]

end

end Package
end HolyPhp
