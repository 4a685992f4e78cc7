import HolyPhp.Package.ArchivePaths
import Mathlib.Data.List.TakeWhile

/-!
# Unpacking what was packed

* `extractFrom_pack`  an archive of files with clean paths is unpacked file by file (`runFiles`);
* `Stored`            what is in the destination when some files are stored there;
* `storeFile_iff`     the next one can be stored if and only if its directory fits the buffer and no
                      directory of an earlier one was made where it belongs;
* `runFiles_iff`      **all files come back if and only if that holds for all of them, and no header
                      is too long**;
* `extractFrom_names` whatever the archive, no file has a blank, a newline or two dots in its path.
-/

set_option linter.unusedVariables false
set_option linter.unusedSectionVars false

namespace HolyPhp
namespace Package
open Posix hiding Bytes
open Json hiding Bytes
open Substr HolyPhp.Std

/-! ## lines of an archive -/

/-- nothing that ends a header, or that the unpacker does not take -/
structure CleanText (s : Bytes) : Prop where
  noNul : 0 ∉ s
  noBlank : 32 ∉ s
  noNewline : 10 ∉ s
  noDots : ¬ [46, 46] <:+: s
  relative : s.head? ≠ some 47

section
variable {destdir : Bytes} {fs fs' : Fs Bytes} {p hdr body name c rest : Bytes} {n : Nat}

theorem extractFrom_end (fs : Fs Bytes) : extractFrom destdir fs (ascii "HPHX1\n") = some fs := by
  rw [extractFrom]
  split
  · rfl
  · rw [if_neg (by decide)]
    exact if_pos (by decide)

/-- what happens at a file -/
def atFile (destdir : Bytes) (fs : Fs Bytes) (name num body : Bytes) : Option (Fs Bytes) :=
  if body.length < strtoull num then some fs
  else if name.head? = some 47 || hasDots name then
    extractFrom destdir fs (body.drop (strtoull num))
  else (writeAll destdir (pathMkdirFor destdir fs (destdir ++ 47 :: name)) (destdir ++ 47 :: name)
    (body.take (strtoull num))).bind fun fs' => extractFrom destdir fs' (body.drop (strtoull num))

/-- what happens at a line -/
def atLine (destdir : Bytes) (fs : Fs Bytes) (line body : Bytes) : Option (Fs Bytes) :=
  if 1024 ≤ line.length then some fs
  else if line.takeWhile (fun c => c ≠ 0) = ascii "HPHX1" then some fs
  else match (line.takeWhile fun c => c ≠ 0).dropWhile fun c => c ≠ 32 with
    | [] => some fs
    | _ :: num =>
      atFile destdir fs ((line.takeWhile fun c => c ≠ 0).takeWhile fun c => c ≠ 32) num body

theorem extractFrom_none (h : p.dropWhile (fun c => c ≠ 10) = []) :
    extractFrom destdir fs p = some fs := by
  rw [extractFrom]
  split
  · rfl
  · next h' =>
    rw [h] at h'
    cases h'

theorem extractFrom_line {b : UInt8} (h : p.dropWhile (fun c => c ≠ 10) = b :: body) :
    extractFrom destdir fs p = atLine destdir fs (p.takeWhile fun c => c ≠ 10) body := by
  rw [extractFrom]
  split
  · next h' =>
    rw [h] at h'
    cases h'
  · next h' =>
    rw [h, List.cons.injEq] at h'
    obtain ⟨_, rfl⟩ := h'
    rfl

theorem decimal_clean (n : Nat) : 10 ∉ decimal n ∧ 0 ∉ decimal n := by
  constructor
  · intro h
    cases decimal_digits n _ h
  · intro h
    cases decimal_digits n _ h

theorem strtoull_decimal (h : n < 2 ^ 64) : strtoull (decimal n) = n := by
  obtain ⟨d, ds, hd, hdigit⟩ := decimal_cons n
  have hspace : (d :: ds).dropWhile isSpace = d :: ds :=
    List.dropWhile_cons_of_neg (by rw [isDigit_space hdigit]; exact Bool.false_ne_true)
  have hval := leadingNat_decimal n
  rw [hd] at hval
  rw [strtoull, hd, hspace]
  split
  · next h' =>
    cases h'
    cases hdigit
  · next h' =>
    cases h'
    cases hdigit
  · rw [hval]
    omega

/-- a header whose path has nothing that ends it -/
theorem extractFrom_header (h0 : 0 ∉ name) (h32 : 32 ∉ name) (h10 : 10 ∉ name) (n : Nat)
    (body : Bytes) : extractFrom destdir fs (headerText name n ++ 10 :: body) =
      if 1024 ≤ (headerText name n).length then some fs
      else atFile destdir fs name (decimal n) body := by
  obtain ⟨hd10, hd0⟩ := decimal_clean n
  have hline : 10 ∉ headerText name n := by
    rw [headerText, List.mem_append, List.mem_cons]
    rintro (h | h | h)
    · exact h10 h
    · cases h
    · exact hd10 h
  have hnul : (headerText name n).takeWhile (fun c => c ≠ 0) = headerText name n := by
    apply List.takeWhile_eq_self_iff.2
    intro b hb
    apply decide_eq_true
    rintro rfl
    rw [headerText, List.mem_append, List.mem_cons] at hb
    rcases hb with h | h | h
    · exact h0 h
    · cases h
    · exact hd0 h
  have hend : headerText name n ≠ ascii "HPHX1" := by
    intro h
    have hblank : 32 ∈ ascii "HPHX1" := by
      rw [← h]
      exact List.mem_append_right _ List.mem_cons_self
    exact absurd hblank (by decide)
  rw [extractFrom_line (dropWhile_delim hline _), takeWhile_delim hline, atLine]
  split
  · rfl
  · have hblank : (headerText name n).dropWhile (fun c => c ≠ 32) = 32 :: decimal n :=
      dropWhile_delim h32 _
    have hname : (headerText name n).takeWhile (fun c => c ≠ 32) = name := takeWhile_delim h32 _
    rw [hnul, if_neg hend, hblank, hname]

/-- a file with a clean path -/
theorem extractFrom_entry (hn : CleanText name) (hc : c.length < 2 ^ 64) (rest : Bytes) :
    extractFrom destdir fs (headerText name c.length ++ 10 :: (c ++ rest)) =
      if 1024 ≤ (headerText name c.length).length then some fs
      else (writeAll destdir (pathMkdirFor destdir fs (destdir ++ 47 :: name))
        (destdir ++ 47 :: name) c).bind fun fs' => extractFrom destdir fs' rest := by
  have hdots : hasDots name = false := by
    rw [hasDots, Bool.eq_false_iff, Ne, strstr_isSome (by decide)]
    exact hn.noDots
  have hbad : (decide (name.head? = some 47) || hasDots name) = false := by
    rw [hdots, decide_eq_false hn.relative]
    rfl
  rw [extractFrom_header hn.noNul hn.noBlank hn.noNewline]
  split
  · rfl
  · rw [atFile, strtoull_decimal hc, if_neg, hbad, List.take_left, List.drop_left]
    · rfl
    · rw [List.length_append]
      omega

/-- a file with two dots in its path is passed over -/
theorem extractFrom_dots (h0 : 0 ∉ name) (h32 : 32 ∉ name) (h10 : 10 ∉ name)
    (hd : hasDots name = true) (hc : c.length < 2 ^ 64) (rest : Bytes) :
    extractFrom destdir fs (headerText name c.length ++ 10 :: (c ++ rest)) =
      if 1024 ≤ (headerText name c.length).length then some fs
      else extractFrom destdir fs rest := by
  rw [extractFrom_header h0 h32 h10]
  split
  · rfl
  · rw [atFile, strtoull_decimal hc, if_neg, hd, Bool.or_true, if_pos rfl, List.drop_left]
    rw [List.length_append]
    omega

end

/-! ## file by file -/

/-- the line in front of the file fits the buffer of the unpacker -/
def HeaderFits (f : FileEntry) : Prop := (headerText f.text f.content.length).length < 1024

instance (f : FileEntry) : Decidable (HeaderFits f) :=
  inferInstanceAs (Decidable ((headerText f.text f.content.length).length < 1024))

section
variable (destdir : Bytes)

/-- one file of an archive -/
def storeFile (fs : Fs Bytes) (f : FileEntry) : Option (Fs Bytes) :=
  writeAll destdir (pathMkdirFor destdir fs (destdir ++ 47 :: f.text)) (destdir ++ 47 :: f.text)
    f.content

/-- the files of an archive, up to a header that is too long -/
def runFiles : Fs Bytes → List FileEntry → Option (Fs Bytes)
  | fs, [] => some fs
  | fs, f :: l =>
    if HeaderFits f then (storeFile destdir fs f).bind fun fs' => runFiles fs' l else some fs

end

/-- path and content, as they are packed -/
def FileEntry.packed (f : FileEntry) : Bytes × Bytes := (f.text, f.content)

section
variable {destdir : Bytes} {fs fs' : Fs Bytes} {l m : List FileEntry} {f g : FileEntry}

theorem packText_cons (a : Bytes × Bytes) (l : List (Bytes × Bytes)) :
    packText (a :: l) = headerText a.1 a.2.length ++ 10 :: (a.2 ++ packText l) := by
  rw [packText, List.flatMap_cons, List.append_assoc, List.append_assoc]
  rfl

theorem extractFrom_pack (hl : ∀ f ∈ l, CleanText f.text)
    (hc : ∀ f ∈ l, f.content.length < 2 ^ 64) (fs : Fs Bytes) :
    extractFrom destdir fs (packText (l.map FileEntry.packed)) = runFiles destdir fs l := by
  induction l generalizing fs with
  | nil => exact extractFrom_end fs
  | cons f l ih =>
    rw [List.map_cons, packText_cons]
    have hentry := @extractFrom_entry destdir fs _ _ (hl f List.mem_cons_self)
      (hc f List.mem_cons_self) (packText (l.map FileEntry.packed))
    have hih := ih (fun g hg => hl g (List.mem_cons_of_mem f hg))
      fun g hg => hc g (List.mem_cons_of_mem f hg)
    refine hentry.trans ?_
    rw [runFiles]
    by_cases hh : HeaderFits f
    · rw [if_neg (Nat.not_le.2 hh), if_pos hh]
      exact congrArg _ (funext hih)
    · rw [if_pos (Nat.not_lt.1 hh), if_neg hh]

/-! ## what is in the destination -/

/-- a directory of the file `g` is called like the file `f`, with a backslash and more behind it -/
def Shadows (f g : FileEntry) : Prop :=
  ∃ rest up, g.parents = f.parents ++ (f.name ++ 92 :: rest) :: up

/-- none of two files stands at or below the other one -/
def Apart (f g : FileEntry) : Prop := ¬ f.path <+: g.path ∧ ¬ g.path <+: f.path

/-- the files `l` are there, and the directories that were made for them -/
structure Stored (destdir : Bytes) (l : List FileEntry) (fs : Fs Bytes) : Prop where
  files : ∀ p c, fs.node p = some (.file c) ↔ ∃ f ∈ l, f.path = p ∧ f.content = c
  dirs : ∀ p, fs.node p = some .dir → p = [] ∨ ∃ f ∈ l, p ∈ makes [] f.parents
  made : ∀ f ∈ l, ∀ p ∈ makes [] f.parents, fs.node p ≠ none
  fits : ∀ f ∈ l, DestFits destdir f
  names : ∀ f ∈ l, NamesOk f

theorem Stored.empty : Stored destdir [] Fs.empty where
  files := by
    intro p c
    refine ⟨fun h => ?_, fun h => ?_⟩
    · have h' : (if p = [] then some Node.dir else none) = some (Node.file c) := h
      split at h' <;> cases h'
    · obtain ⟨f, hf, _⟩ := h
      cases hf
  dirs := by
    intro p h
    have h' : (if p = [] then some Node.dir else none) = some (Node.dir : Node Bytes) := h
    split at h'
    · next hp => exact .inl hp
    · cases h'
  made := fun f hf => nomatch hf
  fits := fun f hf => nomatch hf
  names := fun f hf => nomatch hf

theorem prefix_path (f : FileEntry) (k : Nat) : f.parents.take k <+: f.path :=
  (List.take_prefix k f.parents).trans (List.prefix_append f.parents [f.name])

/-- the places that are made for a file are no longer than its directory -/
theorem length_makes {p : List Bytes} (hg : NamesOk g) (h : p ∈ makes [] g.parents) :
    (dirText p).length ≤ (dirText g.parents).length := by
  rcases of_mem_makes (fun x hx => (hg.parents x hx).noSlash) h with rfl | ⟨r, x, rfl, hr⟩
  · exact Nat.zero_le _
  · rw [List.nil_append]
    rcases hr with hr | ⟨rest, up, hr⟩
    · exact length_dirText_le hr.sublist
    · rw [hr, dirText_append, dirText_append, dirText_cons, dirText_cons]
      simp only [List.length_append, List.length_cons]
      have hnil : (dirText []).length = 0 := rfl
      omega

/-- a place that is made for a file is that of another file -/
theorem shadows_iff (hf : NamesOk f) (hg : NamesOk g) (hfg : ¬ f.path <+: g.path) :
    f.path ∈ makes [] g.parents ↔ Shadows f g := by
  have hslash : ∀ x ∈ g.parents, 47 ∉ x := fun x hx => (hg.parents x hx).noSlash
  constructor
  · intro h
    rcases of_mem_makes hslash h with h | ⟨r, x, hrx, hr⟩
    · exact absurd h (List.append_ne_nil_of_right_ne_nil _ (List.cons_ne_nil _ _))
    · rw [List.nil_append, FileEntry.path] at hrx
      obtain ⟨rfl, hx⟩ := List.append_inj' hrx rfl
      obtain rfl := (List.cons.inj hx).1
      rcases hr with hr | ⟨rest, up, hr⟩
      · exact absurd (hr.trans (List.prefix_append g.parents [g.name])) hfg
      · exact ⟨rest, up, hr⟩
  · rintro ⟨rest, up, h⟩
    exact mem_makes (p := []) hslash hf.name.leads h

theorem not_mem_makes_self (hf : NamesOk f) : f.path ∉ makes [] f.parents := by
  intro h
  rcases of_mem_makes (fun x hx => (hf.parents x hx).noSlash) h with h | ⟨r, x, hrx, hr⟩
  · exact absurd h (List.append_ne_nil_of_right_ne_nil _ (List.cons_ne_nil _ _))
  · rw [List.nil_append, FileEntry.path] at hrx
    obtain ⟨rfl, _⟩ := List.append_inj' hrx rfl
    have hlen : f.parents.length < f.parents.length := by
      rcases hr with hr | ⟨rest, up, hr⟩
      · have := hr.length_le
        rw [List.length_append, List.length_singleton] at this
        omega
      · have := congrArg List.length hr
        rw [List.length_append, List.length_cons] at this
        omega
    exact absurd hlen (Nat.lt_irrefl _)

/-- the directories of the next file -/
theorem Stored.mkdirs (h : Stored destdir l fs) (hapart : ∀ g ∈ l, Apart g f) :
    (Package.mkdirs fs (makes [] f.parents)).node f.parents = some .dir ∧
      ∀ q ∈ makes [] f.parents, (Package.mkdirs fs (makes [] f.parents)).node q ≠ none := by
  apply mkdirs_makes (p := []) fs.root
  intro k c hc
  obtain ⟨g, hg, hpath, _⟩ := (h.files _ c).1 hc
  apply (hapart g hg).1
  rw [hpath]
  exact prefix_path f k

theorem storeFile_eq (hf : NamesOk f) (hd : DestFits destdir f) : storeFile destdir fs f =
    (Package.mkdirs fs (makes [] f.parents)).write (f.parents ++ [f.name]) f.content := by
  rw [storeFile, writeAll_eq hf, pathMkdirFor_eq hf hd]

/-- where the next file can be stored -/
theorem storeFile_iff (h : Stored destdir l fs) (hf : NamesOk f) (hapart : ∀ g ∈ l, Apart g f) :
    (∃ fs', storeFile destdir fs f = some fs') ↔
      DestFits destdir f ∧ ∀ g ∈ l, ¬ Shadows f g := by
  by_cases hd : DestFits destdir f
  · obtain ⟨hdir, _⟩ := h.mkdirs hapart
    rw [storeFile_eq hf hd, Fs.write_iff]
    constructor
    · intro hw
      refine ⟨hd, fun g hg hs => ?_⟩
      -- the place is taken, and by no file
      have hmem := (shadows_iff hf (h.names g hg) (hapart g hg).2).2 hs
      obtain ⟨n, hn⟩ := Option.ne_none_iff_exists'.1 (h.made g hg _ hmem)
      cases n with
      | dir => exact hw.2 (mkdirs_old hn _)
      | file c =>
        obtain ⟨k, hk, hpath, _⟩ := (h.files _ c).1 hn
        apply (hapart k hk).1
        rw [hpath]
    · intro hs
      refine ⟨hdir, fun hn => ?_⟩
      rcases mkdirs_new hn with hn | hn
      · rcases h.dirs _ hn with hnil | ⟨g, hg, hmem⟩
        · exact absurd hnil (List.append_ne_nil_of_right_ne_nil _ (List.cons_ne_nil _ _))
        · exact hs.2 g hg ((shadows_iff hf (h.names g hg) (hapart g hg).2).1 hmem)
      · exact not_mem_makes_self hf hn.1
  · refine ⟨fun hw => ?_, fun hs => absurd hs.1 hd⟩
    -- the directory of the file is not there
    rw [storeFile, writeAll_eq hf, Fs.write_iff] at hw
    rcases h.dirs _ (pathMkdirFor_long hd hw.1) with hnil | ⟨g, hg, hmem⟩
    · exact absurd (.inl hnil) hd
    · have hlen := length_makes (h.names g hg) hmem
      refine absurd (.inr ?_) hd
      rcases h.fits g hg with hnil | hfit
      · rw [hnil] at hmem
        cases hmem
      · rw [List.length_append, List.length_cons] at hfit ⊢
        omega

/-- what is there then -/
theorem Stored.step (h : Stored destdir l fs) (hf : NamesOk f) (hapart : ∀ g ∈ l, Apart g f)
    (hs : storeFile destdir fs f = some fs') : Stored destdir (l ++ [f]) fs' := by
  have hd := ((storeFile_iff h hf hapart).1 ⟨fs', hs⟩).1
  obtain ⟨hdir, hmade⟩ := h.mkdirs hapart
  rw [storeFile_eq hf hd] at hs
  have hnode : ∀ q, fs'.node q = if q = f.path then some (.file f.content)
      else (Package.mkdirs fs (makes [] f.parents)).node q := fun q => Fs.write_node hs
  have hmem : ∀ g, g ∈ l ++ [f] ↔ g ∈ l ∨ g = f := fun g => by
    rw [List.mem_append, List.mem_singleton]
  refine ⟨fun p c => ?_, fun p hp => ?_, fun g hg p hp => ?_, fun g hg => ?_, fun g hg => ?_⟩
  · rw [hnode]
    split
    · next hp =>
      constructor
      · intro hc
        exact ⟨f, (hmem f).2 (.inr rfl), hp.symm, Node.file.inj (Option.some.inj hc)⟩
      · rintro ⟨g, hg, hpath, hc⟩
        rcases (hmem g).1 hg with hg | rfl
        · refine absurd ?_ (hapart g hg).1
          rw [hpath, hp]
        · rw [hc]
    · next hp =>
      have hold : (Package.mkdirs fs (makes [] f.parents)).node p = some (.file c) ↔
          fs.node p = some (.file c) := by
        refine ⟨fun hc => ?_, fun hc => mkdirs_old hc _⟩
        rcases mkdirs_new hc with hc | hc
        · exact hc
        · cases hc.2.2
      rw [hold, h.files]
      constructor
      · rintro ⟨g, hg, hgp⟩
        exact ⟨g, (hmem g).2 (.inl hg), hgp⟩
      · rintro ⟨g, hg, hgp⟩
        rcases (hmem g).1 hg with hg | rfl
        · exact ⟨g, hg, hgp⟩
        · exact absurd hgp.1.symm hp
  · rw [hnode] at hp
    split at hp
    · cases hp
    · rcases mkdirs_new hp with hp | hp
      · rcases h.dirs p hp with hp | ⟨g, hg, hgp⟩
        · exact .inl hp
        · exact .inr ⟨g, (hmem g).2 (.inl hg), hgp⟩
      · exact .inr ⟨f, (hmem f).2 (.inr rfl), hp.1⟩
  · rw [hnode]
    split
    · exact Option.some_ne_none _
    · rcases (hmem g).1 hg with hg | rfl
      · obtain ⟨n, hn⟩ := Option.ne_none_iff_exists'.1 (h.made g hg p hp)
        rw [mkdirs_old hn]
        exact Option.some_ne_none _
      · exact hmade p hp
  · rcases (hmem g).1 hg with hg | rfl
    · exact h.fits g hg
    · exact hd
  · rcases (hmem g).1 hg with hg | rfl
    · exact h.names g hg
    · exact hf

/-- the conditions on the files of an archive, beside clean paths -/
structure Storable (destdir : Bytes) (l : List FileEntry) : Prop where
  header : ∀ f ∈ l, HeaderFits f
  dest : ∀ f ∈ l, DestFits destdir f
  apart : l.Pairwise fun g f => ¬ Shadows f g

/-- what comes back -/
theorem runFiles_stored (h : Stored destdir m fs) (hf : ∀ f ∈ l, NamesOk f)
    (hapart : (m ++ l).Pairwise Apart) (hh : ∀ f ∈ l, HeaderFits f)
    (hr : runFiles destdir fs l = some fs') : Stored destdir (m ++ l) fs' := by
  induction l generalizing m fs with
  | nil =>
    cases hr
    rw [List.append_nil]
    exact h
  | cons f l ih =>
    rw [runFiles, if_pos (hh f List.mem_cons_self), Option.bind_eq_some_iff] at hr
    obtain ⟨fs₁, hs, hr⟩ := hr
    have hf1 : ∀ g ∈ m, Apart g f := fun g hg =>
      (List.pairwise_append.1 hapart).2.2 g hg f List.mem_cons_self
    have hassoc : m ++ f :: l = (m ++ [f]) ++ l := by rw [List.append_assoc]; rfl
    rw [hassoc] at hapart ⊢
    exact ih (h.step (hf f List.mem_cons_self) hf1 hs)
      (fun g hg => hf g (List.mem_cons_of_mem f hg)) hapart
      (fun g hg => hh g (List.mem_cons_of_mem f hg)) hr

theorem storable_cons : Storable destdir (f :: l) ↔ HeaderFits f ∧ DestFits destdir f ∧
    (∀ g ∈ l, ¬ Shadows g f) ∧ Storable destdir l := by
  constructor
  · intro h
    obtain ⟨h1, h2⟩ := List.pairwise_cons.1 h.apart
    exact ⟨h.header f List.mem_cons_self, h.dest f List.mem_cons_self, h1,
      fun g hg => h.header g (List.mem_cons_of_mem f hg),
      fun g hg => h.dest g (List.mem_cons_of_mem f hg), h2⟩
  · rintro ⟨hh, hd, hs, h⟩
    exact ⟨List.forall_mem_cons.2 ⟨hh, h.header⟩, List.forall_mem_cons.2 ⟨hd, h.dest⟩,
      List.pairwise_cons.2 ⟨hs, h.apart⟩⟩

/-- all files come back if and only if the headers and the directories fit, and no directory was
made where a later file belongs -/
theorem runFiles_iff (h : Stored destdir m fs) (hf : ∀ f ∈ l, NamesOk f)
    (hapart : (m ++ l).Pairwise Apart) :
    (∃ fs', runFiles destdir fs l = some fs' ∧
      ∀ f ∈ l, fs'.node f.path = some (.file f.content)) ↔
    Storable destdir l ∧ ∀ g ∈ m, ∀ f ∈ l, ¬ Shadows f g := by
  induction l generalizing m fs with
  | nil =>
    refine ⟨fun _ => ⟨⟨?_, ?_, .nil⟩, ?_⟩, fun _ => ⟨fs, rfl, ?_⟩⟩
    · exact fun f hf => nomatch hf
    · exact fun f hf => nomatch hf
    · exact fun g _ f hf => nomatch hf
    · exact fun f hf => nomatch hf
  | cons f l ih =>
    have hfirst := hf f List.mem_cons_self
    have hf1 : ∀ g ∈ m, Apart g f := fun g hg =>
      (List.pairwise_append.1 hapart).2.2 g hg f List.mem_cons_self
    have hassoc : m ++ f :: l = (m ++ [f]) ++ l := by rw [List.append_assoc]; rfl
    have hapart' : ((m ++ [f]) ++ l).Pairwise Apart := hassoc ▸ hapart
    have hnext : ∀ fs₁, storeFile destdir fs f = some fs₁ →
        ((∃ fs', runFiles destdir fs₁ l = some fs' ∧
          ∀ g ∈ l, fs'.node g.path = some (.file g.content)) ↔
        Storable destdir l ∧ ∀ g ∈ m ++ [f], ∀ k ∈ l, ¬ Shadows k g) := fun fs₁ hs =>
      ih (h.step hfirst hf1 hs) (fun g hg => hf g (List.mem_cons_of_mem f hg)) hapart'
    rw [storable_cons]
    constructor
    · rintro ⟨fs', hr, hfiles⟩
      by_cases hh : HeaderFits f
      · rw [runFiles, if_pos hh, Option.bind_eq_some_iff] at hr
        obtain ⟨fs₁, hs, hr⟩ := hr
        obtain ⟨hd, hm⟩ := (storeFile_iff h hfirst hf1).1 ⟨fs₁, hs⟩
        obtain ⟨hl, hml⟩ := (hnext fs₁ hs).1
          ⟨fs', hr, fun g hg => hfiles g (List.mem_cons_of_mem f hg)⟩
        have hself : f ∈ m ++ [f] := List.mem_append_right m (List.mem_singleton_self f)
        refine ⟨⟨hh, hd, fun g hg => hml f hself g hg, hl⟩, fun g hg k hk => ?_⟩
        rcases List.mem_cons.1 hk with rfl | hk
        · exact hm g hg
        · exact hml g (List.mem_append_left _ hg) k hk
      · -- nothing is written from here on
        rw [runFiles, if_neg hh] at hr
        cases hr
        obtain ⟨g, hg, hpath, _⟩ := (h.files _ _).1 (hfiles f List.mem_cons_self)
        refine absurd ?_ (hf1 g hg).1
        rw [hpath]
    · rintro ⟨⟨hh, hd, hfl, hl⟩, hml⟩
      obtain ⟨fs₁, hs⟩ := (storeFile_iff h hfirst hf1).2
        ⟨hd, fun g hg => hml g hg f List.mem_cons_self⟩
      have hshadow : ∀ g ∈ m ++ [f], ∀ k ∈ l, ¬ Shadows k g := by
        intro g hg k hk
        rw [List.mem_append, List.mem_singleton] at hg
        rcases hg with hg | rfl
        · exact hml g hg k (List.mem_cons_of_mem f hk)
        · exact hfl k hk
      obtain ⟨fs', hr, _⟩ := (hnext fs₁ hs).2 ⟨hl, hshadow⟩
      have hrun : runFiles destdir fs (f :: l) = some fs' := by
        rw [runFiles, if_pos hh, hs]
        exact hr
      have hstored := runFiles_stored h hf hapart
        (List.forall_mem_cons.2 ⟨hh, hl.header⟩) hrun
      exact ⟨fs', hrun, fun g hg =>
        (hstored.files _ _).2 ⟨g, List.mem_append_right m hg, rfl, rfl⟩⟩

/-! ## what can be in the destination at all -/

/-- the files that are there have paths that the unpacker takes -/
def TakenPaths (fs : Fs Bytes) : Prop :=
  ∀ p c, fs.node p = some (.file c) →
    ∃ name, 32 ∉ name ∧ 10 ∉ name ∧ hasDots name = false ∧ p = resolve name

theorem TakenPaths.mkdir (h : TakenPaths fs) (path : Bytes) :
    TakenPaths (pathMkdirFor destdir fs path) := by
  intro p c hc
  rw [pathMkdirFor] at hc
  split at hc
  · exact h p c hc
  · rcases mkdirP_new hc with hc | hc
    · exact h p c hc
    · cases hc.1

theorem TakenPaths.write (h : TakenPaths fs) {name content : Bytes} (h32 : 32 ∉ name)
    (h10 : 10 ∉ name) (hd : hasDots name = false)
    (hw : writeAll destdir fs (destdir ++ 47 :: name) content = some fs') : TakenPaths fs' := by
  rw [writeAll, under_append] at hw
  intro p c hc
  split at hw
  · next hu => cases hu
  · next q hu =>
    obtain rfl := Option.some.inj hu
    split at hw
    · cases hw
    · split at hw
      · rw [Fs.write_node hw] at hc
        split at hc
        · next hp => exact ⟨name, h32, h10, hd, hp⟩
        · exact h p c hc
      · cases hw

theorem TakenPaths.extract (p : Bytes) (h : TakenPaths fs)
    (hr : extractFrom destdir fs p = some fs') : TakenPaths fs' := by
  generalize hlen : p.length = n
  induction n using Nat.strongRecOn generalizing p fs with
  | ind n ih =>
    cases hp : p.dropWhile (fun c => c ≠ 10) with
    | nil =>
      rw [extractFrom_none hp] at hr
      cases hr
      exact h
    | cons b body =>
      have hbody : ∀ k, (body.drop k).length < n := by
        intro k
        have := (List.dropWhile_suffix (fun c => c ≠ 10) (l := p)).length_le
        rw [hp, List.length_cons] at this
        rw [List.length_drop]
        omega
      rw [extractFrom_line hp, atLine] at hr
      split at hr
      · cases hr
        exact h
      split at hr
      · cases hr
        exact h
      split at hr
      · cases hr
        exact h
      rw [atFile] at hr
      split at hr
      · cases hr
        exact h
      split at hr
      · exact ih _ (hbody _) _ h hr rfl
      · next hbad =>
        rw [Option.bind_eq_some_iff] at hr
        obtain ⟨fs₁, hw, hr⟩ := hr
        rw [Bool.not_eq_true, Bool.or_eq_false_iff] at hbad
        refine ih _ (hbody _) _ ((h.mkdir _).write ?_ ?_ hbad.2 hw) hr rfl
        · intro h32
          have := List.mem_takeWhile_imp h32
          simp at this
        · intro h10
          have hmem := (List.takeWhile_prefix _).subset ((List.takeWhile_prefix _).subset h10)
          have := List.mem_takeWhile_imp hmem
          simp at this

end

end Package
end HolyPhp
