import HolyPhp.Package.ArchiveRun
import Mathlib.Data.List.Nodup
import Mathlib.Data.List.Pairwise

/-!
# Round trips of archives

* `Tree`, `Tree.files`  a directory tree and its files, as they are found;
* `collect_all`   if the paths of all directories with files fit the buffer, every file is collected,
                  whatever else there is; `collect_cut` which ones are, if a path that was cut off
                  leads to nothing;
* `archive_iff`   **unpacking what was packed gives the same files if and only if the tree is
                  `Packable`.**
-/

set_option linter.unusedVariables false

namespace HolyPhp
namespace Package
open Posix hiding Bytes
open Json hiding Bytes

/-! ## trees -/

/-- a name in a directory that is not `hphp.lock` -/
structure FileName (x : Bytes) : Prop where
  isName : IsName x
  noNul : 0 ∉ x
  notUp : x ≠ ascii ".."
  notLock : x ≠ lockName

mutual

def SrcNode.Valid : SrcNode → Prop
  | .file _ => True
  | .dir es => (es.map Prod.fst).Nodup ∧ validEntries es

def validEntries : List (Bytes × SrcNode) → Prop
  | [] => True
  | e :: es => FileName e.1 ∧ e.2.Valid ∧ validEntries es

end

/-- a directory with distinct names at every level -/
structure Tree where
  entries : List (Bytes × SrcNode)
  valid : (SrcNode.dir entries).Valid

mutual

/-- the files of an entry `name` in the directory with these names above it -/
def nodeFiles (parents : List Bytes) (name : Bytes) : SrcNode → List FileEntry
  | .file c => [⟨parents, name, c⟩]
  | .dir es => entryFiles (parents ++ [name]) es

def entryFiles (parents : List Bytes) : List (Bytes × SrcNode) → List FileEntry
  | [] => []
  | e :: es => nodeFiles parents e.1 e.2 ++ entryFiles parents es

end

/-- the finite map from paths to contents, in the order of the directories -/
def Tree.files (t : Tree) : List FileEntry := entryFiles [] t.entries

/-! ## the files of a tree -/

/-- good names, and a path that goes on from these names -/
structure FileIn (parents : List Bytes) (f : FileEntry) : Prop where
  below : parents <+: f.parents
  names : ∀ x ∈ f.parents ++ [f.name], x ∈ parents ∨ FileName x

section
variable {parents : List Bytes} {name : Bytes} {f g : FileEntry} {x : Bytes}

mutual

theorem fileIn_node : ∀ (n : SrcNode) (parents : List Bytes) (name : Bytes), n.Valid →
    FileName name → ∀ f ∈ nodeFiles parents name n,
      FileIn parents f ∧ parents ++ [name] <+: f.path
  | .file c, parents, name, _, hn, f, hf => by
    rw [nodeFiles, List.mem_singleton] at hf
    rw [hf]
    refine ⟨⟨List.prefix_refl _, fun x hx => ?_⟩, List.prefix_refl _⟩
    rcases List.mem_append.1 hx with hx | hx
    · exact .inl hx
    · rw [List.mem_singleton.1 hx]
      exact .inr hn
  | .dir es, parents, name, hv, hn, f, hf => by
    have h := fileIn_entries es (parents ++ [name]) hv.2 f hf
    refine ⟨⟨(List.prefix_append _ _).trans h.below, fun x hx => ?_⟩,
      h.below.trans (List.prefix_append _ _)⟩
    rcases h.names x hx with hx | hx
    · rcases List.mem_append.1 hx with hx | hx
      · exact .inl hx
      · rw [List.mem_singleton.1 hx]
        exact .inr hn
    · exact .inr hx

theorem fileIn_entries : ∀ (es : List (Bytes × SrcNode)) (parents : List Bytes),
    validEntries es → ∀ f ∈ entryFiles parents es, FileIn parents f
  | [], parents, _, f, hf => nomatch hf
  | e :: es, parents, hv, f, hf => by
    rw [entryFiles, List.mem_append] at hf
    rcases hf with hf | hf
    · exact (fileIn_node e.2 parents e.1 hv.2.1 hv.1 f hf).1
    · exact fileIn_entries es parents hv.2.2 f hf

end

/-- the first name behind the names above -/
theorem first_name : ∀ (es : List (Bytes × SrcNode)), validEntries es →
    ∀ f ∈ entryFiles parents es, ∃ e ∈ es, parents ++ [e.1] <+: f.path
  | [], _, f, hf => nomatch hf
  | e :: es, hv, f, hf => by
    rw [entryFiles, List.mem_append] at hf
    rcases hf with hf | hf
    · exact ⟨e, List.mem_cons_self, (fileIn_node e.2 parents e.1 hv.2.1 hv.1 f hf).2⟩
    · obtain ⟨d, hd, hpre⟩ := first_name es hv.2.2 f hf
      exact ⟨d, List.mem_cons_of_mem e hd, hpre⟩

/-- paths that go on with different names -/
theorem apart_of_names {x y : Bytes} (hxy : x ≠ y) (hf : parents ++ [x] <+: f.path)
    (hg : parents ++ [y] <+: g.path) : Apart f g := by
  have hne : ∀ {a b : Bytes} {p q : List Bytes}, a ≠ b → parents ++ [a] <+: p →
      parents ++ [b] <+: q → ¬ p <+: q := by
    intro a b p q hab ha hb hpq
    have heq := List.prefix_of_prefix_length_le (ha.trans hpq) hb (by simp)
    rw [List.prefix_append_right_inj] at heq
    exact hab (List.cons_prefix_cons.1 heq).1
  exact ⟨hne hxy hf hg, hne hxy.symm hg hf⟩

mutual

theorem apart_node : ∀ (n : SrcNode) (parents : List Bytes) (name : Bytes), n.Valid →
    (nodeFiles parents name n).Pairwise Apart
  | .file c, parents, name, _ => List.pairwise_singleton _ _
  | .dir es, parents, name, hv => apart_entries es (parents ++ [name]) hv.1 hv.2

theorem apart_entries : ∀ (es : List (Bytes × SrcNode)) (parents : List Bytes),
    (es.map Prod.fst).Nodup → validEntries es → (entryFiles parents es).Pairwise Apart
  | [], parents, _, _ => .nil
  | e :: es, parents, hd, hv => by
    rw [List.map_cons, List.nodup_cons] at hd
    rw [entryFiles, List.pairwise_append]
    refine ⟨apart_node e.2 parents e.1 hv.2.1, apart_entries es parents hd.2 hv.2.2, ?_⟩
    intro f hf g hg
    obtain ⟨d, hmem, hpre⟩ := first_name es hv.2.2 g hg
    refine apart_of_names ?_ (fileIn_node e.2 parents e.1 hv.2.1 hv.1 f hf).2 hpre
    intro he
    exact hd.1 (he ▸ List.mem_map_of_mem hmem)

end

end

namespace Tree
variable {t : Tree} {f : FileEntry}

theorem apart (t : Tree) : t.files.Pairwise Apart := apart_entries _ _ t.valid.1 t.valid.2

theorem fileName (hf : f ∈ t.files) {x : Bytes} (hx : x ∈ f.parents ++ [f.name]) : FileName x :=
  ((fileIn_entries _ _ t.valid.2 f hf).names x hx).resolve_left fun h => nomatch h

theorem namesOk (hf : f ∈ t.files) : NamesOk f where
  parents := fun x hx => (fileName hf (List.mem_append_left _ hx)).isName
  name := (fileName hf (List.mem_append_right _ (List.mem_singleton_self _))).isName

end Tree

/-! ## what is collected -/

/-- the path of the directory of the file fits the buffer of the packer, and its size a `long` -/
def SourceFits (dir : Bytes) (f : FileEntry) : Prop :=
  dir.length + (dirText f.parents).length < 1024 ∧ f.content.length < 2 ^ 63

instance (dir : Bytes) (f : FileEntry) : Decidable (SourceFits dir f) :=
  inferInstanceAs (Decidable (_ ∧ _))

/-- `rel` is the path of the directory with these names -/
structure RelOf (rel : Bytes) (p : List Bytes) : Prop where
  sub : ∀ name, subPath rel name = dirText p ++ name
  length : ∀ dir, (dirPath dir rel).length = dir.length + (dirText p).length

section
variable {other : Bytes → List Bytes} {dir rel sub : Bytes} {p : List Bytes} {name : Bytes}
  {es : List (Bytes × SrcNode)} {names : List Bytes}

theorem RelOf.root : RelOf [] [] := ⟨fun _ => rfl, fun dir => by rw [dirPath, if_pos rfl]; simp; rfl⟩

theorem RelOf.below (hn : name ≠ []) (p : List Bytes) : RelOf (dirText p ++ name) (p ++ [name]) := by
  have hne : dirText p ++ name ≠ [] := List.append_ne_nil_of_right_ne_nil _ hn
  refine ⟨fun x => ?_, fun dir => ?_⟩
  · rw [subPath, if_neg hne, dirText_snoc, List.append_assoc, List.append_assoc, List.append_assoc]
    rfl
  · rw [dirPath, if_neg hne, dirText_snoc, List.length_append, List.length_cons,
      List.length_append, List.length_append, List.length_append, List.length_singleton]
    omega

theorem buf1024_eq_iff (s : Bytes) : buf1024 s = s ↔ s.length < 1024 := by
  rw [buf1024, List.take_eq_self_iff]
  omega

theorem readdir_fits (hr : RelOf rel p) (h : dir.length + (dirText p).length < 1024)
    (hn : ∀ x ∈ names, FileName x) : readdir other dir rel names = names := by
  rw [readdir, if_pos ((buf1024_eq_iff _).2 (by rw [hr.length]; exact h)), List.filter_eq_self]
  intro x hx
  have hx := hn x hx
  have hdot : x ≠ ascii "." := by
    rintro rfl
    cases hx.isName.leads
  simp [hdot, hx.notUp, hx.notLock]

theorem readdir_cut (hr : RelOf rel p) (h : ¬ dir.length + (dirText p).length < 1024) :
    readdir (fun _ => []) dir rel names = [] := by
  rw [readdir, if_neg, List.filter_nil]
  rw [buf1024_eq_iff, hr.length]
  exact h

theorem collectEntries_fst (rel : Bytes) (es : List (Bytes × SrcNode)) :
    (collectEntries other dir rel es).map Prod.fst = es.map Prod.fst := by
  induction es with
  | nil => rfl
  | cons e es ih => rw [collectEntries, List.map_cons, ih, List.map_cons]

/-- every name once -/
theorem flatMap_lookup {α β : Type} [BEq α] [LawfulBEq α] {l : List (α × List β)}
    (h : (l.map Prod.fst).Nodup) :
    ((l.map Prod.fst).flatMap fun n => (l.lookup n).getD []) = l.flatMap Prod.snd := by
  induction l with
  | nil => rfl
  | cons e l ih =>
    rw [List.map_cons, List.nodup_cons] at h
    have hrest : ((l.map Prod.fst).flatMap fun n => ((e :: l).lookup n).getD []) =
        (l.map Prod.fst).flatMap fun n => (l.lookup n).getD [] := by
      apply List.flatMap_congr
      intro n hn
      have hne : (n == e.1) = false := by
        rw [beq_eq_false_iff_ne]
        rintro rfl
        exact h.1 hn
      rw [List.lookup_cons, hne]
    rw [List.map_cons, List.flatMap_cons, hrest, ih h.2, List.lookup_cons_self,
      List.flatMap_cons]
    rfl

/-- a directory whose path fits -/
theorem collect_fits (hr : RelOf rel p) (h : dir.length + (dirText p).length < 1024)
    (hd : (es.map Prod.fst).Nodup) (hn : ∀ e ∈ es, FileName e.1) :
    ((readdir other dir rel (es.map Prod.fst)).flatMap fun n =>
      ((collectEntries other dir rel es).lookup n).getD []) =
    (collectEntries other dir rel es).flatMap Prod.snd := by
  rw [readdir_fits hr h fun x hx => by
    obtain ⟨e, he, rfl⟩ := List.mem_map.1 hx
    exact hn e he]
  have hfst : (collectEntries other dir rel es).map Prod.fst = es.map Prod.fst :=
    collectEntries_fst rel es
  rw [← hfst] at hd ⊢
  exact flatMap_lookup hd

theorem validEntries_name : ∀ (es : List (Bytes × SrcNode)), validEntries es →
    ∀ e ∈ es, FileName e.1
  | [], _, e, he => nomatch he
  | d :: es, hv, e, he => by
    rcases List.mem_cons.1 he with rfl | he
    · exact hv.1
    · exact validEntries_name es hv.2.2 e he

/-- below a directory whose path does not fit, none does -/
theorem not_fits (hv : validEntries es) (h : ¬ dir.length + (dirText p).length < 1024) :
    ∀ f ∈ entryFiles p es, ¬ SourceFits dir f := by
  intro f hf hfit
  have hlen := length_dirText_le (fileIn_entries es p hv f hf).below.sublist
  have := hfit.1
  omega

theorem FileName.ne (h : FileName name) : name ≠ [] := by
  rintro rfl
  cases h.isName.leads

/-- a directory, from its entries: if all files below it fit, they are found -/
theorem collectDir_all (hr : RelOf rel p) (hv : (SrcNode.dir es).Valid)
    (h : ∀ f ∈ entryFiles p es, SourceFits dir f)
    (hall : (collectEntries other dir rel es).flatMap Prod.snd =
      (entryFiles p es).map FileEntry.packed) :
    ((readdir other dir rel (es.map Prod.fst)).flatMap fun n =>
      ((collectEntries other dir rel es).lookup n).getD []) =
    (entryFiles p es).map FileEntry.packed := by
  by_cases hfit : dir.length + (dirText p).length < 1024
  · rw [collect_fits hr hfit hv.1 (validEntries_name es hv.2)]
    exact hall
  · -- there is no file here, so none is found
    have hnil : entryFiles p es = [] := by
      rw [List.eq_nil_iff_forall_not_mem]
      exact fun f hf => not_fits hv.2 hfit f hf (h f hf)
    rw [hnil] at hall ⊢
    rw [List.map_nil, List.flatMap_eq_nil_iff] at hall ⊢
    intro x _
    cases hl : (collectEntries other dir rel es).lookup x with
    | none => rfl
    | some l =>
      obtain ⟨l₁, l₂, he, _⟩ := List.lookup_eq_some_iff.1 hl
      apply hall (x, l)
      rw [he]
      exact List.mem_append_right l₁ List.mem_cons_self

mutual

/-- **Every file is collected**, whatever a path that was cut off leads to. -/
theorem collect_all : ∀ (n : SrcNode) (p : List Bytes) (name : Bytes), n.Valid → FileName name →
    (∀ f ∈ nodeFiles p name n, SourceFits dir f) →
    collectNode other dir (dirText p ++ name) n = (nodeFiles p name n).map FileEntry.packed
  | .file c, p, name, _, _, h => by
    have hsize := (h ⟨p, name, c⟩ List.mem_cons_self).2
    rw [collectNode, readAll, if_pos hsize]
    rfl
  | .dir es, p, name, hv, hn, h => by
    have hr := RelOf.below hn.ne p
    rw [collectNode, nodeFiles]
    exact collectDir_all hr hv h (collect_all_entries es (p ++ [name]) _ hr hv.2 h)

theorem collect_all_entries : ∀ (es : List (Bytes × SrcNode)) (p : List Bytes) (rel : Bytes),
    RelOf rel p → validEntries es → (∀ f ∈ entryFiles p es, SourceFits dir f) →
    (collectEntries other dir rel es).flatMap Prod.snd = (entryFiles p es).map FileEntry.packed
  | [], _, _, _, _, _ => rfl
  | e :: es, p, rel, hr, hv, h => by
    have h1 := collect_all e.2 p e.1 hv.2.1 hv.1 fun f hf => h f (by
      rw [entryFiles]
      exact List.mem_append_left _ hf)
    have h2 := collect_all_entries es p rel hr hv.2.2 fun f hf => h f (by
      rw [entryFiles]
      exact List.mem_append_right _ hf)
    rw [collectEntries, List.flatMap_cons, h2, hr.sub, h1, entryFiles, List.map_append]

end

/-- a directory, from its entries, if nothing is found behind a path that was cut off -/
theorem collectDir_cut (hr : RelOf rel p) (hv : (SrcNode.dir es).Valid)
    (hall : dir.length + (dirText p).length < 1024 →
      (collectEntries (fun _ => []) dir rel es).flatMap Prod.snd =
        ((entryFiles p es).filter fun f => SourceFits dir f).map FileEntry.packed) :
    ((readdir (fun _ => []) dir rel (es.map Prod.fst)).flatMap fun n =>
      ((collectEntries (fun _ => []) dir rel es).lookup n).getD []) =
    ((entryFiles p es).filter fun f => SourceFits dir f).map FileEntry.packed := by
  by_cases hfit : dir.length + (dirText p).length < 1024
  · rw [collect_fits hr hfit hv.1 (validEntries_name es hv.2)]
    exact hall hfit
  · have hnil : (entryFiles p es).filter (fun f => SourceFits dir f) = [] := by
      rw [List.filter_eq_nil_iff]
      exact fun f hf => by simpa using not_fits hv.2 hfit f hf
    rw [readdir_cut hr hfit, hnil]
    rfl

mutual

theorem collect_cut : ∀ (n : SrcNode) (p : List Bytes) (name : Bytes), n.Valid → FileName name →
    dir.length + (dirText p).length < 1024 →
    collectNode (fun _ => []) dir (dirText p ++ name) n =
      ((nodeFiles p name n).filter fun f => SourceFits dir f).map FileEntry.packed
  | .file c, p, name, _, _, h => by
    rw [collectNode, readAll, nodeFiles]
    by_cases hc : c.length < 2 ^ 63
    · have hfit : SourceFits dir ⟨p, name, c⟩ := ⟨h, hc⟩
      rw [if_pos hc, List.filter_cons_of_pos (p := fun f => decide (SourceFits dir f))
        (decide_eq_true hfit), List.filter_nil]
      rfl
    · have hfit : ¬ SourceFits dir ⟨p, name, c⟩ := fun h => hc h.2
      rw [if_neg hc, List.filter_cons_of_neg (p := fun f => decide (SourceFits dir f))
        (by simpa using hfit), List.filter_nil]
      rfl
  | .dir es, p, name, hv, hn, h => by
    have hr := RelOf.below hn.ne p
    rw [collectNode, nodeFiles]
    exact collectDir_cut hr hv (collect_cut_entries es (p ++ [name]) _ hr hv.2)

theorem collect_cut_entries : ∀ (es : List (Bytes × SrcNode)) (p : List Bytes) (rel : Bytes),
    RelOf rel p → validEntries es → dir.length + (dirText p).length < 1024 →
    (collectEntries (fun _ => []) dir rel es).flatMap Prod.snd =
      ((entryFiles p es).filter fun f => SourceFits dir f).map FileEntry.packed
  | [], _, _, _, _, _ => rfl
  | e :: es, p, rel, hr, hv, h => by
    rw [collectEntries, List.flatMap_cons, collect_cut_entries es p rel hr hv.2.2 h, hr.sub,
      collect_cut e.2 p e.1 hv.2.1 hv.1 h, entryFiles, List.filter_append, List.map_append]

end

end

/-! ## clean paths -/

section
variable {f : FileEntry} {c : UInt8} {p : List Bytes} {x a b : Bytes}

theorem mem_dirText (h : c ∈ dirText p) : c = 47 ∨ ∃ x ∈ p, c ∈ x := by
  obtain ⟨x, hx, hc⟩ := List.mem_flatMap.1 h
  rw [List.mem_append, List.mem_singleton] at hc
  exact hc.symm.imp_right fun hc => ⟨x, hx, hc⟩

theorem mem_text (h : c ∈ f.text) : c = 47 ∨ ∃ x ∈ f.path, c ∈ x := by
  rw [FileEntry.text, List.mem_append] at h
  rcases h with h | h
  · refine (mem_dirText h).imp_right fun h => ?_
    obtain ⟨x, hx, hc⟩ := h
    exact ⟨x, List.mem_append_left _ hx, hc⟩
  · exact .inr ⟨f.name, List.mem_append_right _ (List.mem_singleton_self _), h⟩

/-- two dots do not reach over a slash -/
theorem dots_slash (h : [46, 46] <:+: a ++ 47 :: b) : [46, 46] <:+: a ∨ [46, 46] <:+: b := by
  induction a with
  | nil =>
    rcases List.infix_cons_iff.1 h with h | h
    · exact absurd (List.cons_prefix_cons.1 h).1 (by decide)
    · exact .inr h
  | cons c a ih =>
    rcases List.infix_cons_iff.1 h with h | h
    · left
      obtain ⟨hc, h⟩ := List.cons_prefix_cons.1 h
      cases a with
      | nil => exact absurd (List.cons_prefix_cons.1 h).1 (by decide)
      | cons d a =>
        have hd := (List.cons_prefix_cons.1 h).1
        exact (List.cons_prefix_cons.2 ⟨hc, List.cons_prefix_cons.2 ⟨hd, List.nil_prefix⟩⟩).isInfix
    · exact (ih h).imp_left List.infix_cons

theorem dots_text (h : [46, 46] <:+: dirText p ++ x) : ∃ y ∈ p ++ [x], [46, 46] <:+: y := by
  induction p with
  | nil => exact ⟨x, List.mem_cons_self, h⟩
  | cons z p ih =>
    rw [dirText_cons, List.append_assoc, List.cons_append] at h
    rcases dots_slash h with h | h
    · exact ⟨z, List.mem_cons_self, h⟩
    · obtain ⟨y, hy, hdots⟩ := ih h
      exact ⟨y, List.mem_cons_of_mem z hy, hdots⟩

/-- the path has no blank, newline and no two dots -/
def CleanPath (f : FileEntry) : Prop := 32 ∉ f.text ∧ 10 ∉ f.text ∧ ¬ [46, 46] <:+: f.text

theorem CleanPath.text (hn : ∀ x ∈ f.path, FileName x) (h : CleanPath f) : CleanText f.text where
  noBlank := h.1
  noNewline := h.2.1
  noDots := h.2.2
  noNul := by
    intro h0
    rcases mem_text h0 with h0 | ⟨x, hx, h0⟩
    · cases h0
    · exact (hn x hx).noNul h0
  relative := by
    rw [FileEntry.text]
    have hhead : ∀ (x s : Bytes), FileName x → (x ++ s).head? ≠ some 47 := by
      intro x s hx h
      obtain ⟨c, y, rfl⟩ := List.exists_cons_of_ne_nil hx.ne
      cases h
      exact hx.isName.noSlash List.mem_cons_self
    cases hp : f.parents with
    | nil =>
      have hname := hhead f.name [] (hn _ (List.mem_append_right _ (List.mem_singleton_self _)))
      rwa [List.append_nil] at hname
    | cons x p =>
      rw [dirText_cons, List.append_assoc]
      apply hhead
      apply hn
      rw [FileEntry.path, hp]
      exact List.mem_cons_self

/-- what is in the destination at all has a clean path -/
theorem cleanPath_of_taken {fs : Fs Bytes} (ht : TakenPaths fs)
    {content : Bytes} (h : fs.node f.path = some (.file content)) : CleanPath f := by
  obtain ⟨name, h32, h10, hdots, hpath⟩ := ht _ _ h
  have hpiece : ∀ x ∈ f.path, x <:+: name := fun x hx => infix_of_resolve (hpath ▸ hx)
  refine ⟨fun hc => ?_, fun hc => ?_, fun hd => ?_⟩
  · rcases mem_text hc with hc | ⟨x, hx, hc⟩
    · cases hc
    · exact h32 ((hpiece x hx).subset hc)
  · rcases mem_text hc with hc | ⟨x, hx, hc⟩
    · cases hc
    · exact h10 ((hpiece x hx).subset hc)
  · obtain ⟨x, hx, hd⟩ := dots_text hd
    have hin := hd.trans (hpiece x hx)
    rw [hasDots, Bool.eq_false_iff, Ne, Substr.strstr_isSome (by decide)] at hdots
    exact hdots hin

end

/-! ## round trips -/

/-- unpacking what was packed gives the files of the tree, with their contents -/
def RoundTrips (dir destdir : Bytes) (t : Tree) : Prop :=
  ∀ other, ∃ fs, pkgExtract destdir (pkgPackDir other dir t.entries) = some fs ∧
    ∀ p c, fs.node p = some (.file c) ↔ ∃ f ∈ t.files, f.path = p ∧ f.content = c

/-- the size of an archive of these files -/
def archiveSize (l : List FileEntry) : Nat :=
  (l.map fun f => (headerText f.text f.content.length).length + 1 + f.content.length).sum + 6

/-- the condition on the files, in the order in which they are found -/
structure Packable (dir destdir : Bytes) (l : List FileEntry) : Prop where
  /-- the list of files holds them -/
  count : l.length ≤ 1024
  /-- the paths of the directories fit the buffer of the packer -/
  source : ∀ f ∈ l, SourceFits dir f
  clean : ∀ f ∈ l, CleanPath f
  /-- headers and paths fit the buffers of the unpacker, and nothing is in the way -/
  storable : Storable destdir l
  size : archiveSize l < 2 ^ 63

section
variable {dir destdir : Bytes} {t : Tree} {f g : FileEntry} {l m : List FileEntry} {fs fs' : Fs Bytes}

theorem length_packText (l : List FileEntry) :
    (packText (l.map FileEntry.packed)).length = archiveSize l := by
  induction l with
  | nil => rfl
  | cons f l ih =>
    rw [List.map_cons, packText_cons, List.length_append, List.length_cons, List.length_append, ih,
      archiveSize, archiveSize, List.map_cons, List.sum_cons]
    show (headerText f.text f.content.length).length + (f.content.length + _ + 1) = _
    omega

theorem Tree.nodup (t : Tree) : t.files.Nodup := by
  apply t.apart.imp
  rintro f g h rfl
  exact h.1 (List.prefix_refl _)

theorem Tree.path_inj (hf : f ∈ t.files) (hg : g ∈ t.files) (h : f.path = g.path) : f = g := by
  by_contra hne
  have hsymm : Std.Symm Apart := ⟨fun a b hab => ⟨hab.2, hab.1⟩⟩
  have hapart := t.apart.forall hf hg hne
  apply hapart.1
  rw [h]

/-- whatever the headers, nothing else is there -/
theorem runFiles_files (h : Stored destdir m fs) (hf : ∀ f ∈ l, NamesOk f)
    (hapart : (m ++ l).Pairwise Apart) (hr : runFiles destdir fs l = some fs') :
    ∀ p c, fs'.node p = some (.file c) → ∃ f ∈ m ++ l, f.path = p := by
  induction l generalizing m fs with
  | nil =>
    cases hr
    intro p c hc
    obtain ⟨f, hf, hp, _⟩ := (h.files p c).1 hc
    exact ⟨f, List.mem_append_left _ hf, hp⟩
  | cons f l ih =>
    rw [runFiles] at hr
    split at hr
    · rw [Option.bind_eq_some_iff] at hr
      obtain ⟨fs₁, hs, hr⟩ := hr
      have hf1 : ∀ g ∈ m, Apart g f := fun g hg =>
        (List.pairwise_append.1 hapart).2.2 g hg f List.mem_cons_self
      have hassoc : m ++ f :: l = (m ++ [f]) ++ l := by rw [List.append_assoc]; rfl
      rw [hassoc] at hapart ⊢
      exact ih (h.step (hf f List.mem_cons_self) hf1 hs)
        (fun g hg => hf g (List.mem_cons_of_mem f hg)) hapart hr
    · cases hr
      intro p c hc
      obtain ⟨g, hg, hp, _⟩ := (h.files p c).1 hc
      exact ⟨g, List.mem_append_left _ hg, hp⟩

theorem roundTrips_of (h : Packable dir destdir t.files) : RoundTrips dir destdir t := by
  intro other
  have hlist : collectDir other dir t.entries = t.files.map FileEntry.packed := by
    rw [collectDir, collectDir_all RelOf.root t.valid h.source
      (collect_all_entries t.entries [] [] RelOf.root t.valid.2 h.source)]
    apply List.take_of_length_le
    rw [List.length_map]
    exact h.count
  have hread : readAll (packText (t.files.map FileEntry.packed)) =
      some (packText (t.files.map FileEntry.packed)) := by
    rw [readAll, if_pos]
    rw [length_packText]
    exact h.size
  have hnames : ∀ f ∈ t.files, NamesOk f := fun f hf => Tree.namesOk hf
  have hapart : ([] ++ t.files).Pairwise Apart := t.apart
  obtain ⟨fs, hrun, _⟩ := (runFiles_iff Stored.empty hnames hapart).2
    ⟨h.storable, fun g hg => nomatch hg⟩
  have hstored := runFiles_stored Stored.empty hnames hapart h.storable.header hrun
  refine ⟨fs, ?_, hstored.files⟩
  rw [pkgPackDir, hlist, pkgExtract, hread, Option.bind_some, extractFrom_pack, hrun]
  · exact fun f hf => (h.clean f hf).text fun x hx => Tree.fileName hf hx
  · exact fun f hf => Nat.lt_trans (h.source f hf).2 (by decide)

theorem packable_of (h : RoundTrips dir destdir t) : Packable dir destdir t.files := by
  obtain ⟨fs, hfs, hfiles⟩ := h fun _ => []
  have hlist : collectDir (fun _ => []) dir t.entries =
      ((t.files.filter fun f => SourceFits dir f).take 1024).map FileEntry.packed := by
    rw [collectDir, collectDir_cut RelOf.root t.valid
      (collect_cut_entries t.entries [] [] RelOf.root t.valid.2), List.map_take]
    rfl
  rw [pkgExtract, Option.bind_eq_some_iff] at hfs
  obtain ⟨archive, hread, hrun⟩ := hfs
  rw [readAll] at hread
  split at hread
  · next hsize =>
    obtain rfl := Option.some.inj hread
    have hfound : ∀ f ∈ t.files, fs.node f.path = some (.file f.content) := fun f hf =>
      (hfiles _ _).2 ⟨f, hf, rfl, rfl⟩
    have hempty : TakenPaths (Fs.empty : Fs Bytes) := by
      intro p c hc
      have hstored : Stored [] [] Fs.empty := Stored.empty
      obtain ⟨f, hf, _⟩ := (hstored.files p c).1 hc
      cases hf
    have hclean : ∀ f ∈ t.files, CleanPath f := fun f hf =>
      cleanPath_of_taken (hempty.extract _ hrun) (hfound f hf)
    -- the archive is unpacked file by file
    have hsub : ((t.files.filter fun f => SourceFits dir f).take 1024).Sublist t.files :=
      (List.take_sublist _ _).trans List.filter_sublist
    rw [pkgPackDir, hlist] at hrun hsize
    rw [extractFrom_pack (fun f hf => (hclean f (hsub.subset hf)).text
      fun x hx => Tree.fileName (hsub.subset hf) hx)] at hrun
    · have hnames : ∀ f ∈ (t.files.filter fun f => SourceFits dir f).take 1024, NamesOk f :=
        fun f hf => Tree.namesOk (hsub.subset hf)
      have hapart : ([] ++ (t.files.filter fun f => SourceFits dir f).take 1024).Pairwise Apart :=
        t.apart.sublist hsub
      -- all files were collected
      have hmem : ∀ f ∈ t.files, f ∈ (t.files.filter fun f => SourceFits dir f).take 1024 := by
        intro f hf
        obtain ⟨g, hg, hpath⟩ := runFiles_files Stored.empty hnames hapart hrun _ _ (hfound f hf)
        rw [List.nil_append] at hg
        rwa [← Tree.path_inj (hsub.subset hg) hf hpath]
      have hsource : ∀ f ∈ t.files, SourceFits dir f := fun f hf =>
        of_decide_eq_true (List.mem_filter.1 (List.mem_of_mem_take (hmem f hf))).2
      have hcount : t.files.length ≤ 1024 := by
        have hle := (List.subperm_of_subset t.nodup hmem).length_le
        rw [List.length_take] at hle
        omega
      have hall : (t.files.filter fun f => SourceFits dir f).take 1024 = t.files := by
        rw [List.filter_eq_self.2 fun f hf => decide_eq_true (hsource f hf)]
        exact List.take_of_length_le hcount
      rw [hall] at hrun hsize hnames hapart
      rw [length_packText] at hsize
      exact ⟨hcount, hsource, hclean, ((runFiles_iff Stored.empty hnames hapart).1
        ⟨fs, hrun, hfound⟩).1, hsize⟩
    · intro f hf
      have hfit : SourceFits dir f :=
        of_decide_eq_true (List.mem_filter.1 (List.mem_of_mem_take hf)).2
      exact Nat.lt_trans hfit.2 (by decide)
  · cases hread

/-- unpacking what was packed gives the same map of paths to contents if and only if the tree meets
the condition -/
theorem archive_iff (t : Tree) (dir destdir : Bytes) :
    RoundTrips dir destdir t ↔ Packable dir destdir t.files :=
  ⟨packable_of, roundTrips_of⟩

end

/-! ## a blank -/

/-- one file, called `a b` -/
def blankTree : Tree where
  entries := [(ascii "a b", .file [])]
  valid := ⟨List.nodup_singleton _, ⟨⟨by decide, by decide⟩, by decide, by decide, by decide⟩,
    trivial, trivial⟩

/-- its name ends at the blank -/
theorem archive_blank : ¬ RoundTrips (ascii "p") (ascii "q") blankTree := by
  intro h
  have hclean := (packable_of h).clean ⟨[], ascii "a b", []⟩ List.mem_cons_self
  exact hclean.1 (by decide)

end Package
end HolyPhp
