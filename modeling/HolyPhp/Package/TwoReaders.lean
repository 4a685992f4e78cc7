import HolyPhp.Package.ArchiveTree
import HolyPhp.Package.Assemble
import HolyPhp.Package.HpxFiles

/-!
# Two readers of one archive

`pkg_extract` writes the files of an archive, and `hpx_files` of the registry makes an array of
them.

* `collectDir_sub`  what is packed are files of the tree, each once;
* `hpxRun_packed`   `hpx_files` finds all of them, but loses white space in front of a name;
* `extractFrom_kept`  `pkg_extract` takes them up to the first long line, without those with two
                    dots;
* `readers_iff`     **what the two find is the same if and only if** these differences do not show
                    (`ReadAlike`).
-/

set_option linter.unusedVariables false
set_option autoImplicit false

namespace HolyPhp
namespace Package
open Posix hiding Bytes
open Json hiding Bytes
open Arr hiding Key
open HolyPhp.Std Substr Assoc
open Str hiding hpValToStr

/-! ## what is collected -/

/-- some of these files, each once, with a path that goes on from `p` -/
def Collects (p : List Bytes) (all : List FileEntry) (x : List (Bytes × Bytes)) : Prop :=
  ∃ l : List FileEntry, x = l.map FileEntry.packed ∧ l.Pairwise Apart ∧
    ∀ f ∈ l, f ∈ all ∧ p <+: f.path ∧ f.content.length < 2 ^ 63

section
variable {other : Bytes → List Bytes} {dir rel : Bytes} {p : List Bytes} {all : List FileEntry}
  {es : List (Bytes × SrcNode)}

theorem Collects.nil (p : List Bytes) (all : List FileEntry) : Collects p all [] :=
  ⟨[], rfl, .nil, fun f hf => nomatch hf⟩

/-- different names, one after the other -/
theorem collects_flatMap {x : Bytes → List (Bytes × Bytes)} {names : List Bytes}
    (hn : names.Nodup) (h : ∀ n, Collects (p ++ [n]) all (x n)) :
    Collects p all (names.flatMap x) := by
  have hall : ∃ l : List FileEntry, names.flatMap x = l.map FileEntry.packed ∧ l.Pairwise Apart ∧
      ∀ f ∈ l, f ∈ all ∧ (∃ n ∈ names, p ++ [n] <+: f.path) ∧ f.content.length < 2 ^ 63 := by
    induction names with
    | nil => exact ⟨[], rfl, .nil, fun f hf => nomatch hf⟩
    | cons n names ih =>
      rw [List.nodup_cons] at hn
      obtain ⟨l, hl, hapart, hmem⟩ := h n
      obtain ⟨m, hm, hapart', hmem'⟩ := ih hn.2
      refine ⟨l ++ m, ?_, ?_, ?_⟩
      · rw [List.flatMap_cons, hl, hm, List.map_append]
      · rw [List.pairwise_append]
        refine ⟨hapart, hapart', ?_⟩
        intro f hf g hg
        obtain ⟨n', hn', hg'⟩ := (hmem' g hg).2.1
        refine apart_of_names ?_ (hmem f hf).2.1 hg'
        rintro rfl
        exact hn.1 hn'
      · intro f hf
        rcases List.mem_append.mp hf with hf | hf
        · obtain ⟨h1, h2, h3⟩ := hmem f hf
          exact ⟨h1, ⟨n, List.mem_cons_self, h2⟩, h3⟩
        · obtain ⟨h1, ⟨n', hn', h2⟩, h3⟩ := hmem' f hf
          exact ⟨h1, ⟨n', List.mem_cons_of_mem n hn', h2⟩, h3⟩
  obtain ⟨l, hl, hapart, hmem⟩ := hall
  refine ⟨l, hl, hapart, ?_⟩
  intro f hf
  obtain ⟨h1, ⟨n, -, h2⟩, h3⟩ := hmem f hf
  exact ⟨h1, (List.prefix_append p [n]).trans h2, h3⟩

theorem nodup_readdir (ho : ∀ s, (other s).Nodup) {names : List Bytes} (hn : names.Nodup) :
    (readdir other dir rel names).Nodup := by
  unfold readdir
  apply List.Nodup.filter
  split
  · exact hn
  · exact ho _

mutual

theorem collect_sub (ho : ∀ s, (other s).Nodup) : ∀ (n : SrcNode) (p : List Bytes) (name : Bytes),
    n.Valid → FileName name →
    Collects (p ++ [name]) (nodeFiles p name n) (collectNode other dir (dirText p ++ name) n)
  | .file c, p, name, _, _ => by
    rw [collectNode, readAll]
    split
    · next hc =>
      refine ⟨[⟨p, name, c⟩], rfl, List.pairwise_singleton _ _, ?_⟩
      intro f hf
      obtain rfl := List.mem_singleton.mp hf
      exact ⟨List.mem_cons_self, List.prefix_refl _, hc⟩
    · exact .nil _ _
  | .dir es, p, name, hv, hn => by
    rw [collectNode, nodeFiles]
    exact collects_flatMap (nodup_readdir ho hv.1)
      (collect_sub_entries ho es (p ++ [name]) _ (RelOf.below hn.ne p) hv.2)

theorem collect_sub_entries (ho : ∀ s, (other s).Nodup) : ∀ (es : List (Bytes × SrcNode))
    (p : List Bytes) (rel : Bytes), RelOf rel p → validEntries es →
    ∀ n, Collects (p ++ [n]) (entryFiles p es)
      (((collectEntries other dir rel es).lookup n).getD [])
  | [], _, _, _, _, n => .nil _ _
  | e :: es, p, rel, hr, hv, n => by
    rw [collectEntries, List.lookup_cons, entryFiles]
    by_cases hn : n = e.1
    · have h := collect_sub ho e.2 p e.1 hv.2.1 hv.1
      rw [← hr.sub] at h
      obtain ⟨l, hl, hapart, hmem⟩ := h
      rw [hn, beq_self_eq_true]
      refine ⟨l, hl, hapart, ?_⟩
      intro f hf
      obtain ⟨h1, h2⟩ := hmem f hf
      exact ⟨List.mem_append_left _ h1, h2⟩
    · have hne : (n == e.1) = false := beq_eq_false_iff_ne.mpr hn
      rw [hne]
      obtain ⟨l, hl, hapart, hmem⟩ := collect_sub_entries ho es p rel hr hv.2.2 n
      refine ⟨l, hl, hapart, ?_⟩
      intro f hf
      obtain ⟨h1, h2⟩ := hmem f hf
      exact ⟨List.mem_append_right _ h1, h2⟩

end

/-- **What is packed** are at most 1024 files of the tree. -/
theorem collectDir_sub (ho : ∀ s, (other s).Nodup) (dir : Bytes) (t : Tree) :
    ∃ l : List FileEntry, collectDir other dir t.entries = l.map FileEntry.packed ∧
      l.Pairwise Apart ∧ l.length ≤ 1024 ∧ ∀ f ∈ l, f ∈ t.files ∧ f.content.length < 2 ^ 63 := by
  obtain ⟨l, hl, hapart, hmem⟩ := collects_flatMap
    (show (readdir other dir [] (t.entries.map Prod.fst)).Nodup from nodup_readdir ho t.valid.1)
    (collect_sub_entries ho t.entries [] [] RelOf.root t.valid.2)
  refine ⟨l.take 1024, ?_, hapart.sublist (List.take_sublist _ _), ?_, ?_⟩
  · rw [collectDir, hl, List.map_take]
  · rw [List.length_take]
    omega
  · intro f hf
    obtain ⟨h1, -, h2⟩ := hmem f (List.mem_of_mem_take hf)
    exact ⟨h1, h2⟩

end

/-! ## what `hpx_files` finds -/

/-- the white space in front of a name is lost -/
def trimFront (name : Bytes) : Bytes := name.dropWhile Std.isWs

/-- the names and contents that are read, up to a name of white space alone -/
def readPairs (l : List (Bytes × Bytes)) : List (Bytes × Bytes) :=
  (l.map fun e => (trimFront e.1, e.2)).takeWhile fun e => e.1 ≠ []

section
variable {name c pre rest text : Bytes} {l : List (Bytes × Bytes)} {n : Nat}

theorem trimFront_cons {b : UInt8} {s : Bytes} (h : trimFront name = b :: s) : Std.isWs b = false := by
  have := List.head?_dropWhile_not Std.isWs name
  rw [show name.dropWhile Std.isWs = b :: s from h] at this
  simpa using this

/-- white space is taken off in front of the name only, since the header ends with a digit -/
theorem hpStrTrim_header (name : Bytes) (n : Nat) : hpStrTrim (headerText name n) =
    if trimFront name = [] then decimal n else trimFront name ++ 32 :: decimal n := by
  have hdigits : ∀ c ∈ decimal n, Std.isWs c = false := fun c hc => digit_isWs (decimal_digits n c hc)
  split
  · next h =>
    have hall : ∀ c ∈ name ++ [32], Std.isWs c = true := by
      intro c hc
      rcases List.mem_append.mp hc with hc | hc
      · exact List.dropWhile_eq_nil_iff.mp h c hc
      · rw [List.mem_singleton.mp hc]
        rfl
    have := hpStrTrim_around hall (t := []) (fun c hc => nomatch hc) hdigits
    rw [List.append_nil, List.append_assoc] at this
    exact this
  · next h =>
    obtain ⟨d, ds, hd⟩ := List.exists_cons_of_ne_nil (show (decimal n).reverse ≠ [] by
      obtain ⟨c, cs, hc, -⟩ := decimal_cons n
      rw [hc]
      simp)
    have hdrop : (headerText name n).dropWhile Std.isWs = trimFront name ++ 32 :: decimal n := by
      rw [headerText, List.dropWhile_append]
      have : (trimFront name).isEmpty = false := by
        rw [List.isEmpty_eq_false_iff]
        exact h
      rw [show name.dropWhile Std.isWs = trimFront name from rfl, this]
      rfl
    have hlast : Std.isWs d = false := hdigits d (List.mem_reverse.mp (hd ▸ List.mem_cons_self))
    rw [hpStrTrim, hdrop, List.reverse_append, List.reverse_cons, hd, List.append_assoc,
      List.cons_append, List.dropWhile_cons_of_neg (by simp [hlast]), ← List.cons_append, ← hd,
      ← List.append_assoc, ← List.reverse_cons, ← List.reverse_append, List.reverse_reverse]

theorem strposFrom_skip (h : 10 ∉ c) (pre rest : Bytes) :
    strposFrom [10] (pre ++ (c ++ 10 :: rest)) pre.length = some (pre.length + c.length) := by
  have hmin : min (pre.length : Int).toNat (pre ++ (c ++ 10 :: rest)).length = pre.length := by
    rw [Int.toNat_natCast, List.length_append]
    omega
  rw [strposFrom, hmin, List.drop_left, strpos_skip h, strpos_here ⟨rest, rfl⟩]
  show some (0 + c.length + pre.length) = _
  congr 1
  omega

theorem substr_at (hlen : (pre ++ (c ++ rest)).length < 2 ^ 63) :
    hpbiSubstr (pre ++ (c ++ rest)) pre.length (some c.length) = c := by
  have hle : pre.length + c.length ≤ (pre ++ (c ++ rest)).length := by
    rw [List.length_append, List.length_append]
    omega
  rw [hpbiSubstr_take hle (Nat.lt_of_le_of_lt hle hlen), List.drop_left, List.take_left]

/-- what stands in front of the file that comes next -/
def behind (pre name c : Bytes) : Bytes := pre ++ (headerText name c.length ++ 10 :: c)

/-- **A packed file.** -/
theorem hpxLine_packed (h32 : 32 ∉ name) (h10 : 10 ∉ name)
    (ht : text = pre ++ (headerText name c.length ++ 10 :: (c ++ rest)))
    (hlen : text.length < 2 ^ 63) :
    (trimFront name = [] ∧ hpxLine text pre.length = none) ∨
    (trimFront name ≠ [] ∧ ∃ e, hpxLine text pre.length = some e ∧
      e.entry text = (trimFront name, c) ∧ e.next = (behind pre name c).length) := by
  have hpos : ¬ (text.length : Int) ≤ pre.length := by
    rw [ht, List.length_append, List.length_append, List.length_cons]
    omega
  have hline : 10 ∉ headerText name c.length := by
    rw [headerText, List.mem_append, List.mem_cons]
    rintro (h | h | h)
    · exact h10 h
    · cases h
    · exact (decimal_clean c.length).1 h
  have hnl := strposFrom_skip hline pre (c ++ rest)
  have hhdr : hpbiSubstr text pre.length (some ((headerText name c.length).length)) =
      headerText name c.length := by
    rw [ht]
    exact substr_at (ht ▸ hlen)
  have hsize : ((pre.length + (headerText name c.length).length : Nat) : Int) - pre.length =
      (headerText name c.length).length := by omega
  have hd32 : 32 ∉ decimal c.length := fun h => absurd (decimal_digits _ _ h) (by decide)
  unfold hpxLine
  rw [if_neg hpos, show strposFrom [10] text pre.length = _ from ht ▸ hnl]
  dsimp only
  rw [hsize, hhdr, hpStrTrim_header]
  by_cases hw : trimFront name = []
  · refine .inl ⟨hw, ?_⟩
    have hend : decimal c.length ≠ ascii "HPHX1" := by
      intro h
      exact absurd (decimal_digits c.length 72 (h ▸ by decide)) (by decide)
    rw [if_pos hw, if_neg hend, strpos_none_iff.mpr hd32]
  · refine .inr ⟨hw, ?_⟩
    have hfree : 32 ∉ trimFront name := fun h => h32 ((List.dropWhile_sublist _).subset h)
    have hend : trimFront name ++ 32 :: decimal c.length ≠ ascii "HPHX1" := by
      intro h
      have hblank : 32 ∈ ascii "HPHX1" := h ▸ List.mem_append_right _ List.mem_cons_self
      exact absurd hblank (by decide)
    have hsp : strpos [32] (trimFront name ++ 32 :: decimal c.length) =
        some (trimFront name).length := by
      rw [strpos_skip hfree, strpos_here ⟨_, rfl⟩]
      exact congrArg some (Nat.zero_add _)
    have hnum : (trimFront name ++ 32 :: decimal c.length).drop ((trimFront name).length + 1) =
        decimal c.length := by
      rw [← List.drop_drop, List.drop_left]
      rfl
    have hc : c.length < 2 ^ 63 := by
      rw [ht, List.length_append, List.length_append, List.length_cons, List.length_append] at hlen
      omega
    have hval : (strtoll (decimal c.length)).toInt = c.length := by
      have := strtoll_decimal hc stops_nil
      rwa [List.append_nil] at this
    have hbehind : text = (pre ++ (headerText name c.length ++ [10])) ++ (c ++ rest) := by
      rw [ht]
      simp only [List.append_assoc, List.singleton_append]
    have hbody : ((pre.length + (headerText name c.length).length : Nat) : Int) + 1 =
        (pre ++ (headerText name c.length ++ [10])).length := by
      rw [List.length_append, List.length_append]
      rfl
    rw [if_neg hw, if_neg hend, hsp]
    refine ⟨_, rfl, ?_, ?_⟩
    · rw [HpxLine.entry, HpxLine.content]
      dsimp only
      rw [List.take_left, hnum, hval, hbody, hbehind, substr_at (hbehind ▸ hlen)]
    · rw [HpxLine.next]
      dsimp only
      rw [hnum, hval, behind, wrap64_of_lt]
      · rw [List.length_append, List.length_append, List.length_cons]
        omega
      · omega
      · rw [ht] at hlen
        simp only [List.length_append, List.length_cons] at hlen
        omega

theorem hpxLine_end (pre : Bytes) (hlen : (pre ++ ascii "HPHX1\n").length < 2 ^ 63) :
    hpxLine (pre ++ ascii "HPHX1\n") pre.length = none := by
  have hpos : ¬ ((pre ++ ascii "HPHX1\n").length : Int) ≤ pre.length := by
    rw [List.length_append]
    show ¬ ((pre.length + 6 : Nat) : Int) ≤ _
    omega
  have hnl : strposFrom [10] (pre ++ ascii "HPHX1\n") pre.length = some (pre.length + 5) :=
    strposFrom_skip (c := ascii "HPHX1") (by decide) pre []
  have hhdr : hpbiSubstr (pre ++ ascii "HPHX1\n") pre.length (some 5) = ascii "HPHX1" :=
    @substr_at (ascii "HPHX1") _ [10] hlen
  have hsize : ((pre.length + 5 : Nat) : Int) - pre.length = 5 := by omega
  unfold hpxLine
  rw [if_neg hpos, hnl]
  dsimp only
  rw [hsize, hhdr]
  exact if_pos (by decide)

/-- **All packed files** are found. -/
theorem hpxRun_packed (hl : ∀ e ∈ l, 32 ∉ e.1 ∧ 10 ∉ e.1) (ht : text = pre ++ packText l)
    (hlen : text.length < 2 ^ 63) : ∃ es, hpxRun text (l.length + 1) pre.length = some es ∧
      es.map (fun e => e.entry text) = readPairs l := by
  induction l generalizing pre with
  | nil =>
    have hend : hpxLine text pre.length = none := by
      rw [ht] at hlen ⊢
      exact hpxLine_end pre hlen
    exact ⟨[], by rw [List.length_nil, hpxRun, hend], rfl⟩
  | cons a l ih =>
    rw [packText_cons] at ht
    obtain ⟨h32, h10⟩ := hl a List.mem_cons_self
    have hread : readPairs (a :: l) =
        if trimFront a.1 = [] then [] else (trimFront a.1, a.2) :: readPairs l := by
      rw [readPairs, List.map_cons, List.takeWhile_cons]
      by_cases h : trimFront a.1 = []
      · simp [h]
      · simp [h, readPairs]
    rw [List.length_cons, hread]
    rcases hpxLine_packed h32 h10 ht hlen with ⟨hw, hline⟩ | ⟨hw, e, hline, he, hnext⟩
    · exact ⟨[], by rw [hpxRun, hline], by rw [if_pos hw]; rfl⟩
    · obtain ⟨es, hes, hmap⟩ := @ih (behind pre a.1 a.2)
        (fun e he => hl e (List.mem_cons_of_mem a he)) (by
          rw [ht, behind]
          simp only [List.append_assoc, List.cons_append])
      refine ⟨e :: es, ?_, ?_⟩
      · rw [hpxRun, hline]
        dsimp only
        rw [hnext, hes]
        rfl
      · rw [if_neg hw, List.map_cons, he, hmap]

end

/-! ## what `pkg_extract` takes -/

/-- the files up to the first header that is too long for `pkg_extract` -/
def shortFiles (l : List FileEntry) : List FileEntry := l.takeWhile fun f => HeaderFits f

/-- that file and those behind it -/
def longFiles (l : List FileEntry) : List FileEntry := l.dropWhile fun f => HeaderFits f

/-- a path without what ends a header -/
structure PlainPath (f : FileEntry) : Prop where
  noNul : 0 ∉ f.text
  noBlank : 32 ∉ f.text
  noNewline : 10 ∉ f.text
  relative : f.text.head? ≠ some 47

section
variable {destdir : Bytes} {l : List FileEntry} {f g : FileEntry}

theorem short_long (l : List FileEntry) : shortFiles l ++ longFiles l = l :=
  List.takeWhile_append_dropWhile

theorem header_short (h : f ∈ shortFiles l) : HeaderFits f := by
  unfold shortFiles at h
  simpa using List.mem_takeWhile_imp h

theorem hasDots_iff (s : Bytes) : hasDots s = true ↔ [46, 46] <:+: s := by
  rw [hasDots, strstr_isSome (by decide)]
  rfl

/-- **What is written**: the short files without two dots in their path. -/
theorem extractFrom_kept (hl : ∀ f ∈ l, PlainPath f ∧ f.content.length < 2 ^ 63) (fs : Fs Bytes) :
    extractFrom destdir fs (packText (l.map FileEntry.packed)) =
      runFiles destdir fs ((shortFiles l).filter fun f => !hasDots f.text) := by
  induction l generalizing fs with
  | nil => exact extractFrom_end fs
  | cons f l ih =>
    obtain ⟨hp, hc⟩ := hl f List.mem_cons_self
    have hc64 : f.content.length < 2 ^ 64 := Nat.lt_trans hc (by decide)
    have hih := ih fun g hg => hl g (List.mem_cons_of_mem f hg)
    rw [List.map_cons, packText_cons, shortFiles, List.takeWhile_cons]
    by_cases hh : HeaderFits f
    · rw [decide_eq_true hh]
      have hlong : ¬ 1024 ≤ (headerText f.text f.content.length).length := Nat.not_le.mpr hh
      cases hd : hasDots f.text with
      | true =>
        have hentry := @extractFrom_dots destdir fs _ _ hp.noNul hp.noBlank hp.noNewline hd hc64
          (packText (l.map FileEntry.packed))
        rw [if_neg hlong] at hentry
        rw [if_pos rfl, List.filter_cons_of_neg (by simp [hd])]
        exact hentry.trans (hih fs)
      | false =>
        have hno : ¬ [46, 46] <:+: f.text := fun h => by
          rw [(hasDots_iff _).mpr h] at hd
          cases hd
        have hclean : CleanText f.text :=
          ⟨hp.noNul, hp.noBlank, hp.noNewline, hno, hp.relative⟩
        have hentry := @extractFrom_entry destdir fs _ _ hclean hc64
          (packText (l.map FileEntry.packed))
        rw [if_neg hlong] at hentry
        rw [if_pos rfl, List.filter_cons_of_pos (by simp [hd]), runFiles, if_pos hh]
        exact hentry.trans (congrArg _ (funext hih))
    · have hentry : extractFrom destdir fs (headerText f.text f.content.length ++ 10 ::
          (f.content ++ packText (l.map FileEntry.packed))) = some fs := by
        rw [extractFrom_header hp.noNul hp.noBlank hp.noNewline, if_pos (Nat.not_lt.mp hh)]
      rw [decide_eq_false hh]
      exact hentry

/-! ## the two of them -/

/-- the text of a path -/
def pathText (p : List Bytes) : Bytes := [47].intercalate p

theorem pathText_path (f : FileEntry) : pathText f.path = f.text := by
  rw [FileEntry.path, FileEntry.text, pathText]
  induction f.parents with
  | nil => simp [dirText]
  | cons x p ih =>
    have hcons : [47].intercalate (x :: (p ++ [f.name])) =
        x ++ 47 :: [47].intercalate (p ++ [f.name]) := by
      cases p <;> simp [List.intercalate]
    rw [dirText_cons, List.cons_append, hcons, ih, List.append_assoc]
    rfl

theorem path_of_text (hf : NamesOk f) (hg : NamesOk g) (h : f.text = g.text) : f.path = g.path := by
  have hsplit : ∀ k : FileEntry, NamesOk k → splitSlash k.text = k.path := by
    intro k hk
    rw [FileEntry.text, splitSlash_dirText fun x hx => (hk.parents x hx).noSlash,
      splitSlash_name hk.name.noSlash, FileEntry.path]
  rw [← hsplit f hf, ← hsplit g hg, h]

/-- no text twice -/
theorem nodup_packed (hn : ∀ f ∈ l, NamesOk f) (ha : l.Pairwise Apart) :
    ((l.map FileEntry.packed).map Prod.fst).Nodup := by
  rw [List.map_map, List.Nodup, List.pairwise_map]
  refine List.Pairwise.imp_of_mem ?_ ha
  intro f g hf hg hfg heq
  exact hfg.1 (path_of_text (hn f hf) (hn g hg) heq ▸ List.prefix_refl _)

/-- `hpx_files` gives the names and contents of the files that `pkg_extract` writes -/
def SameFiles (junk : Nat → Val) (destdir archive : Bytes) : Prop :=
  ∃ fuel files fs, hpxFiles archive fuel 0 (hpArrNew junk) = some files ∧
    pkgExtract destdir archive = some fs ∧
    ∀ name c, strPair (name, c) ∈ files.entries ↔
      ∃ p, pathText p = name ∧ fs.node p = some (.file c)

/-- the differences do not show: up to the first long header no name begins with white space or has
two dots, and the files can be stored; what is read behind it is there already -/
structure ReadAlike (destdir : Bytes) (l : List FileEntry) : Prop where
  fits : (packText (l.map FileEntry.packed)).length < 2 ^ 63
  front : ∀ f ∈ shortFiles l, trimFront f.text = f.text
  noDots : ∀ f ∈ shortFiles l, ¬ [46, 46] <:+: f.text
  storable : Storable destdir (shortFiles l)
  behind : assignAll ((shortFiles l).map FileEntry.packed)
    (readPairs ((longFiles l).map FileEntry.packed)) = (shortFiles l).map FileEntry.packed

/-- what can be in an archive -/
structure Packed (l : List FileEntry) : Prop where
  plain : ∀ f ∈ l, PlainPath f ∧ f.content.length < 2 ^ 63
  names : ∀ f ∈ l, NamesOk f
  apart : l.Pairwise Apart
  count : l.length ≤ 1024

theorem text_ne (h : NamesOk f) : f.text ≠ [] := by
  intro he
  have hnil : f.name = [] := (List.append_eq_nil_iff.mp he).2
  have := h.name.leads
  rw [hnil] at this
  cases this

variable {junk : Nat → Val} {files : Harr} {fs : Fs Bytes} {name c : Bytes} {fuel : Nat}

/-- **What `hpx_files` finds** in an archive. -/
theorem entries_packed (h : Packed l) (hlen : (packText (l.map FileEntry.packed)).length < 2 ^ 63) :
    (∃ fuel files, hpxFiles (packText (l.map FileEntry.packed)) fuel 0 (hpArrNew junk) =
      some files) ∧
    ∀ fuel files, hpxFiles (packText (l.map FileEntry.packed)) fuel 0 (hpArrNew junk) = some files →
      files.entries = (assignAll [] (readPairs (l.map FileEntry.packed))).map strPair := by
  have hplain : ∀ e ∈ l.map FileEntry.packed, 32 ∉ e.1 ∧ 10 ∉ e.1 := by
    intro e he
    obtain ⟨f, hf, rfl⟩ := List.mem_map.mp he
    exact ⟨(h.plain f hf).1.noBlank, (h.plain f hf).1.noNewline⟩
  obtain ⟨es, hes, hmap⟩ := @hpxRun_packed [] (packText (l.map FileEntry.packed)) _
    hplain rfl hlen
  have hes0 : hpxRun (packText (l.map FileEntry.packed)) ((l.map FileEntry.packed).length + 1) 0 =
      some es := hes
  constructor
  · have hshort : (assignAll [] (readPairs (l.map FileEntry.packed))).length < full := by
      have h1 := length_assignAll_le [] (readPairs (l.map FileEntry.packed))
      have h2 : (readPairs (l.map FileEntry.packed)).length ≤ l.length := by
        have := ((List.takeWhile_prefix (fun e : Bytes × Bytes => decide (e.1 ≠ []))).length_le :
          (readPairs (l.map FileEntry.packed)).length ≤ _)
        rwa [List.length_map, List.length_map] at this
      have h3 := h.count
      rw [List.length_nil] at h1
      exact Nat.lt_of_le_of_lt (show _ ≤ 1024 by omega) (by decide)
    obtain ⟨b, hb⟩ := ((Holds.new junk).setAll_iff (by decide)).mpr hshort
    refine ⟨(l.map FileEntry.packed).length + 1, b, ?_⟩
    rw [hpxFiles_run, hes0, Option.bind_some, hmap]
    exact hb
  · intro fuel files hf
    rw [hpxFiles_run] at hf
    obtain ⟨es', hes', hb⟩ := Option.bind_eq_some_iff.mp hf
    rw [hpxRun_unique hes' hes0, hmap] at hb
    exact ((Holds.new junk).of_setAll (by decide) hb).entries

/-- a name that was read -/
theorem of_readPairs {m : List (Bytes × Bytes)} {e : Bytes × Bytes} (h : e ∈ readPairs m) :
    e.1 ≠ [] ∧ ∃ a ∈ m, e = (trimFront a.1, a.2) := by
  constructor
  · simpa using List.mem_takeWhile_imp h
  · obtain ⟨a, ha, rfl⟩ := List.mem_map.mp ((List.takeWhile_sublist _).subset h)
    exact ⟨a, ha, rfl⟩

/-- a name that was read does not begin with white space -/
theorem trimFront_read {m : List (Bytes × Bytes)} {e : Bytes × Bytes} (h : e ∈ readPairs m) :
    trimFront e.1 = e.1 := by
  obtain ⟨hne, a, -, rfl⟩ := of_readPairs h
  obtain ⟨b, s, hs⟩ := List.exists_cons_of_ne_nil hne
  dsimp only at hs ⊢
  have hb := trimFront_cons hs
  rw [hs]
  exact List.dropWhile_cons_of_neg (by simp [hb])

/-- what is stored when all short files without dots are -/
theorem extract_stored (h : Packed l)
    (hx : pkgExtract destdir (packText (l.map FileEntry.packed)) = some fs) :
    (packText (l.map FileEntry.packed)).length < 2 ^ 63 ∧
      runFiles destdir Fs.empty ((shortFiles l).filter fun f => !hasDots f.text) = some fs ∧
      ∀ name c, (∃ p, pathText p = name ∧ fs.node p = some (.file c)) ↔
        ∃ f ∈ (shortFiles l).filter fun f => !hasDots f.text, f.text = name ∧ f.content = c := by
  rw [pkgExtract, readAll] at hx
  split at hx
  · next hlen =>
    rw [Option.bind_some, extractFrom_kept h.plain] at hx
    have hsub : ((shortFiles l).filter fun f => !hasDots f.text).Sublist l :=
      List.filter_sublist.trans (List.takeWhile_sublist _)
    have hstored := runFiles_stored Stored.empty (fun f hf => h.names f (hsub.subset hf))
      (h.apart.sublist hsub) (fun f hf => header_short (List.mem_of_mem_filter hf)) hx
    refine ⟨hlen, hx, ?_⟩
    intro name c
    constructor
    · rintro ⟨p, rfl, hp⟩
      obtain ⟨f, hf, rfl, hc⟩ := (hstored.files p c).mp hp
      exact ⟨f, hf, (pathText_path f).symm, hc⟩
    · rintro ⟨f, hf, rfl, hc⟩
      exact ⟨f.path, pathText_path f, (hstored.files _ _).mpr ⟨f, hf, rfl, hc⟩⟩
  · cases hx

theorem strPair_inj {e e' : Bytes × Bytes} (h : strPair e = strPair e') : e = e' := by
  obtain ⟨h1, h2⟩ := Prod.mk.inj h
  exact Prod.ext (Option.some.inj (HVal.str.inj h1)) (Option.some.inj (HVal.str.inj h2))

/-- all names in front of the long files are read -/
theorem readPairs_short (h : ∀ f ∈ shortFiles l, trimFront f.text ≠ []) :
    readPairs (l.map FileEntry.packed) =
      ((shortFiles l).map fun f => (trimFront f.text, f.content)) ++
        readPairs ((longFiles l).map FileEntry.packed) := by
  have hl : l.map FileEntry.packed =
      (shortFiles l).map FileEntry.packed ++ (longFiles l).map FileEntry.packed := by
    rw [← List.map_append, short_long]
  rw [hl, readPairs, List.map_append, List.takeWhile_append_of_pos, List.map_map]
  · rfl
  · intro e he
    rw [List.map_map] at he
    obtain ⟨f, hf, rfl⟩ := List.mem_map.mp he
    exact decide_eq_true (h f hf)

/-- with nothing in front of names that would be lost -/
theorem assignAll_short (h : Packed l) (hfront : ∀ f ∈ shortFiles l, trimFront f.text = f.text) :
    assignAll [] (readPairs (l.map FileEntry.packed)) =
      assignAll ((shortFiles l).map FileEntry.packed)
        (readPairs ((longFiles l).map FileEntry.packed)) := by
  have hsub : (shortFiles l).Sublist l := List.takeWhile_sublist _
  have hnodup : (([] ++ (shortFiles l).map FileEntry.packed).map Prod.fst).Nodup :=
    nodup_packed (fun f hf => h.names f (hsub.subset hf)) (h.apart.sublist hsub)
  have htrim : ((shortFiles l).map fun f => (trimFront f.text, f.content)) =
      (shortFiles l).map FileEntry.packed := by
    apply List.map_congr_left
    intro f hf
    rw [hfront f hf, FileEntry.packed]
  rw [readPairs_short, htrim, assignAll_append, assignAll_new hnodup]
  · rfl
  · intro f hf
    rw [hfront f hf]
    exact text_ne (h.names f (hsub.subset hf))

theorem readAlike_of (h : Packed l)
    (hs : SameFiles junk destdir (packText (l.map FileEntry.packed))) : ReadAlike destdir l := by
  obtain ⟨fuel, files, fs, hfiles, hx, hsame⟩ := hs
  obtain ⟨hlen, hrun, hstored⟩ := extract_stored h hx
  have hentries := (@entries_packed _ junk h hlen).2 fuel files hfiles
  have hsub : (shortFiles l).Sublist l := List.takeWhile_sublist _
  -- the two maps, as lists
  have hmap : ∀ name c, (name, c) ∈ assignAll [] (readPairs (l.map FileEntry.packed)) ↔
      ∃ f ∈ (shortFiles l).filter fun f => !hasDots f.text, f.text = name ∧ f.content = c := by
    intro name c
    rw [← hstored, ← hsame, hentries]
    constructor
    · exact List.mem_map_of_mem
    · intro hm
      obtain ⟨e, he, heq⟩ := List.mem_map.mp hm
      rwa [strPair_inj heq] at he
  have hread : ∀ name c, (name, c) ∈ assignAll [] (readPairs (l.map FileEntry.packed)) →
      trimFront name = name ∧ name ≠ [] := by
    intro name c hm
    have hkey := List.mem_map_of_mem (f := Prod.fst) hm
    obtain ⟨e, he, rfl⟩ := List.mem_map.mp ((mem_keys_assignAll.mp hkey).resolve_left
      fun h => nomatch h)
    exact ⟨trimFront_read he, (of_readPairs he).1⟩
  have hkept : ∀ f ∈ shortFiles l, hasDots f.text = false → trimFront f.text = f.text := by
    intro f hf hd
    refine (hread f.text f.content ((hmap _ _).mpr ⟨f, ?_, rfl, rfl⟩)).1
    rw [List.mem_filter]
    exact ⟨hf, by simp [hd]⟩
  have hdots : ∀ s : Bytes, hasDots s = true → hasDots (trimFront s) = true := by
    intro s hd
    rw [hasDots_iff] at hd ⊢
    obtain ⟨u, v, rfl⟩ := hd
    rw [trimFront, List.append_assoc, List.dropWhile_append]
    split
    · rw [List.cons_append, List.dropWhile_cons_of_neg (by decide)]
      exact ⟨[], v, rfl⟩
    · rw [← List.append_assoc]
      exact ⟨_, v, rfl⟩
  have hnonempty : ∀ f ∈ shortFiles l, trimFront f.text ≠ [] := by
    intro f hf hnil
    cases hd : hasDots f.text with
    | true =>
      have := hdots _ hd
      rw [hnil] at this
      cases this
    | false => exact text_ne (h.names f (hsub.subset hf)) ((hkept f hf hd).symm.trans hnil)
  -- a name with two dots would be read, but not written
  have hno : ∀ f ∈ shortFiles l, hasDots f.text = false := by
    intro f hf
    by_contra hd
    rw [Bool.not_eq_false] at hd
    have hkey : trimFront f.text ∈ (assignAll [] (readPairs (l.map FileEntry.packed))).map
        Prod.fst := by
      rw [mem_keys_assignAll, readPairs_short hnonempty, List.map_append, List.mem_append,
        List.map_map]
      exact .inr (.inl (List.mem_map.mpr ⟨f, hf, rfl⟩))
    obtain ⟨⟨name, c⟩, hm, heq⟩ := List.mem_map.mp hkey
    obtain ⟨g, hg, hgn, -⟩ := (hmap name c).mp hm
    have hgd := (List.mem_filter.mp hg).2
    rw [hgn, show name = trimFront f.text from heq, hdots _ hd] at hgd
    cases hgd
  have hall : ((shortFiles l).filter fun f => !hasDots f.text) = shortFiles l :=
    List.filter_eq_self.mpr fun f hf => by simp [hno f hf]
  have hfront := fun f hf => hkept f hf (hno f hf)
  rw [hall] at hrun hmap hstored
  rw [assignAll_short h hfront] at hmap
  have hnames : ∀ f ∈ shortFiles l, NamesOk f := fun f hf => h.names f (hsub.subset hf)
  have hapart := h.apart.sublist hsub
  have hfound := runFiles_stored Stored.empty hnames hapart (fun f hf => header_short hf) hrun
  refine ⟨hlen, hfront, ?_, ?_, ?_⟩
  · intro f hf hd
    rw [← hasDots_iff, hno f hf] at hd
    cases hd
  · exact ((runFiles_iff Stored.empty hnames hapart).mp
      ⟨fs, hrun, fun f hf => (hfound.files _ _).mpr ⟨f, hf, rfl, rfl⟩⟩).1
  · have hnodup := nodup_packed hnames hapart
    have hmem : ∀ e ∈ assignAll ((shortFiles l).map FileEntry.packed)
        (readPairs ((longFiles l).map FileEntry.packed)),
        e ∈ (shortFiles l).map FileEntry.packed := by
      rintro ⟨name, c⟩ he
      obtain ⟨f, hf, rfl, rfl⟩ := (hmap name c).mp he
      exact List.mem_map_of_mem hf
    refine eq_of_keys ?_ hnodup hmem
    have hpre := keys_prefix_assignAll ((shortFiles l).map FileEntry.packed)
      (readPairs ((longFiles l).map FileEntry.packed))
    refine (hpre.eq_of_length_le ?_).symm
    refine (List.subperm_of_subset (nodup_assignAll hnodup _) ?_).length_le
    intro key hkey
    obtain ⟨e, he, rfl⟩ := List.mem_map.mp hkey
    exact List.mem_map_of_mem (hmem e he)

/-- **The two readers find the same if and only if** their differences do not show. -/
theorem readers_iff (h : Packed l) :
    SameFiles junk destdir (packText (l.map FileEntry.packed)) ↔ ReadAlike destdir l := by
  refine ⟨readAlike_of h, ?_⟩
  intro ha
  have hsub : (shortFiles l).Sublist l := List.takeWhile_sublist _
  have hnames : ∀ f ∈ shortFiles l, NamesOk f := fun f hf => h.names f (hsub.subset hf)
  obtain ⟨⟨fuel, files, hfiles⟩, hentries⟩ := @entries_packed _ junk h ha.fits
  have hall : ((shortFiles l).filter fun f => !hasDots f.text) = shortFiles l :=
    List.filter_eq_self.mpr fun f hf => by
      rw [Bool.not_eq_true', Bool.eq_false_iff, Ne, hasDots_iff]
      exact ha.noDots f hf
  obtain ⟨fs, hrun, -⟩ := (runFiles_iff Stored.empty hnames (h.apart.sublist hsub)).mpr
    ⟨ha.storable, fun g hg => nomatch hg⟩
  have hx : pkgExtract destdir (packText (l.map FileEntry.packed)) = some fs := by
    rw [pkgExtract, readAll, if_pos ha.fits, Option.bind_some, extractFrom_kept h.plain, hall]
    exact hrun
  obtain ⟨-, -, hstored⟩ := extract_stored h hx
  refine ⟨fuel, files, fs, hfiles, hx, ?_⟩
  intro name c
  rw [hstored, hall, hentries fuel files hfiles, assignAll_short h ha.front, ha.behind]
  constructor
  · intro hm
    obtain ⟨e, he, heq⟩ := List.mem_map.mp hm
    obtain ⟨f, hf, rfl⟩ := List.mem_map.mp he
    have := strPair_inj heq
    exact ⟨f, hf, congrArg Prod.fst this, congrArg Prod.snd this⟩
  · rintro ⟨f, hf, rfl, rfl⟩
    exact List.mem_map_of_mem (List.mem_map_of_mem hf)

end

/-! ## packed directories -/

/-- what a path that was cut off leads to: `readdir` gives every name there once -/
structure Elsewhere where
  names : Bytes → List Bytes
  nodup : ∀ s, (names s).Nodup

/-- a directory whose files have no blank and no newline in their names -/
structure PlainTree extends Tree where
  plain : ∀ f ∈ toTree.files, 32 ∉ f.text ∧ 10 ∉ f.text

namespace PlainTree
variable {t : PlainTree} {l : List FileEntry} {f : FileEntry}

theorem plainPath (hf : f ∈ t.files) : PlainPath f := by
  have hn : ∀ x ∈ f.path, FileName x := fun x hx => Tree.fileName hf hx
  obtain ⟨h32, h10⟩ := t.plain f hf
  refine ⟨?_, h32, h10, ?_⟩
  · intro h0
    rcases mem_text h0 with h0 | ⟨x, hx, h0⟩
    · cases h0
    · exact (hn x hx).noNul h0
  · intro h47
    have hsplit : splitSlash f.text = f.path := by
      rw [FileEntry.text, splitSlash_dirText fun x hx => ((Tree.namesOk hf).parents x hx).noSlash,
        splitSlash_name (Tree.namesOk hf).name.noSlash, FileEntry.path]
    obtain ⟨s, hs⟩ := List.head?_eq_some_iff.mp h47
    rw [hs, splitSlash, if_pos rfl] at hsplit
    have hnil := hn [] (hsplit ▸ List.mem_cons_self)
    exact hnil.ne rfl

theorem packed (h : l.Pairwise Apart) (hlen : l.length ≤ 1024)
    (hl : ∀ f ∈ l, f ∈ t.files ∧ f.content.length < 2 ^ 63) : Packed l where
  plain f hf := ⟨plainPath (hl f hf).1, (hl f hf).2⟩
  names f hf := Tree.namesOk (hl f hf).1
  apart := h
  count := hlen

end PlainTree

/-- **`hpx_files` ends where its positions have no cycle**, and the archive of a directory it reads
like `pkg_extract` if and only if the differences between the two do not show in what was packed. -/
theorem hpxFiles_iff (junk : Nat → Val) :
    (∀ text, HpxEnds junk text ↔
      (∀ p, Relation.ReflTransGen (Climb.Next (hpxNext text)) 0 p →
        ¬ Relation.TransGen (Climb.Next (hpxNext text)) p p) ∧ (hpxNames text 0).ncard < full) ∧
    ∀ (o : Elsewhere) (dir destdir : Bytes) (t : PlainTree), ∃ l : List FileEntry,
      collectDir o.names dir t.entries = l.map FileEntry.packed ∧ (∀ f ∈ l, f ∈ t.files) ∧
        (SameFiles junk destdir (pkgPackDir o.names dir t.entries) ↔ ReadAlike destdir l) := by
  refine ⟨fun text => hpxEnds_iff, ?_⟩
  intro o dir destdir t
  obtain ⟨l, hl, hapart, hlen, hmem⟩ := collectDir_sub o.nodup dir t.toTree
  refine ⟨l, hl, fun f hf => (hmem f hf).1, ?_⟩
  rw [pkgPackDir, hl]
  exact readers_iff (PlainTree.packed hapart hlen hmem)

/-- a size that leads back to its own line -/
def backwards : Bytes := ascii "a -5\n"

theorem backwards_endless : ¬ ∀ (junk : Nat → Val) (text : Bytes), HpxEnds junk text := by
  intro h
  obtain ⟨fuel, files, hf⟩ := h blank backwards
  have hline : hpxLine backwards 0 = some ⟨ascii "a", -5, 5⟩ := by decide
  rw [hpxFiles_loop hline (by decide)] at hf
  cases hf

end Package
end HolyPhp
