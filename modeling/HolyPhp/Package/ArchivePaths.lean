import HolyPhp.Package.Archive

/-!
# What a file does to the destination

A file is known by the names of the directories above it, its own name and its content.  Before it
is written, a directory is made for every prefix of its path that ends in front of a slash, and also
for every one that ends in front of a backslash: `makes` are the places of them.

* `pathMkdirFor_eq`  that is what `path_mkdir_for` does, if the path of the directory fits the buffer;
* `mkdirs_spec`      then all directories of the file are there.
-/

set_option linter.unusedSectionVars false

namespace HolyPhp
namespace Package
open Posix hiding Bytes

structure FileEntry where
  parents : List Bytes
  name : Bytes
  content : Bytes

namespace FileEntry

def path (f : FileEntry) : List Bytes := f.parents ++ [f.name]

/-- the path, relative to the directory that is packed -/
def text (f : FileEntry) : Bytes := dirText f.parents ++ f.name

end FileEntry

/-! ## prefixes -/

section
variable {p q cs : List Bytes} {c x t pre s u q' : Bytes}

theorem cuts_append (pre s u : Bytes) : cuts pre (s ++ u) = cuts pre s ++ cuts (pre ++ s) u := by
  induction s generalizing pre with
  | nil => rw [List.nil_append, List.append_nil, cuts, List.nil_append]
  | cons c s ih =>
    rw [List.cons_append, cuts, ih, cuts, List.append_assoc, List.append_assoc,
      List.singleton_append]

theorem cuts_prefix (d pre s : Bytes) : cuts (d ++ pre) s = (cuts pre s).map (d ++ ·) := by
  induction s generalizing pre with
  | nil => rfl
  | cons c s ih =>
    rw [cuts, cuts, List.map_append, List.append_assoc, ih]
    congr 1
    split <;> rfl

theorem mem_cuts : q' ∈ cuts pre s ↔
    ∃ t u, (s = t ++ 47 :: u ∨ s = t ++ 92 :: u) ∧ q' = pre ++ t := by
  induction s generalizing pre with
  | nil =>
    refine ⟨fun h => (nomatch h), ?_⟩
    rintro ⟨t, u, h | h, _⟩
    · exact absurd h.symm (List.append_ne_nil_of_right_ne_nil t (List.cons_ne_nil _ _))
    · exact absurd h.symm (List.append_ne_nil_of_right_ne_nil t (List.cons_ne_nil _ _))
  | cons c s ih =>
    rw [cuts, List.mem_append, ih]
    constructor
    · rintro (h | ⟨t, u, h, rfl⟩)
      · split at h
        · next hc =>
          rw [List.mem_singleton.1 h]
          refine ⟨[], s, ?_, (List.append_nil pre).symm⟩
          simp only [Bool.or_eq_true, decide_eq_true_eq] at hc
          rcases hc with rfl | rfl
          · exact .inl rfl
          · exact .inr rfl
        · cases h
      · refine ⟨c :: t, u, ?_, by rw [List.append_assoc]; rfl⟩
        rcases h with rfl | rfl
        · exact .inl rfl
        · exact .inr rfl
    · rintro ⟨t, u, h, rfl⟩
      cases t with
      | nil =>
        left
        have hc : (decide (c = 47) || decide (c = 92)) = true := by
          rcases h with h | h
          · rw [(List.cons.inj h).1]
            rfl
          · rw [(List.cons.inj h).1]
            rfl
        rw [if_pos hc, List.append_nil]
        exact List.mem_singleton_self pre
      | cons d t =>
        right
        rw [List.cons_append, List.cons.injEq, List.cons_append, List.cons.injEq] at h
        refine ⟨t, u, ?_, ?_⟩
        · rcases h with h | h
          · exact .inl h.2
          · exact .inr h.2
        · rcases h with h | h <;> rw [h.1, List.append_assoc] <;> rfl

/-- a name has backslashes only -/
theorem mem_cuts_name (hc : 47 ∉ c) : t ∈ cuts [] c ↔ ∃ u, c = t ++ 92 :: u := by
  rw [mem_cuts]
  constructor
  · rintro ⟨t', u, h | h, rfl⟩
    · rw [h] at hc
      exact absurd (List.mem_append_right _ List.mem_cons_self) hc
    · exact ⟨u, h⟩
  · rintro ⟨u, h⟩
    exact ⟨t, u, .inr h, rfl⟩

/-! ## the places of new directories -/

/-- in front of the backslashes of a name -/
def junk (p : List Bytes) (c : Bytes) : List (List Bytes) :=
  (cuts [] c).map fun t => p ++ if leads t then [t] else []

/-- for the directories `cs` in `p` -/
def makes (p : List Bytes) : List Bytes → List (List Bytes)
  | [] => []
  | c :: cs => junk p c ++ (p ++ [c]) :: makes (p ++ [c]) cs

theorem makes_eq (hp : ∀ x ∈ p, IsName x) (hcs : ∀ x ∈ cs, IsName x) :
    (cuts (dirText p) (dirText cs)).map resolve = makes p cs := by
  induction cs generalizing p with
  | nil => rfl
  | cons c cs ih =>
    have hc := hcs c List.mem_cons_self
    have hp' : ∀ x ∈ p ++ [c], IsName x := by
      intro x hx
      rw [List.mem_append, List.mem_singleton] at hx
      rcases hx with hx | rfl
      · exact hp x hx
      · exact hc
    have hjunk : (cuts (dirText p) c).map resolve = junk p c := by
      have hpre := cuts_prefix (dirText p) [] c
      rw [List.append_nil] at hpre
      rw [hpre, List.map_map, junk]
      apply List.map_congr_left
      intro t ht
      obtain ⟨u, hu⟩ := (mem_cuts_name hc.noSlash).1 ht
      apply resolve_dirText hp
      intro h47
      apply hc.noSlash
      rw [hu]
      exact List.mem_append_left _ h47
    have hname : resolve (dirText p ++ c) = p ++ [c] := by
      rw [resolve_dirText hp hc.noSlash, if_pos hc.leads]
    have hslash : cuts (dirText p ++ c) (47 :: dirText cs) =
        (dirText p ++ c) :: cuts (dirText (p ++ [c])) (dirText cs) := by
      rw [dirText_snoc, ← List.append_assoc]
      rfl
    rw [dirText_cons, cuts_append, hslash, List.map_append, hjunk, List.map_cons, hname,
      ih hp' fun x hx => hcs x (List.mem_cons_of_mem c hx), makes]

/-- a place is that of a directory, or in front of a backslash of one -/
theorem of_mem_makes (hcs : ∀ x ∈ cs, 47 ∉ x) (h : q ∈ makes p cs) : q = p ∨
    ∃ r x, q = p ++ (r ++ [x]) ∧
      (r ++ [x] <+: cs ∨ ∃ rest up, cs = r ++ (x ++ 92 :: rest) :: up) := by
  induction cs generalizing p with
  | nil => cases h
  | cons c cs ih =>
    have hself : ∃ r x, p ++ [c] = p ++ (r ++ [x]) ∧
        (r ++ [x] <+: c :: cs ∨ ∃ rest up, c :: cs = r ++ (x ++ 92 :: rest) :: up) :=
      ⟨[], c, rfl, .inl ⟨cs, rfl⟩⟩
    rw [makes, List.mem_append, List.mem_cons] at h
    rcases h with h | rfl | h
    · obtain ⟨t, ht, rfl⟩ := List.mem_map.1 h
      obtain ⟨u, hu⟩ := (mem_cuts_name (hcs c List.mem_cons_self)).1 ht
      split
      · exact .inr ⟨[], t, rfl, .inr ⟨u, cs, by rw [hu]; rfl⟩⟩
      · exact .inl (List.append_nil p)
    · exact .inr hself
    · rcases ih (fun x hx => hcs x (List.mem_cons_of_mem c hx)) h with rfl | ⟨r, x, rfl, hr⟩
      · exact .inr hself
      · refine .inr ⟨c :: r, x, List.append_assoc _ _ _, ?_⟩
        rcases hr with hr | ⟨rest, up, hr⟩
        · exact .inl (List.cons_prefix_cons.2 ⟨rfl, hr⟩)
        · exact .inr ⟨rest, up, by rw [hr]; rfl⟩

theorem mem_makes (hcs : ∀ x ∈ cs, 47 ∉ x) (hx : leads x = true) {rest : Bytes}
    {up : List Bytes} (h : cs = q ++ (x ++ 92 :: rest) :: up) : p ++ (q ++ [x]) ∈ makes p cs := by
  induction cs generalizing p q with
  | nil => exact absurd h.symm (List.append_ne_nil_of_right_ne_nil q (List.cons_ne_nil _ _))
  | cons c cs ih =>
    rw [makes, List.mem_append, List.mem_cons]
    cases q with
    | nil =>
      have hc : c = x ++ 92 :: rest := (List.cons.inj h).1
      refine .inl (List.mem_map.2 ⟨x, (mem_cuts_name (hcs c List.mem_cons_self)).2 ⟨rest, hc⟩, ?_⟩)
      rw [if_pos hx, List.nil_append]
    | cons d q =>
      rw [List.cons_append, List.cons.injEq] at h
      have hmem := ih (fun y hy => hcs y (List.mem_cons_of_mem c hy)) (p := p ++ [c]) h.2
      rw [List.append_assoc, h.1] at hmem
      rw [h.1]
      exact .inr (.inr hmem)

end

/-! ## making directories -/

def mkdirs (fs : Fs Bytes) (l : List (List Bytes)) : Fs Bytes := l.foldl Fs.mkdir fs

section
variable {fs : Fs Bytes} {l m : List (List Bytes)} {p q cs : List Bytes} {n : Node Bytes}
  {c x : Bytes}

theorem mkdirs_append (fs : Fs Bytes) (l m : List (List Bytes)) :
    mkdirs fs (l ++ m) = mkdirs (mkdirs fs l) m := List.foldl_append

theorem mkdirs_old (h : fs.node q = some n) (l : List (List Bytes)) :
    (mkdirs fs l).node q = some n := by
  induction l generalizing fs with
  | nil => exact h
  | cons p l ih => exact ih (Fs.mkdir_old h p)

theorem mkdirs_new (h : (mkdirs fs l).node q = some n) :
    fs.node q = some n ∨ (q ∈ l ∧ q ≠ [] ∧ n = .dir) := by
  induction l generalizing fs with
  | nil => exact .inl h
  | cons p l ih =>
    rcases ih h with h | h
    · rcases Fs.mkdir_new h with h | h
      · exact .inl h
      · obtain ⟨rfl, hne, hn⟩ := h
        exact .inr ⟨List.mem_cons_self, hne, hn⟩
    · exact .inr ⟨List.mem_cons_of_mem p h.1, h.2⟩

/-- places in one directory that is there -/
theorem mkdirs_flat (hp : fs.node p = some .dir)
    (hl : ∀ q ∈ l, q = p ∨ ∃ x, q = p ++ [x]) : ∀ q ∈ l, (mkdirs fs l).node q ≠ none := by
  induction l generalizing fs with
  | nil => exact fun q hq => nomatch hq
  | cons q l ih =>
    have hp' : (fs.mkdir q).node p = some .dir := Fs.mkdir_old hp q
    intro r hr
    rcases List.mem_cons.1 hr with rfl | hr
    · have hmade : (fs.mkdir r).node r ≠ none := by
        rcases hl r List.mem_cons_self with rfl | ⟨x, rfl⟩
        · rw [hp']
          exact Option.some_ne_none _
        · exact Fs.mkdir_made hp x
      obtain ⟨n, hn⟩ := Option.ne_none_iff_exists'.1 hmade
      have hold : (mkdirs fs (r :: l)).node r = some n := mkdirs_old hn l
      rw [hold]
      exact Option.some_ne_none _
    · exact ih hp' (fun s hs => hl s (List.mem_cons_of_mem q hs)) r hr

/-- the directories of a file are there, and something is at every place -/
theorem mkdirs_makes (hp : fs.node p = some .dir)
    (hfile : ∀ k c, fs.node (p ++ cs.take k) ≠ some (.file c)) :
    (mkdirs fs (makes p cs)).node (p ++ cs) = some .dir ∧
      ∀ q ∈ makes p cs, (mkdirs fs (makes p cs)).node q ≠ none := by
  induction cs generalizing fs p with
  | nil =>
    rw [List.append_nil]
    exact ⟨hp, fun q hq => nomatch hq⟩
  | cons c cs ih =>
    have hflat : ∀ q ∈ junk p c, q = p ∨ ∃ x, q = p ++ [x] := by
      intro q hq
      obtain ⟨t, _, rfl⟩ := List.mem_map.1 hq
      split
      · exact .inr ⟨t, rfl⟩
      · exact .inl (List.append_nil p)
    have hjunk := mkdirs_flat hp hflat
    have hp1 : (mkdirs fs (junk p c)).node p = some .dir := mkdirs_old hp _
    -- the directory itself
    have hdir : ((mkdirs fs (junk p c)).mkdir (p ++ [c])).node (p ++ [c]) = some .dir := by
      obtain ⟨n, hn⟩ := Option.ne_none_iff_exists'.1 (Fs.mkdir_made hp1 c)
      cases n with
      | dir => exact hn
      | file d =>
        rcases Fs.mkdir_new hn with h | h
        · rcases mkdirs_new h with h | h
          · exact absurd h (hfile 1 d)
          · cases h.2.2
        · cases h.2.2
    have hfile' : ∀ k d, ((mkdirs fs (junk p c)).mkdir (p ++ [c])).node ((p ++ [c]) ++ cs.take k) ≠
        some (.file d) := by
      intro k d h
      rcases Fs.mkdir_new h with h | h
      · rcases mkdirs_new h with h | h
        · apply hfile (k + 1) d
          rw [List.take_succ_cons]
          rwa [List.append_assoc] at h
        · cases h.2.2
      · cases h.2.2
    obtain ⟨h1, h2⟩ := ih hdir hfile'
    have hall : mkdirs fs (makes p (c :: cs)) =
        mkdirs ((mkdirs fs (junk p c)).mkdir (p ++ [c])) (makes (p ++ [c]) cs) := by
      rw [makes, mkdirs_append]
      rfl
    rw [hall]
    refine ⟨?_, fun q hq => ?_⟩
    · rw [← h1, List.append_assoc]
      rfl
    · rw [makes, List.mem_append, List.mem_cons] at hq
      have hkeep : ∀ q n, ((mkdirs fs (junk p c)).mkdir (p ++ [c])).node q = some n →
          (mkdirs ((mkdirs fs (junk p c)).mkdir (p ++ [c])) (makes (p ++ [c]) cs)).node q ≠
            none := by
        intro q n h
        rw [mkdirs_old h]
        exact Option.some_ne_none _
      rcases hq with hq | rfl | hq
      · obtain ⟨n, hn⟩ := Option.ne_none_iff_exists'.1 (hjunk q hq)
        exact hkeep q n (Fs.mkdir_old hn _)
      · exact hkeep _ _ hdir
      · exact h2 q hq

end

/-! ## `path_mkdir_for` -/

section
variable {destdir : Bytes} {fs : Fs Bytes} {s x pre d t : Bytes} {q : List Bytes} {n : Node Bytes}
  {l : List Bytes} {f : FileEntry}

theorem under_append (destdir q : Bytes) : under destdir (destdir ++ 47 :: q) = some q := by
  have hpre : (destdir ++ [47]).isPrefixOf (destdir ++ 47 :: q) = true :=
    List.isPrefixOf_iff_prefix.2 ⟨q, by rw [List.append_assoc]; rfl⟩
  rw [under, if_pos hpre]
  congr 1
  rw [List.drop_append, List.drop_eq_nil_of_le (Nat.le_succ _), Nat.add_sub_cancel_left]
  rfl

theorem of_under (h : under destdir s = some t) : s = destdir ++ 47 :: t := by
  rw [under] at h
  split at h
  · next hp =>
    obtain ⟨u, rfl⟩ := List.isPrefixOf_iff_prefix.1 hp
    rw [List.append_assoc, List.singleton_append] at h ⊢
    have hu := under_append destdir u
    rw [under, if_pos] at hu
    · rw [← Option.some.inj h, Option.some.inj hu]
    · rwa [List.append_assoc, List.singleton_append] at hp
  · cases h

theorem under_short (h : s.length ≤ destdir.length) : under destdir s = none := by
  cases hu : under destdir s with
  | none => rfl
  | some t =>
    rw [of_under hu, List.length_append, List.length_cons] at h
    omega

theorem foldl_under (hl : ∀ q ∈ l, under destdir q = none) :
    l.foldl (mkdir destdir) fs = fs := by
  induction l with
  | nil => rfl
  | cons q l ih =>
    rw [List.foldl_cons, mkdir, hl q List.mem_cons_self]
    exact ih fun r hr => hl r (List.mem_cons_of_mem q hr)

theorem foldl_mkdirs (destdir : Bytes) (fs : Fs Bytes) (l : List Bytes) :
    (l.map fun q => destdir ++ 47 :: q).foldl (mkdir destdir) fs = mkdirs fs (l.map resolve) := by
  induction l generalizing fs with
  | nil => rfl
  | cons q l ih =>
    rw [List.map_cons, List.foldl_cons, mkdir, under_append]
    exact ih _

/-- the first byte of a path does not matter -/
theorem foldl_cuts (destdir : Bytes) (fs : Fs Bytes) (s : Bytes) :
    (cuts (s.take 1) (s.drop 1)).foldl (mkdir destdir) fs = (cuts [] s).foldl (mkdir destdir) fs := by
  cases s with
  | nil => rfl
  | cons c s =>
    have hnil : mkdir destdir fs [] = fs := by
      rw [mkdir, under_short (Nat.zero_le _)]
    rw [cuts, List.foldl_append]
    split
    · rw [List.foldl_cons, hnil]
      rfl
    · rfl

theorem length_cuts (h : t ∈ cuts [] s) : t.length < s.length := by
  obtain ⟨t', u, hs, rfl⟩ := mem_cuts.1 h
  rcases hs with rfl | rfl <;>
    rw [List.length_append, List.length_cons] <;> omega

/-- a path that does not lead behind the destination -/
theorem mkdirP_short (h : pre.length ≤ destdir.length) : mkdirP destdir fs pre = fs := by
  rw [mkdirP]
  split
  · rfl
  · rw [foldl_cuts, foldl_under, mkdir, under_short h]
    intro q hq
    apply under_short
    have := length_cuts hq
    omega

/-- the directories of the path `d` in the destination -/
theorem mkdirP_under (h : (destdir ++ 47 :: d).length < 1024) :
    mkdirP destdir fs (destdir ++ 47 :: d) = mkdirs fs ((cuts [] (d ++ [47])).map resolve) := by
  have hsplit : cuts [] (destdir ++ 47 :: d) =
      cuts [] destdir ++ (destdir :: (cuts [] d).map fun q => destdir ++ 47 :: q) := by
    have hpre := cuts_prefix (destdir ++ [47]) [] d
    rw [List.append_nil] at hpre
    rw [cuts_append, List.nil_append]
    congr 1
    show destdir :: cuts (destdir ++ [47]) d = _
    rw [hpre]
    congr 1
    apply List.map_congr_left
    intro q _
    rw [List.append_assoc]
    rfl
  have hlast : cuts [] (d ++ [47]) = cuts [] d ++ [d] := by
    rw [cuts_append, List.nil_append]
    rfl
  have houter : (cuts [] destdir).foldl (mkdir destdir) fs = fs := by
    apply foldl_under
    intro q hq
    exact under_short (Nat.le_of_lt (length_cuts hq))
  rw [mkdirP, if_neg (Nat.not_le.2 h), foldl_cuts, hsplit, List.foldl_append, houter,
    List.foldl_cons, mkdir, mkdir, under_short (Nat.le_refl _), under_append, foldl_mkdirs, hlast,
    List.map_append, mkdirs_append]
  rfl

/-- what is new stands at a path that is shorter -/
theorem mkdirP_new (h : (mkdirP destdir fs pre).node q = some n) : fs.node q = some n ∨
    (n = .dir ∧ ∃ t, q = resolve t ∧ (destdir ++ 47 :: t).length ≤ pre.length) := by
  have hmk : ∀ (fs : Fs Bytes) (s : Bytes), s.length ≤ pre.length →
      (mkdir destdir fs s).node q = some n → fs.node q = some n ∨
        (n = .dir ∧ ∃ t, q = resolve t ∧ (destdir ++ 47 :: t).length ≤ pre.length) := by
    intro fs s hs h
    rw [mkdir] at h
    split at h
    · exact .inl h
    · next t ht =>
      rcases Fs.mkdir_new h with h | h
      · exact .inl h
      · exact .inr ⟨h.2.2, t, h.1, of_under ht ▸ hs⟩
  have hfold : ∀ (l : List Bytes) (fs : Fs Bytes), (∀ s ∈ l, s.length ≤ pre.length) →
      (l.foldl (mkdir destdir) fs).node q = some n → fs.node q = some n ∨
        (n = .dir ∧ ∃ t, q = resolve t ∧ (destdir ++ 47 :: t).length ≤ pre.length) := by
    intro l
    induction l with
    | nil => exact fun fs _ h => .inl h
    | cons s l ih =>
      intro fs hl h
      rcases ih _ (fun r hr => hl r (List.mem_cons_of_mem s hr)) h with h | h
      · exact hmk fs s (hl s List.mem_cons_self) h
      · exact .inr h
  rw [mkdirP] at h
  split at h
  · exact .inl h
  · rw [foldl_cuts] at h
    rcases hmk _ _ (Nat.le_refl _) h with h | h
    · exact hfold _ _ (fun s hs => Nat.le_of_lt (length_cuts hs)) h
    · exact .inr h

theorem beforeSlash_eq (s : Bytes) (hx : 47 ∉ x) : beforeSlash (s ++ 47 :: x) = some s := by
  have hdrop : (s ++ 47 :: x).reverse.dropWhile (fun c => c ≠ 47) = 47 :: s.reverse := by
    rw [List.reverse_append, List.reverse_cons, List.append_assoc, List.dropWhile_append_of_pos]
    · rfl
    · intro c hc
      apply decide_eq_true
      rintro rfl
      exact hx (List.mem_reverse.1 hc)
  rw [beforeSlash, hdrop]
  show some s.reverse.reverse = _
  rw [List.reverse_reverse]

theorem beforeSlash_length (h : beforeSlash s = some pre) : pre.length < s.length := by
  rw [beforeSlash] at h
  split at h
  · cases h
  · next c r hr =>
    have hlen := (List.dropWhile_suffix (fun c => c ≠ 47) (l := s.reverse)).length_le
    rw [hr, List.length_reverse, List.length_cons] at hlen
    rw [← Option.some.inj h, List.length_reverse]
    exact hlen

/-- the path of the directory of the file fits the buffer, with the slash behind it -/
def DestFits (destdir : Bytes) (f : FileEntry) : Prop :=
  f.parents = [] ∨ (destdir ++ 47 :: dirText f.parents).length ≤ 1023

/-- the names of a file lead somewhere -/
structure NamesOk (f : FileEntry) : Prop where
  parents : ∀ x ∈ f.parents, IsName x
  name : IsName f.name

theorem pathMkdirFor_eq (hf : NamesOk f) (hd : DestFits destdir f) :
    pathMkdirFor destdir fs (destdir ++ 47 :: f.text) = mkdirs fs (makes [] f.parents) := by
  rcases List.eq_nil_or_concat f.parents with hnil | ⟨up, last, hup⟩
  · -- the last slash is the one behind the destination, or in its path
    rw [pathMkdirFor]
    have hshort : ∀ pre, beforeSlash (buf1024 (destdir ++ 47 :: f.text)) = some pre →
        pre.length ≤ destdir.length := by
      intro pre hpre
      have htext : f.text = f.name := by
        rw [FileEntry.text, hnil]
        rfl
      rw [htext, buf1024, List.take_append] at hpre
      by_cases hlen : destdir.length < 1023
      · obtain ⟨k, hk⟩ : ∃ k, 1023 - destdir.length = k + 1 := ⟨1022 - destdir.length, by omega⟩
        rw [List.take_of_length_le (Nat.le_of_lt hlen), hk, List.take_succ_cons,
          beforeSlash_eq destdir fun h => hf.name.noSlash (List.mem_of_mem_take h)] at hpre
        rw [← Option.some.inj hpre]
      · have hpre' := beforeSlash_length hpre
        have hk : 1023 - destdir.length = 0 := by omega
        rw [hk, List.take_zero, List.append_nil, List.length_take] at hpre'
        omega
    rw [hnil]
    cases hpre : beforeSlash (buf1024 (destdir ++ 47 :: f.text)) with
    | none => rfl
    | some pre => exact mkdirP_short (hshort pre hpre)
  · have hlen : (destdir ++ 47 :: dirText f.parents).length ≤ 1023 := by
      refine hd.resolve_left fun h => ?_
      rw [hup] at h
      exact absurd h (by simp)
    have hdir : dirText f.parents = dirText up ++ last ++ [47] := by
      rw [hup, List.concat_eq_append, dirText_snoc, List.append_assoc]
    obtain ⟨k, hcut⟩ : ∃ k, buf1024 (destdir ++ 47 :: f.text) =
        (destdir ++ 47 :: (dirText up ++ last)) ++ 47 :: f.name.take k := by
      refine ⟨1023 - (destdir ++ 47 :: dirText f.parents).length, ?_⟩
      have hout : destdir ++ 47 :: f.text = (destdir ++ 47 :: dirText f.parents) ++ f.name := by
        rw [FileEntry.text, List.append_assoc, List.cons_append]
      rw [buf1024, hout, List.take_append, List.take_of_length_le hlen]
      generalize List.take _ f.name = x
      rw [hdir]
      simp only [List.append_assoc, List.cons_append, List.nil_append]
    have hfit : (destdir ++ 47 :: (dirText up ++ last)).length < 1024 := by
      rw [hdir] at hlen
      simp only [List.length_append, List.length_cons] at hlen ⊢
      omega
    rw [pathMkdirFor, hcut, beforeSlash_eq _ fun h => hf.name.noSlash (List.mem_of_mem_take h)]
    show mkdirP destdir fs (destdir ++ 47 :: (dirText up ++ last)) = _
    rw [mkdirP_under hfit, ← hdir]
    exact congrArg (mkdirs fs) (makes_eq (p := []) (fun x hx => nomatch hx) hf.parents)

/-- if it does not fit, the directory of the file is not made -/
theorem pathMkdirFor_long (hd : ¬ DestFits destdir f)
    (h : (pathMkdirFor destdir fs (destdir ++ 47 :: f.text)).node f.parents = some n) :
    fs.node f.parents = some n := by
  rw [DestFits, not_or] at hd
  rw [pathMkdirFor] at h
  split at h
  · exact h
  · next pre hpre =>
    rcases mkdirP_new h with h | ⟨_, t, ht, hlen⟩
    · exact h
    · exfalso
      have h1 := beforeSlash_length hpre
      rw [buf1024, List.length_take] at h1
      have h2 := length_resolve_le t
      rw [← ht] at h2
      apply hd.2
      rw [List.length_append, List.length_cons] at hlen ⊢
      omega

theorem writeAll_eq (hf : NamesOk f) (c : Bytes) :
    writeAll destdir fs (destdir ++ 47 :: f.text) c = fs.write (f.parents ++ [f.name]) c := by
  have hsplit : splitSlash f.text = f.parents ++ [f.name] := by
    rw [FileEntry.text, splitSlash_dirText fun x hx => (hf.parents x hx).noSlash,
      splitSlash_name hf.name.noSlash]
  have hres : resolve f.text = f.parents ++ [f.name] := by
    rw [FileEntry.text, resolve_dirText hf.parents hf.name.noSlash, if_pos hf.name.leads]
  have hlast : (splitSlash f.text).getLast? = some f.name := by
    rw [hsplit, List.getLast?_append, List.getLast?_singleton]
    rfl
  rw [writeAll, under_append, ← hres]
  simp only [hlast, if_pos hf.name.leads]

end

end Package
end HolyPhp
