import HolyPhp.Lib.Postorder
import HolyPhp.Loader.Search
import Mathlib.Data.Set.Finite.List
import Mathlib.Data.Set.Finite.Lattice

/-!
# Loading a file and what it imports

* `loadSource`   `load_source_recursive`, by the depth of the recursion: `none` goes deeper;
* `nextPaths`    the spellings that a loaded file leads to: loading is the depth-first search over
                 them (`loadSource_visit`), with the list of visited SPELLINGS;
* `Loads`        loading ends, with every file once, each behind what it imports, the root last;
* `loads_iff`    **that holds if and only if no file is reached under two spellings**.
-/

set_option linter.unusedVariables false
set_option autoImplicit false

namespace HolyPhp
namespace Loader
open Posix hiding Bytes
open Postorder Relation

section
variable {D : Type} (S : Setup D)

/-! ## the code -/

structure Program (D : Type) where
  file : Bytes
  source : Source D

structure LoadCtx (D : Type) where
  programs : List (Program D)
  visited : List Bytes

/-- the file and the import of `fatal` -/
abbrev Loading (D : Type) := Option (Except (Bytes × Bytes) (LoadCtx D))

/-- the loop over the imports, with `load_once` -/
def loadImports (loadOnce : LoadCtx D → Bytes → Source D → Loading D) (path : Bytes) :
    LoadCtx D → List Bytes → Loading D
  | ctx, [] => some (.ok ctx)
  | ctx, spec :: rest =>
    match findImport S path spec with
    | none => some (.error (path, spec))
    | some (p, s) =>
      match loadOnce ctx p s with
      | some (.ok ctx) => loadImports loadOnce path ctx rest
      | r => r

def loadSource : Nat → LoadCtx D → Bytes → Source D → Loading D
  | 0, _, _, _ => none
  | fuel + 1, ctx, path, src =>
    if path ∈ ctx.visited then some (.ok ctx)
    else
      match loadImports S (loadSource fuel) path { ctx with visited := ctx.visited ++ [path] }
        src.imports with
      | some (.ok ctx) => some (.ok { ctx with programs := ctx.programs ++ [⟨path, src⟩] })
      | r => r

/-- `load_file_recursive` -/
def loadFile (fuel : Nat) (path : Bytes) : Loading D :=
  match S.read path with
  | none => some (.error (path, []))
  | some src => loadSource S fuel ⟨[], []⟩ path src

def mergePrograms (progs : List (Program D)) : List D := progs.flatMap fun p => p.source.decls

/-! ## the graph -/

/-- the source that is known under a spelling -/
def sourceAt (path : Bytes) : Option (Source D) :=
  match S.read path with
  | some s => some s
  | none => (S.libs.find? fun l => libPath l.1 = path).map Prod.snd

def nextPaths (path : Bytes) : List Bytes :=
  match sourceAt S path with
  | none => []
  | some s => s.imports.filterMap fun spec => (findImport S path spec).map Prod.fst

/-- the imports of the root lead to the spelling -/
def Reached (root path : Bytes) : Prop := Leads (nextPaths S) root path

/-- every import names something -/
def Resolved (root : Bytes) : Prop :=
  ∀ p s, Reached S root p → sourceAt S p = some s → ∀ spec ∈ s.imports, findImport S p spec ≠ none

/-- a file imports another -/
def Imports (root : Bytes) (f g : List Bytes) : Prop :=
  ∃ p q, Reached S root p ∧ q ∈ nextPaths S p ∧ S.place p = f ∧ S.place q = g

/-- what `merge_programs` gets -/
structure Loaded (root : Bytes) (progs : List (Program D)) : Prop where
  own : ∀ x ∈ progs, sourceAt S x.file = some x.source
  once : ∀ p, Reached S root p → (progs.map fun x => S.place x.file).count (S.place p) = 1
  order : ∀ E x F, progs = E ++ x :: F →
    ¬ TransGen (Imports S root) (S.place x.file) (S.place x.file) →
    ∀ g, Imports S root (S.place x.file) g → ∃ y ∈ E, S.place y.file = g
  last : progs.getLast?.map Program.file = some root

def Loads (root : Bytes) : Prop :=
  ∃ fuel ctx, loadFile S fuel root = some (.ok ctx) ∧ Loaded S root ctx.programs

variable {S} {root p q : Bytes} {s : Source D}

theorem findImport_source {spec : Bytes} (h : findImport S p spec = some (q, s)) :
    sourceAt S q = some s := by
  rw [findImport] at h
  split at h
  · next found hf =>
    cases h
    obtain ⟨c, -, hc⟩ := List.exists_of_findSome?_eq_some hf
    obtain ⟨s', hs, he⟩ := Option.map_eq_some_iff.mp hc
    cases he
    rw [sourceAt, hs]
  · obtain ⟨l, hl, he⟩ := Option.map_eq_some_iff.mp h
    cases he
    rw [libSource] at hl
    have hname : libRelSpec (withExt spec) = l.1 := by simpa using List.find?_some hl
    have hread : S.read (libPath l.1) = none := S.apart l (List.mem_of_find?_eq_some hl)
    have hfind : S.libs.find? (fun l' => libPath l'.1 = libPath l.1) = some l := by
      rw [← hl]
      congr 1
      funext l'
      apply decide_eq_decide.mpr
      rw [hname]
      exact ⟨fun h => (List.append_cancel_left h).symm, fun h => by rw [h]⟩
    rw [sourceAt, hread, hfind]
    rfl

theorem mem_nextPaths : q ∈ nextPaths S p ↔ ∃ s, sourceAt S p = some s ∧ ∃ spec ∈ s.imports,
    ∃ t, findImport S p spec = some (q, t) := by
  rw [nextPaths]
  split
  · next h => simp [h]
  · next s h =>
    simp only [List.mem_filterMap, Option.map_eq_some_iff, h, Option.some.injEq, exists_eq_left']
    constructor
    · rintro ⟨spec, hs, ⟨q', t⟩, hf, rfl⟩
      exact ⟨spec, hs, t, hf⟩
    · rintro ⟨spec, hs, t, hf⟩
      exact ⟨spec, hs, (q, t), hf, rfl⟩

/-- what is reached has a source -/
theorem reached_source (hroot : S.read root ≠ none) (h : Reached S root p) :
    ∃ s, sourceAt S p = some s := by
  cases h with
  | refl =>
    obtain ⟨s, hs⟩ := Option.ne_none_iff_exists'.mp hroot
    exact ⟨s, by rw [sourceAt, hs]⟩
  | tail _ hm =>
    obtain ⟨s, hs, spec, hspec, t, ht⟩ := mem_nextPaths.mp hm
    exact ⟨t, findImport_source ht⟩

/-! ## loading is a search -/

variable (S) in
def programAt (path : Bytes) : Program D := ⟨path, (sourceAt S path).getD ⟨[], []⟩⟩

variable (S) in
def toCtx (st : Marks Bytes) : LoadCtx D := ⟨st.done.map (programAt S), st.visited⟩

/-- **Loading is the depth-first search over the spellings**, where every import names something. -/
theorem loadSource_visit (hr : Resolved S root) (fuel : Nat) : ∀ (st : Marks Bytes) (p : Bytes)
    (s : Source D), Reached S root p → sourceAt S p = some s → loadSource S fuel (toCtx S st) p s =
      (visit (nextPaths S) fuel st p).map fun st => .ok (toCtx S st) := by
  induction fuel with
  | zero =>
    intro st p s hp hs
    rfl
  | succ fuel ih =>
    intro st p s hp hs
    rw [loadSource, visit]
    by_cases hv : p ∈ st.visited
    · rw [if_pos hv, if_pos (show p ∈ (toCtx S st).visited from hv)]
      rfl
    · rw [if_neg hv, if_neg (show p ∉ (toCtx S st).visited from hv)]
      -- the loop, for a part of the imports
      have hloop : ∀ (specs : List Bytes) (st : Marks Bytes), (∀ spec ∈ specs, spec ∈ s.imports) →
          loadImports S (loadSource S fuel) p (toCtx S st) specs =
            ((specs.filterMap fun spec => (findImport S p spec).map Prod.fst).foldlM
              (visit (nextPaths S) fuel) st).map fun st => .ok (toCtx S st) := by
        intro specs
        induction specs with
        | nil => exact fun st _ => rfl
        | cons spec specs ihs =>
          intro st hspecs
          have hspec := hspecs spec List.mem_cons_self
          obtain ⟨⟨q, t⟩, hf⟩ := Option.ne_none_iff_exists'.mp (hr p s hp hs spec hspec)
          have hq : q ∈ nextPaths S p := mem_nextPaths.mpr ⟨s, hs, spec, hspec, t, hf⟩
          have hstep := ih st q t (hp.tail hq) (findImport_source hf)
          rw [loadImports, hf, List.filterMap_cons, hf]
          dsimp only [Option.map_some]
          rw [List.foldlM_cons, hstep]
          cases hvis : visit (nextPaths S) fuel st q with
          | none => rfl
          | some st₁ => exact ihs st₁ fun spec' h => hspecs spec' (List.mem_cons_of_mem spec h)
      have hnext : nextPaths S p =
          s.imports.filterMap fun spec => (findImport S p spec).map Prod.fst := by
        rw [nextPaths, hs]
      have hrun := hloop s.imports { st with visited := st.visited ++ [p] } fun spec h => h
      rw [← hnext] at hrun
      have hctx : ({ toCtx S st with visited := (toCtx S st).visited ++ [p] } : LoadCtx D) =
          toCtx S { st with visited := st.visited ++ [p] } := rfl
      rw [hctx, hrun]
      cases (nextPaths S p).foldlM (visit (nextPaths S) fuel)
        { st with visited := st.visited ++ [p] } with
      | none => rfl
      | some st₁ =>
        show some (Except.ok _) = some (Except.ok _)
        congr 2
        show _ = LoadCtx.mk _ _
        rw [List.map_append]
        congr 2
        rw [List.map_singleton, programAt, hs]
        rfl

theorem loadFile_visit (hroot : S.read root ≠ none) (hr : Resolved S root) (fuel : Nat) :
    loadFile S fuel root =
      (visit (nextPaths S) fuel .start root).map fun st => .ok (toCtx S st) := by
  obtain ⟨s, hs⟩ := Option.ne_none_iff_exists'.mp hroot
  have hsource : sourceAt S root = some s := by rw [sourceAt, hs]
  rw [loadFile, hs]
  exact loadSource_visit hr fuel .start root s .refl hsource

/-! ## when it ends -/

/-- the places that a spelling can be of -/
theorem reached_place (hroot : S.read root ≠ none) (hp : Reached S root p) :
    S.place p ∈ S.files.map Prod.fst ++ S.libs.map fun l => S.place (libPath l.1) := by
  obtain ⟨s, hs⟩ := reached_source hroot hp
  rw [sourceAt] at hs
  split at hs
  · next s' hread =>
    apply List.mem_append_left
    have hmem := List.lookup_eq_some_iff.mp hread
    obtain ⟨l₁, l₂, hl, -⟩ := hmem
    rw [hl]
    simp
  · apply List.mem_append_right
    obtain ⟨l, hl, -⟩ := Option.map_eq_some_iff.mp hs
    have hname : libPath l.1 = p := by simpa using List.find?_some hl
    exact List.mem_map.mpr ⟨l, List.mem_of_find?_eq_some hl, by rw [hname]⟩

/-- with one spelling for each file, finitely many are reached -/
theorem reached_finite (hroot : S.read root ≠ none)
    (h : ∀ p q, Reached S root p → Reached S root q → S.place p = S.place q → p = q) :
    {p | Reached S root p}.Finite := by
  apply Set.Finite.of_finite_image (f := S.place)
  · apply Set.Finite.subset (List.finite_toSet
      (S.files.map Prod.fst ++ S.libs.map fun l => S.place (libPath l.1)))
    rintro _ ⟨p, hp, rfl⟩
    exact reached_place hroot hp
  · intro p hp q hq he
    exact h p q hp hq he

/-- files lead back where spellings do -/
theorem imports_of_leads (hp : Reached S root p) (h : TransGen (fun a b => b ∈ nextPaths S a) p q) :
    TransGen (Imports S root) (S.place p) (S.place q) := by
  induction h with
  | single hq => exact .single ⟨p, _, hp, hq, rfl, rfl⟩
  | tail hl hm ih => exact ih.tail ⟨_, _, hp.trans hl.to_reflTransGen, hm, rfl, rfl⟩

theorem loaded_of (h : ∀ p q, Reached S root p → Reached S root q → S.place p = S.place q → p = q)
    (hroot : S.read root ≠ none) {fuel : Nat} {st : Marks Bytes}
    (hv : visit (nextPaths S) fuel .start root = some st) : Loaded S root (toCtx S st).programs := by
  obtain ⟨hnodup, hmem, hlast, hordered⟩ := visit_all hv
  have hplaces : (toCtx S st).programs.map (fun x => S.place x.file) = st.done.map S.place := by
    rw [toCtx, List.map_map]
    rfl
  refine ⟨?_, ?_, ?_, ?_⟩
  · intro x hx
    obtain ⟨p, hp, rfl⟩ := List.mem_map.mp hx
    obtain ⟨s, hs⟩ := reached_source hroot ((hmem p).mp hp)
    show sourceAt S p = some ((sourceAt S p).getD _)
    rw [hs]
    rfl
  · intro p hp
    rw [hplaces]
    apply List.count_eq_one_of_mem
    · apply List.Nodup.map_on _ hnodup
      intro a ha b hb he
      exact h a b ((hmem a).mp ha) ((hmem b).mp hb) he
    · exact List.mem_map_of_mem ((hmem p).mpr hp)
  · intro E x F he hcycle g hg
    obtain ⟨E', F', hE, rfl, hF⟩ := List.map_eq_append_iff.mp he
    rcases F' with _ | ⟨e, F'⟩
    · cases hF
    obtain ⟨rfl, -⟩ := List.cons.inj hF
    obtain ⟨p, q, hp, hq, hpe, rfl⟩ := hg
    have he' : Reached S root e := (hmem e).mp (by rw [hE]; simp)
    obtain rfl : p = e := h p e hp he' hpe
    rw [hE] at hordered
    rcases hordered.before hq with hb | hb
    · exact ⟨programAt S q, List.mem_map_of_mem hb, rfl⟩
    · exact absurd (imports_of_leads he' (.head' hq hb)) hcycle
  · rw [toCtx, List.getLast?_map, hlast]
    rfl

/-- the declarations that are merged are those of the files -/
theorem mergePrograms_loaded {progs : List (Program D)} (h : Loaded S root progs) :
    mergePrograms progs =
      (progs.map Program.file).flatMap fun p => ((sourceAt S p).map Source.decls).getD [] := by
  rw [mergePrograms, List.flatMap_map]
  apply List.flatMap_congr
  intro x hx
  rw [h.own x hx]
  rfl

theorem one_spelling (hroot : S.read root ≠ none) (hr : Resolved S root) (h : Loads S root)
    (hp : Reached S root p) (hq : Reached S root q) (he : S.place p = S.place q) : p = q := by
  obtain ⟨fuel, ctx, hrun, hload⟩ := h
  rw [loadFile_visit hroot hr] at hrun
  obtain ⟨st, hst, hctx⟩ := Option.map_eq_some_iff.mp hrun
  cases hctx
  obtain ⟨hnodup, hmem, -⟩ := visit_all hst
  have hplaces : (toCtx S st).programs.map (fun x => S.place x.file) = st.done.map S.place := by
    rw [toCtx, List.map_map]
    rfl
  have hone : (st.done.map S.place).Nodup := by
    rw [List.nodup_iff_count_le_one]
    intro f
    by_cases hf : f ∈ st.done.map S.place
    · obtain ⟨r, hr, rfl⟩ := List.mem_map.mp hf
      rw [← hplaces, hload.once r ((hmem r).mp hr)]
    · rw [List.count_eq_zero_of_not_mem hf]
      exact Nat.zero_le 1
  exact List.inj_on_of_nodup_map hone ((hmem p).mpr hp) ((hmem q).mpr hq) he

theorem loads_of (hroot : S.read root ≠ none) (hr : Resolved S root)
    (h : ∀ p q, Reached S root p → Reached S root q → S.place p = S.place q → p = q) :
    Loads S root := by
  have hfin := reached_finite hroot h
  obtain ⟨fuel, st, hst⟩ : ∃ fuel st, visit (nextPaths S) fuel .start root = some st := by
    obtain ⟨st, hst, -⟩ := visit_returns (nextPaths S) hfin.toFinset.toList _
      .start root (fun m hm => Finset.mem_toList.mpr (hfin.mem_toFinset.mpr hm))
      (Nat.lt_succ_self _)
    exact ⟨_, st, hst⟩
  refine ⟨fuel, toCtx S st, ?_, loaded_of h hroot hst⟩
  rw [loadFile_visit hroot hr, hst]
  rfl

/-- **Loading does what it should if and only if no file is reached under two spellings.** -/
theorem loads_iff (hroot : S.read root ≠ none) (hr : Resolved S root) : Loads S root ↔
    ∀ p q, Reached S root p → Reached S root q → S.place p = S.place q → p = q :=
  ⟨fun h p q hp hq he => one_spelling hroot hr h hp hq he, loads_of hroot hr⟩

/-- where the imports of the root import nothing -/
theorem reached_shallow (h : ∀ q ∈ nextPaths S root, nextPaths S q = []) (hp : Reached S root p) :
    p = root ∨ p ∈ nextPaths S root := by
  induction hp with
  | refl => exact .inl rfl
  | tail _ hm ih =>
    rcases ih with rfl | ih
    · exact .inr hm
    · rw [h _ ih] at hm
      cases hm

end

/-- `/w/a.hphp` with the imports, and `/w/b.hphp` without -/
def twoFiles (imports : List Bytes) : Setup Unit where
  cwd := ascii "/w"
  files := [([ascii "w", ascii "a.hphp"], ⟨imports, []⟩), ([ascii "w", ascii "b.hphp"], ⟨[], [()]⟩)]
  pkgImportCandidate := fun _ => none
  hphpPath := none
  libs := []
  apart l hl := absurd hl List.not_mem_nil

theorem loads_iff_b : Loads (twoFiles [ascii "b"]) (ascii "a.hphp") ↔
    ∀ p q, Reached (twoFiles [ascii "b"]) (ascii "a.hphp") p →
      Reached (twoFiles [ascii "b"]) (ascii "a.hphp") q →
      (twoFiles [ascii "b"]).place p = (twoFiles [ascii "b"]).place q → p = q := by
  have hnext : nextPaths (twoFiles [ascii "b"]) (ascii "a.hphp") = [ascii "./b.hphp"] := by decide
  apply loads_iff
  · decide
  · intro p s hp hs
    rcases reached_shallow (by rw [hnext]; decide) hp with rfl | hp
    · have hsource : sourceAt (twoFiles [ascii "b"]) (ascii "a.hphp") = some ⟨[ascii "b"], []⟩ := rfl
      cases hsource.symm.trans hs
      decide
    · rw [hnext, List.mem_singleton] at hp
      subst hp
      have hsource : sourceAt (twoFiles [ascii "b"]) (ascii "./b.hphp") = some ⟨[], [()]⟩ := rfl
      cases hsource.symm.trans hs
      decide

/-- `import "b"` and `import "./b"` -/
theorem loads_twice : ¬ ∀ (S : Setup Unit) (root : Bytes), S.read root ≠ none → Resolved S root →
    Loads S root := by
  intro h
  have hnext : nextPaths (twoFiles [ascii "b", ascii "./b"]) (ascii "a.hphp") =
      [ascii "./b.hphp", ascii "././b.hphp"] := by decide
  have hr : Resolved (twoFiles [ascii "b", ascii "./b"]) (ascii "a.hphp") := by
    intro p s hp hs
    rcases reached_shallow (by rw [hnext]; decide) hp with rfl | hp
    · have hsource : sourceAt (twoFiles [ascii "b", ascii "./b"]) (ascii "a.hphp") =
          some ⟨[ascii "b", ascii "./b"], []⟩ := rfl
      cases hsource.symm.trans hs
      decide
    · have hsource : sourceAt (twoFiles [ascii "b", ascii "./b"]) p = some ⟨[], [()]⟩ := by
        rw [hnext] at hp
        simp only [List.mem_cons, List.not_mem_nil, or_false] at hp
        rcases hp with rfl | rfl
        · rfl
        · rfl
      cases hsource.symm.trans hs
      exact fun spec hspec => absurd hspec List.not_mem_nil
  have hroot : (twoFiles [ascii "b", ascii "./b"]).read (ascii "a.hphp") ≠ none := by decide
  have hp : Reached (twoFiles [ascii "b", ascii "./b"]) (ascii "a.hphp") (ascii "./b.hphp") :=
    .single (by rw [hnext]; exact List.mem_cons_self)
  have hq : Reached (twoFiles [ascii "b", ascii "./b"]) (ascii "a.hphp") (ascii "././b.hphp") :=
    .single (by rw [hnext]; exact List.mem_cons_of_mem _ List.mem_cons_self)
  exact absurd (one_spelling hroot hr (h _ _ hroot hr) hp hq (by decide)) (by decide)

end Loader
end HolyPhp
