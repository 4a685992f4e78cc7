import HolyPhp.Lib.Climb
import HolyPhp.Package.Server
import HolyPhp.Runtime.ArrFill
import Mathlib.Data.Int.Interval
import Mathlib.Data.Set.Card

/-!
# The registry's reader of archives

* `HpxLine`, `hpxLine`   what the loop of `hpx_files` finds at a position;
* `hpxRun`        the lines from a position on, `hpxFiles_run`: the loop writes one after the other;
* `Holds`         the array for a list of names and contents;
* `hpxEnds_iff`   **the loop ends if and only if** the positions that it comes to have no cycle, and
                  the array can take the names.
-/

set_option linter.unusedVariables false
set_option autoImplicit false

namespace HolyPhp
namespace Package
open Arr hiding Key
open HolyPhp.Std Substr Assoc Climb Relation
open Str hiding hpValToStr

/-! ## one round -/

/-- `$fname`, `$flen` and `$pos` behind the line -/
structure HpxLine where
  name : Bytes
  size : Int
  body : Int
  deriving DecidableEq

/-- one round of the loop, up to the write; `none` where it ends -/
def hpxLine (text : Bytes) (pos : Int) : Option HpxLine :=
  if (text.length : Int) ≤ pos then none
  else match strposFrom [10] text pos with
    | none => none
    | some nl =>
      let hdr := hpStrTrim (hpbiSubstr text pos (some (nl - pos)))
      if hdr = ascii "HPHX1" then none
      else match strpos [32] hdr with
        | none => none
        | some sp => some ⟨hdr.take sp, (strtoll (hdr.drop (sp + 1))).toInt, nl + 1⟩

namespace HpxLine
variable (e : HpxLine) (text : Bytes)

def content : Bytes := hpbiSubstr text e.body (some e.size)

/-- `$pos + $flen` -/
def next : Int := wrap64 (e.body + e.size)

/-- what is written to `$files` -/
def entry : Bytes × Bytes := (e.name, e.content text)

end HpxLine

/-- the lines from `pos` on -/
def hpxRun (text : Bytes) : Nat → Int → Option (List HpxLine)
  | 0, _ => none
  | fuel + 1, pos =>
    match hpxLine text pos with
    | none => some []
    | some e => (hpxRun text fuel e.next).map (e :: ·)

def strPair (e : Bytes × Bytes) : Val × Val := (.str (some e.1), .str (some e.2))

/-- `$files[$fname] = ...`, one after the other -/
def setAll (files : Harr) : List (Bytes × Bytes) → Option Harr
  | [] => some files
  | e :: es => (hpArrSet files (strPair e).1 (strPair e).2).bind fun files => setAll files es

section
variable {text : Bytes} {pos : Int} {files : Harr} {fuel : Nat} {e : HpxLine} {es : List HpxLine}

theorem hpxFiles_succ (text : Bytes) (fuel : Nat) (pos : Int) (files : Harr) :
    hpxFiles text (fuel + 1) pos files = match hpxLine text pos with
      | none => some files
      | some e => (hpArrSet files (strPair (e.entry text)).1 (strPair (e.entry text)).2).bind
          (hpxFiles text fuel e.next) := by
  rw [hpxFiles, hpxLine]
  by_cases hpos : (text.length : Int) ≤ pos
  · rw [if_pos hpos, if_pos hpos]
  rw [if_neg hpos, if_neg hpos]
  cases strposFrom [10] text pos with
  | none => rfl
  | some nl =>
    dsimp only
    by_cases hend : hpStrTrim (hpbiSubstr text pos (some (nl - pos))) = ascii "HPHX1"
    · rw [if_pos hend, if_pos hend]
    rw [if_neg hend, if_neg hend]
    cases strpos [32] (hpStrTrim (hpbiSubstr text pos (some (nl - pos)))) <;> rfl

/-- the loop writes the lines one after the other -/
theorem hpxFiles_run (text : Bytes) (fuel : Nat) (pos : Int) (files : Harr) :
    hpxFiles text fuel pos files = (hpxRun text fuel pos).bind fun es =>
      setAll files (es.map fun e => e.entry text) := by
  induction fuel generalizing pos files with
  | zero => rfl
  | succ fuel ih =>
    rw [hpxFiles_succ, hpxRun]
    cases hpxLine text pos with
    | none => rfl
    | some e =>
      dsimp only
      rw [Option.bind_map]
      cases hr : hpxRun text fuel e.next with
      | none =>
        rw [Option.bind_none, Option.bind_eq_none_iff]
        intro b _
        rw [ih, hr]
        rfl
      | some es =>
        rw [Option.bind_some]
        show _ = Option.bind _ _
        refine Option.bind_congr fun b _ => ?_
        rw [ih, hr]
        rfl

/-- a line that leads back to itself is read for ever -/
theorem hpxFiles_loop (h : hpxLine text pos = some e) (hn : e.next = pos) (fuel : Nat)
    (files : Harr) : hpxFiles text fuel pos files = none := by
  induction fuel generalizing files with
  | zero => rfl
  | succ fuel ih =>
    rw [hpxFiles_succ, h]
    dsimp only
    rw [hn, Option.bind_eq_none_iff]
    exact fun b _ => ih b

/-! ## positions -/

/-- the position behind the entry -/
def hpxNext (text : Bytes) (pos : Int) : Option Int := (hpxLine text pos).map HpxLine.next

theorem hpxRun_mono {m : Nat} (h : hpxRun text fuel pos = some es) (hm : fuel ≤ m) :
    hpxRun text m pos = some es := by
  induction fuel generalizing pos m es with
  | zero => cases h
  | succ fuel ih =>
    obtain ⟨m, rfl⟩ := Nat.exists_eq_add_of_le' (Nat.le_trans (Nat.le_add_left 1 fuel) hm)
    rw [hpxRun] at h ⊢
    cases hl : hpxLine text pos with
    | none =>
      rw [hl] at h
      exact h
    | some e =>
      rw [hl] at h
      obtain ⟨es, hes, rfl⟩ := Option.map_eq_some_iff.mp h
      dsimp only
      rw [ih hes (Nat.le_of_succ_le_succ hm)]
      rfl

/-- however often one may go on, the lines are the same -/
theorem hpxRun_unique {m : Nat} {es' : List HpxLine} (h : hpxRun text fuel pos = some es)
    (h' : hpxRun text m pos = some es') : es = es' := by
  have h1 := hpxRun_mono h (Nat.le_max_left fuel m)
  have h2 := hpxRun_mono h' (Nat.le_max_right fuel m)
  exact Option.some.inj (h1.symm.trans h2)

theorem run_iff_ends :
    (∃ fuel es, hpxRun text fuel pos = some es) ↔
      Ends (hpxNext text) (fun _ => (none : Option Unit)) pos := by
  constructor
  · rintro ⟨fuel, es, h⟩
    induction fuel generalizing pos es with
    | zero => cases h
    | succ fuel ih =>
      rw [hpxRun] at h
      cases hl : hpxLine text pos with
      | none => exact ends_of_last (by rw [hpxNext, hl]; rfl)
      | some e =>
        rw [hl] at h
        obtain ⟨es, hes, -⟩ := Option.map_eq_some_iff.mp h
        exact (ih es hes).head (by rw [hpxNext, hl]; rfl)
  · rintro ⟨n, r, h⟩
    induction n generalizing pos with
    | zero => cases h
    | succ n ih =>
      cases hl : hpxLine text pos with
      | none => exact ⟨1, [], by rw [hpxRun, hl]⟩
      | some e =>
        rw [climb_succ rfl (show hpxNext text pos = some e.next by rw [hpxNext, hl]; rfl)] at h
        obtain ⟨fuel, es, hes⟩ := ih h
        exact ⟨fuel + 1, e :: es, by rw [hpxRun, hl]; dsimp only; rw [hes]; rfl⟩

/-- the names of the lines that the loop comes to -/
def hpxNames (text : Bytes) (pos : Int) : Set Bytes :=
  {name | ∃ p e, ReflTransGen (Next (hpxNext text)) pos p ∧ hpxLine text p = some e ∧ e.name = name}

theorem names_run (h : hpxRun text fuel pos = some es) :
    hpxNames text pos = {name | name ∈ es.map HpxLine.name} := by
  induction fuel generalizing pos es with
  | zero => cases h
  | succ fuel ih =>
    rw [hpxRun] at h
    cases hl : hpxLine text pos with
    | none =>
      rw [hl] at h
      obtain rfl := Option.some.inj h
      ext name
      refine ⟨?_, fun h => nomatch h⟩
      rintro ⟨p, e, hp, he, -⟩
      rcases ReflTransGen.cases_head hp with rfl | ⟨q, hq, -⟩
      · rw [hl] at he
        cases he
      · rw [Next, hpxNext, hl] at hq
        cases hq
    | some e =>
      rw [hl] at h
      obtain ⟨es, hes, rfl⟩ := Option.map_eq_some_iff.mp h
      have hnext : Next (hpxNext text) pos e.next := by
        rw [Next, hpxNext, hl]
        rfl
      have hrest := Set.ext_iff.mp (ih hes)
      ext name
      show _ ↔ name ∈ (e :: es).map HpxLine.name
      rw [List.map_cons, List.mem_cons]
      constructor
      · rintro ⟨p, e', hp, he', rfl⟩
        rcases ReflTransGen.cases_head hp with rfl | ⟨q, hq, hqp⟩
        · rw [hl] at he'
          exact .inl (Option.some.inj he' ▸ rfl)
        · obtain rfl := Option.some.inj (hnext.symm.trans hq)
          exact .inr ((hrest _).mp ⟨p, e', hqp, he', rfl⟩)
      · rintro (rfl | hm)
        · exact ⟨pos, e, .refl, hl, rfl⟩
        · obtain ⟨p, e', hp, he', hn⟩ := (hrest name).mpr hm
          exact ⟨p, e', .head hnext hp, he', hn⟩

theorem positions_finite (text : Bytes) :
    {p | ReflTransGen (Next (hpxNext text)) 0 p}.Finite := by
  apply (Finset.Icc (-2 ^ 63 : Int) (2 ^ 63)).finite_toSet.subset
  intro p hp
  rw [Finset.mem_coe, Finset.mem_Icc]
  rcases ReflTransGen.cases_tail hp with rfl | ⟨q, -, hq⟩
  · exact ⟨by decide, by decide⟩
  · obtain ⟨e, -, rfl⟩ := Option.map_eq_some_iff.mp hq
    have h1 : -(((2 ^ 64 : Nat) : Int) / 2) ≤ wrap64 (e.body + e.size) := Int.le_bmod (by decide)
    have h2 : wrap64 (e.body + e.size) < (((2 ^ 64 : Nat) : Int) + 1) / 2 :=
      Int.bmod_lt (by decide)
    show _ ≤ wrap64 (e.body + e.size) ∧ wrap64 (e.body + e.size) ≤ _
    omega

/-! ## the array -/

/-- the array `$files` for these names and contents -/
structure Holds (junk : Nat → Val) (a : Harr) (l : List (Bytes × Bytes)) : Prop where
  entries : a.entries = l.map strPair
  filled : Filled a ∨ l = [] ∧ a = hpArrNew junk

variable {junk : Nat → Val} {a b : Harr} {l : List (Bytes × Bytes)} {name c : Bytes}

theorem Holds.new (junk : Nat → Val) : Holds junk (hpArrNew junk) [] := ⟨rfl, .inr ⟨rfl, rfl⟩⟩

/-- the first name makes the array a map -/
theorem set_first (junk : Nat → Val) (s : Option Bytes) (v : Val) :
    hpArrSet (hpArrNew junk) (.str s) v = hpArrSet (emptyMap junk) (.str s) v := rfl

theorem map_strPair (l : List (Bytes × Bytes)) :
    l.map strPair = l.map (Prod.map (fun n => .str (some n)) fun c => .str (some c)) := rfl

theorem scan_none (h : a.entries = l.map strPair) (hn : a.scan (.str (some name)) = none) :
    name ∉ l.map Prod.fst := by
  intro hm
  obtain ⟨p, hp, rfl⟩ := List.mem_map.mp hm
  have hmem : strPair p ∈ a.entries := h ▸ List.mem_map_of_mem hp
  obtain ⟨i, hi, he⟩ := List.mem_map.mp hmem
  have hkey : a.key i = .str (some p.1) := congrArg Prod.fst he
  exact List.find?_eq_none.mp hn i hi (keyEq_iff.mpr ⟨hkey, rfl⟩)

theorem length_of_entries (h : a.entries = l.map strPair) : a.len = l.length := by
  rw [← length_entries, h, List.length_map]

theorem entries_assign (h : a.entries = l.map strPair) :
    assign a.entries (.str (some name)) (.str (some c)) = (assign l name c).map strPair := by
  rw [h, map_strPair, map_strPair, assign_map]
  intro s t hst
  exact Option.some.inj (HVal.str.inj hst)

/-- **One write.** -/
theorem Holds.set (h : Holds junk a l) (hlen : (assign l name c).length < full) :
    ∃ b, hpArrSet a (.str (some name)) (.str (some c)) = some b ∧
      Holds junk b (assign l name c) := by
  have hset : ∀ a : Harr, Filled a → a.entries = l.map strPair →
      ∃ b, hpArrSet a (.str (some name)) (.str (some c)) = some b ∧
        Holds junk b (assign l name c) := by
    intro a hf he
    obtain ⟨b, hb, hfb, hbe⟩ := hf.set (k := .str (some name)) (v := .str (some c)) rfl (by simp)
      fun hs => by
        have hnew := congrArg List.length (keys_assign_new (v := c) (scan_none he hs))
        rw [List.length_map, List.length_append, List.length_map] at hnew
        rw [length_of_entries he]
        exact hnew ▸ hlen
    exact ⟨b, hb, hbe.trans (entries_assign he), .inl hfb⟩
  rcases h.filled with hf | ⟨rfl, rfl⟩
  · exact hset a hf h.entries
  · rw [set_first]
    exact hset (emptyMap junk) (emptyMap_filled junk) rfl

theorem Holds.set_full (h : Holds junk a l) (hl : l.length < full)
    (hlen : ¬ (assign l name c).length < full) :
    hpArrSet a (.str (some name)) (.str (some c)) = none := by
  have hle := length_assign_le l name c
  rcases h.filled with hf | ⟨rfl, -⟩
  · refine hf.set_full rfl ?_ ?_
    · by_contra hs
      obtain ⟨i, hi⟩ := Option.ne_none_iff_exists'.mp hs
      obtain ⟨hlt, hkey⟩ := scan_some hi
      have hmem : (a.key i, a.vals i) ∈ l.map strPair :=
        h.entries ▸ List.mem_map.mpr ⟨i, List.mem_range.mpr hlt, rfl⟩
      obtain ⟨p, hp, he⟩ := List.mem_map.mp hmem
      have hname : p.1 = name := by
        have := (congrArg Prod.fst he).trans hkey
        exact Option.some.inj (HVal.str.inj this)
      rw [length_assign_mem ⟨p, hp, hname⟩] at hlen
      exact hlen hl
    · rw [length_of_entries h.entries]
      omega
  · exact absurd (show 1 < full by decide) hlen

/-- **All writes** succeed if and only if the array can take the names. -/
theorem Holds.setAll_iff {es : List (Bytes × Bytes)} (h : Holds junk a l) (hl : l.length < full) :
    (∃ b, setAll a es = some b) ↔ (assignAll l es).length < full := by
  induction es generalizing a l with
  | nil => exact iff_of_true ⟨a, rfl⟩ hl
  | cons e es ih =>
    rw [assignAll_cons]
    by_cases hlen : (assign l e.1 e.2).length < full
    · obtain ⟨b, hb, hh⟩ := h.set hlen
      rw [← ih hh hlen, setAll]
      show (∃ c, Option.bind (hpArrSet a (.str (some e.1)) (.str (some e.2))) _ = some c) ↔ _
      rw [hb]
      rfl
    · refine iff_of_false ?_ fun h' => hlen (Nat.lt_of_le_of_lt (length_le_assignAll _ es) h')
      rintro ⟨b, hb⟩
      have hs := h.set_full hl hlen
      rw [setAll] at hb
      obtain ⟨b', hb', -⟩ := Option.bind_eq_some_iff.mp hb
      rw [strPair, hs] at hb'
      cases hb'

theorem Holds.of_setAll {es : List (Bytes × Bytes)} (h : Holds junk a l) (hl : l.length < full)
    (hb : setAll a es = some b) : Holds junk b (assignAll l es) := by
  have hall := (h.setAll_iff hl).mp ⟨b, hb⟩
  induction es generalizing a l with
  | nil => exact Option.some.inj hb ▸ h
  | cons e es ih =>
    rw [assignAll_cons] at hall ⊢
    have hlen := Nat.lt_of_le_of_lt (length_le_assignAll (assign l e.1 e.2) es) hall
    obtain ⟨a', ha', hh⟩ := h.set hlen
    rw [setAll] at hb
    obtain ⟨a'', ha'', hrest⟩ := Option.bind_eq_some_iff.mp hb
    obtain rfl := Option.some.inj (ha'.symm.trans ha'')
    exact ih hh hlen hrest hall

/-! ## the end of the loop -/

/-- `hpx_files` returns -/
def HpxEnds (junk : Nat → Val) (text : Bytes) : Prop :=
  ∃ fuel files, hpxFiles text fuel 0 (hpArrNew junk) = some files

/-- **Where the loop ends.** -/
theorem hpxEnds_iff : HpxEnds junk text ↔
    (∀ p, ReflTransGen (Next (hpxNext text)) 0 p → ¬ TransGen (Next (hpxNext text)) p p) ∧
      (hpxNames text 0).ncard < full := by
  rw [← ends_iff_acyclic (β := Unit) (positions_finite text), ← run_iff_ends]
  have hcount : ∀ fuel es, hpxRun text fuel 0 = some es → ((hpxNames text 0).ncard < full ↔
      ∃ b, setAll (hpArrNew junk) (es.map fun e => e.entry text) = some b) := by
    intro fuel es hes
    rw [(Holds.new junk).setAll_iff (by decide)]
    have hset : hpxNames text 0 =
        ((assignAll [] (es.map fun e => e.entry text)).map Prod.fst).toFinset := by
      ext name
      rw [names_run hes, List.coe_toFinset, Set.mem_ofPred_eq, Set.mem_ofPred_eq,
        mem_keys_assignAll, List.map_map]
      exact ⟨.inr, fun h => h.resolve_left fun h => nomatch h⟩
    have hnodup := nodup_assignAll (l := []) List.nodup_nil (es.map fun e => e.entry text)
    rw [hset, Set.ncard_coe_finset, List.toFinset_card_of_nodup hnodup, List.length_map]
  constructor
  · rintro ⟨fuel, files, h⟩
    rw [hpxFiles_run] at h
    obtain ⟨es, hes, hb⟩ := Option.bind_eq_some_iff.mp h
    exact ⟨⟨fuel, es, hes⟩, (hcount fuel es hes).mpr ⟨files, hb⟩⟩
  · rintro ⟨⟨fuel, es, hes⟩, hlen⟩
    obtain ⟨files, hb⟩ := (hcount fuel es hes).mp hlen
    refine ⟨fuel, files, ?_⟩
    rw [hpxFiles_run, hes]
    exact hb

end

end Package
end HolyPhp
