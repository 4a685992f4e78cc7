import HolyPhp.Lib.Runs
import HolyPhp.Package.RegistryJson
import Mathlib.Data.List.Nodup

/-!
# The registry over sequences of calls

A `Registry` is the file beside the finite map that it stands for.

* `Represents r m`   the entries `r` are the pairs of the map `m`, every name once;
* `good_step`        after a call, from a file that is read as it should be: the file is JSON and is
                     read as the new map if and only if its entries are readable, its commas right
                     and the versions JSON;
* `represents_iff`   **the file is read as the map after every call if and only if what is written is
                     readable at every call**;
* `registry_iff`     **it is JSON too if and only if every call meets `Single`**: no other package is
                     installed when one is added.
-/

namespace HolyPhp
namespace Package

/-! ## calls -/

structure PkgName where
  text : Bytes
  ok : pkgNameOk text = true

/-- a C string -/
structure CStr where
  bytes : Bytes
  noNul : 0 ∉ bytes

inductive Op where
  | add (name : PkgName) (version : CStr)
  | remove (name : PkgName)

/-- the file, and the finite map of the calls so far -/
structure Registry where
  file : Option Bytes
  map : Bytes → Option Bytes

namespace Registry

/-- no file -/
def start : Registry := ⟨none, fun _ => none⟩

def step (s : Registry) : Op → Registry
  | .add n v => ⟨some (pkgRegistryAdd s.file n.text v.bytes),
      Function.update s.map n.text (some v.bytes)⟩
  | .remove n => ⟨some (pkgRegistryRemove s.file n.text), Function.update s.map n.text none⟩

def run (ops : List Op) : Registry := ops.foldl step start

end Registry

/-! ## what is asked of the file -/

structure Represents (r : List InstalledPkg) (m : Bytes → Option Bytes) : Prop where
  nodup : (r.map InstalledPkg.name).Nodup
  mem : ∀ e, e ∈ r ↔ m e.name = some e.version

/-- the file is read as the map, and it is JSON -/
structure Good (s : Registry) : Prop where
  reads : Represents (pkgRegistryRead s.file) s.map
  json : ∀ d, s.file = some d → JsonArray d

/-! ## what a call writes -/

/-- the lines of the file after a call, from the entries that are read before -/
def written (l : List InstalledPkg) : Op → List (InstalledPkg × Bool)
  | .add n v => addLines l n.text v.bytes
  | .remove n => removeLines l n.text

section
variable {s : Registry} {l r : List InstalledPkg} {m : Bytes → Option Bytes} {op : Op}
  {e : InstalledPkg} {name version : Bytes}

theorem step_file (s : Registry) (op : Op) :
    (s.step op).file = some (fileText (written (pkgRegistryRead s.file) op)) := by
  cases op <;> rfl

/-- in place, or at the end -/
theorem addLines_fst (l : List InstalledPkg) (name version : Bytes) :
    (addLines l name version).map Prod.fst =
      (l.map fun e => if e.name = name then ⟨e.name, version⟩ else e) ++
        if l.any (fun e => e.name = name) then [] else [⟨name, version⟩] := by
  have hidx : ∀ (f : InstalledPkg → InstalledPkg) (b : Nat → Bool),
      (l.mapIdx fun i e => (f e, b i)).map Prod.fst = l.map f := by
    intro f b
    apply List.ext_getElem?
    intro i
    rw [List.getElem?_map, List.getElem?_mapIdx, List.getElem?_map, Option.map_map]
    rfl
  rw [addLines, List.map_append, hidx]
  congr 1
  split <;> rfl

theorem removeLines_fst (l : List InstalledPkg) (name : Bytes) :
    (removeLines l name).map Prod.fst = l.filter fun e => e.name ≠ name := by
  rw [removeLines]
  apply List.ext_getElem?
  intro i
  rw [List.getElem?_map, List.getElem?_mapIdx, Option.map_map]
  exact Option.map_id'

theorem any_name : l.any (fun e => e.name = name) = true ↔ name ∈ l.map InstalledPkg.name := by
  rw [List.any_eq_true, List.mem_map]
  simp only [decide_eq_true_eq]

/-- the entry after an upgrade of the package -/
def upgrade (name version : Bytes) (e : InstalledPkg) : InstalledPkg :=
  if e.name = name then ⟨e.name, version⟩ else e

theorem upgrade_name (name version : Bytes) (e : InstalledPkg) :
    (upgrade name version e).name = e.name := by
  rw [upgrade]
  split <;> rfl

theorem upgrade_self (h : e.name = name) : upgrade name version e = ⟨name, version⟩ := by
  rw [upgrade, if_pos h, h]

theorem upgrade_ne (h : e.name ≠ name) : upgrade name version e = e := if_neg h

theorem addLines_old (h : name ∈ l.map InstalledPkg.name) :
    (addLines l name version).map Prod.fst = l.map (upgrade name version) := by
  rw [addLines_fst, if_pos (any_name.2 h), List.append_nil]
  rfl

theorem addLines_new (h : name ∉ l.map InstalledPkg.name) :
    (addLines l name version).map Prod.fst = l ++ [⟨name, version⟩] := by
  rw [addLines_fst, if_neg fun h' => h (any_name.1 h')]
  congr 1
  have hid : ∀ e ∈ l, upgrade name version e = e := fun e he =>
    upgrade_ne fun hn => h (hn ▸ List.mem_map_of_mem he)
  exact (List.map_congr_left hid).trans (List.map_id l)

theorem addLines_represents (h : Represents l m) (name version : Bytes) :
    Represents ((addLines l name version).map Prod.fst)
      (Function.update m name (some version)) := by
  by_cases hn : name ∈ l.map InstalledPkg.name
  · rw [addLines_old hn]
    refine ⟨?_, fun e => ?_⟩
    · rw [List.map_map]
      have hnames : InstalledPkg.name ∘ upgrade name version = InstalledPkg.name := by
        funext e
        exact upgrade_name name version e
      rw [hnames]
      exact h.nodup
    · rw [List.mem_map]
      by_cases he : e.name = name
      · rw [he, Function.update_self, Option.some.injEq]
        constructor
        · rintro ⟨x, _, rfl⟩
          rw [upgrade_name] at he
          rw [upgrade_self he]
        · intro hv
          obtain ⟨x, hx, hxn⟩ := List.mem_map.1 hn
          refine ⟨x, hx, ?_⟩
          rw [upgrade_self hxn, ← he, hv]
      · rw [Function.update_of_ne he, ← h.mem]
        constructor
        · rintro ⟨x, hx, rfl⟩
          rw [upgrade_name] at he
          rwa [upgrade_ne he]
        · exact fun hmem => ⟨e, hmem, upgrade_ne he⟩
  · rw [addLines_new hn]
    refine ⟨?_, fun e => ?_⟩
    · rw [List.map_append, List.nodup_append]
      refine ⟨h.nodup, List.nodup_singleton _, fun a ha b hb => ?_⟩
      rw [List.mem_singleton.1 hb]
      rintro rfl
      exact hn ha
    · rw [List.mem_append, List.mem_singleton]
      by_cases he : e.name = name
      · rw [he, Function.update_self, Option.some.injEq]
        constructor
        · rintro (hmem | rfl)
          · exact absurd (he ▸ List.mem_map_of_mem hmem) hn
          · rfl
        · intro hv
          right
          rw [hv, ← he]
      · rw [Function.update_of_ne he, ← h.mem]
        refine ⟨fun hmem => hmem.resolve_right ?_, .inl⟩
        rintro rfl
        exact he rfl

theorem removeLines_represents (h : Represents l m) (name : Bytes) :
    Represents ((removeLines l name).map Prod.fst) (Function.update m name none) := by
  rw [removeLines_fst]
  refine ⟨h.nodup.sublist (List.filter_sublist.map InstalledPkg.name), fun e => ?_⟩
  rw [List.mem_filter, decide_eq_true_eq]
  by_cases he : e.name = name
  · rw [he, Function.update_self]
    exact ⟨fun hmem => absurd rfl hmem.2, fun hmem => by cases hmem⟩
  · rw [Function.update_of_ne he, ← h.mem]
    exact ⟨fun hmem => hmem.1, fun hmem => ⟨hmem, he⟩⟩

/-- what is written stands for the map after the call -/
theorem written_represents (h : Represents l s.map) (op : Op) :
    Represents ((written l op).map Prod.fst) (s.step op).map := by
  cases op with
  | add n v => exact addLines_represents h n.text v.bytes
  | remove n => exact removeLines_represents h n.text

theorem written_ok (h : ∀ e ∈ l, EntryOk e) (op : Op) : ∀ p ∈ written l op, EntryOk p.1 := by
  intro p hp
  have hfst : p.1 ∈ (written l op).map Prod.fst := List.mem_map_of_mem hp
  cases op with
  | add n v =>
    have hnew : EntryOk ⟨n.text, v.bytes⟩ := ⟨n.ok, v.noNul⟩
    rw [written, addLines_fst, List.mem_append, List.mem_map] at hfst
    rcases hfst with ⟨x, hx, hxp⟩ | hfst
    · rw [← hxp]
      split
      · next hn => exact hn ▸ hnew
      · exact h x hx
    · split at hfst
      · cases hfst
      · rw [List.mem_singleton.1 hfst]
        exact hnew
  | remove n =>
    rw [written, removeLines_fst] at hfst
    exact h _ (List.mem_filter.1 hfst).1

/-! ## one call -/

theorem Represents.same (h : Represents r m) (hl : Represents l m) : Same r l :=
  ⟨h.nodup, fun e => (h.mem e).trans (hl.mem e).symm⟩

/-- after a call from entries that stand for the map -/
theorem reads_step (hl : Represents (pkgRegistryRead s.file) s.map)
    (hok : ∀ e ∈ pkgRegistryRead s.file, EntryOk e) :
    Represents (pkgRegistryRead (s.step op).file) (s.step op).map ↔
      Readable ((written (pkgRegistryRead s.file) op).map Prod.fst) := by
  have hw := written_ok hok op
  have hrep := written_represents hl op
  rw [step_file, pkgRegistryRead_fileText hw]
  constructor
  · intro h
    exact readable_of_same hw hrep.nodup (h.same hrep)
  · intro h
    rw [readFrom_lines hw h]
    exact hrep

theorem read_step (hok : ∀ e ∈ pkgRegistryRead s.file, EntryOk e)
    (h : Readable ((written (pkgRegistryRead s.file) op).map Prod.fst)) :
    pkgRegistryRead (s.step op).file = (written (pkgRegistryRead s.file) op).map Prod.fst := by
  have hw := written_ok hok op
  rw [step_file, pkgRegistryRead_fileText hw, readFrom_lines hw h]

theorem Readable.clean (h : Readable l) (he : e ∈ l) : 34 ∉ e.version ∧ 92 ∉ e.version := by
  induction l with
  | nil => cases he
  | cons a l ih =>
    rcases List.mem_cons.1 he with rfl | he
    · exact h.1
    · exact ih h.2.2.2 he

theorem good_step (hl : Represents (pkgRegistryRead s.file) s.map)
    (hok : ∀ e ∈ pkgRegistryRead s.file, EntryOk e) :
    Good (s.step op) ↔ Readable ((written (pkgRegistryRead s.file) op).map Prod.fst) ∧
      Commas (written (pkgRegistryRead s.file) op) ∧
      ∀ p ∈ written (pkgRegistryRead s.file) op, Plain p.1.version := by
  have hw := written_ok hok op
  have hjson : Readable ((written (pkgRegistryRead s.file) op).map Prod.fst) →
      (JsonArray (fileText (written (pkgRegistryRead s.file) op)) ↔
        Commas (written (pkgRegistryRead s.file) op) ∧
          ∀ p ∈ written (pkgRegistryRead s.file) op, Plain p.1.version) := fun hr =>
    jsonArray_lines (fun p hp => (hw p hp).name) fun p hp => hr.clean (List.mem_map_of_mem hp)
  constructor
  · intro h
    have hr := (reads_step hl hok).1 h.reads
    exact ⟨hr, (hjson hr).1 (h.json _ (step_file s op))⟩
  · intro h
    refine ⟨(reads_step hl hok).2 h.1, fun d hd => ?_⟩
    rw [step_file] at hd
    rw [← Option.some.inj hd]
    exact (hjson h.1).2 h.2

end

/-! ## all calls, without the form of the file -/

/-- the file is read as the map, and its entries come from names and C strings -/
structure Reading (s : Registry) : Prop where
  reads : Represents (pkgRegistryRead s.file) s.map
  ok : ∀ e ∈ pkgRegistryRead s.file, EntryOk e

section
variable {s : Registry} {l : List InstalledPkg} {op : Op} {ops : List Op} {e : InstalledPkg}
  {v : Bytes}

theorem read_start : pkgRegistryRead Registry.start.file = [] := readFrom_none rfl

theorem reads_start : Represents (pkgRegistryRead Registry.start.file) Registry.start.map := by
  rw [read_start]
  refine ⟨List.nodup_nil, fun e => ⟨fun h => ?_, fun h => ?_⟩⟩
  · cases h
  · cases h

theorem Reading.start : Reading Registry.start := by
  refine ⟨reads_start, fun e he => ?_⟩
  rw [read_start] at he
  cases he

theorem Reading.step (h : Reading s)
    (hr : Represents (pkgRegistryRead (s.step op).file) (s.step op).map) :
    Reading (s.step op) := by
  refine ⟨hr, fun e he => ?_⟩
  rw [read_step h.ok ((reads_step h.reads h.ok).1 hr)] at he
  obtain ⟨p, hp, rfl⟩ := List.mem_map.1 he
  exact written_ok h.ok op p hp

/-- the file is read as the map after every call if and only if every call writes readable
entries -/
theorem represents_iff (ops : List Op) :
    (∀ p, p <+: ops →
      Represents (pkgRegistryRead (Registry.run p).file) (Registry.run p).map) ↔
    ∀ p op, p ++ [op] <+: ops →
      Readable ((written (pkgRegistryRead (Registry.run p).file) op).map Prod.fst) :=
  Runs.foldl_iff (I := Reading)
    (G := fun s : Registry => Represents (pkgRegistryRead s.file) s.map)
    Reading.start reads_start (fun _ _ => Reading.step) fun _ _ h => reads_step h.reads h.ok

/-! ## all calls -/

/-- the condition for a call when these packages are installed: no other one is when a package is
added, and its version is the inside of a JSON string without escapes, and empty if the package is
called `version` -/
def Single (m : Bytes → Option Bytes) : Op → Prop
  | .add n v => (∀ k, m k ≠ none → k = n.text) ∧ Plain v.bytes ∧
      (n.text = versionKey → v.bytes = [])
  | .remove _ => True

/-- at most one package is installed, and nothing is wrong with it -/
structure AtMostOne (s : Registry) : Prop where
  reading : Reading s
  length : (pkgRegistryRead s.file).length ≤ 1
  readable : Readable (pkgRegistryRead s.file)
  plain : ∀ e ∈ pkgRegistryRead s.file, Plain e.version

theorem Plain.quote (h : Plain v) : 34 ∉ v := by
  obtain ⟨h92, t, ht, rfl⟩ := h
  intro h34
  induction ht with
  | nil => cases h34
  | @char c t h32 hq hb _ ih =>
    rw [Json.chars, List.flatMap_append, List.flatMap_map] at h34 h92
    rw [List.mem_append] at h34 h92
    rcases h34 with h34 | h34
    · obtain ⟨b, hb', h⟩ := List.mem_flatMap.1 h34
      exact (Json.utf8_plain h32 hq hb hb').2.1 (List.mem_singleton.1 h).symm
    · exact ih (fun h => h92 (.inr h)) h34
  | esc _ _ => exact h92 List.mem_cons_self
  | hex _ _ => exact h92 List.mem_cons_self

theorem readable_single : Readable [e] ∧ Plain e.version ↔
    Plain e.version ∧ (e.name = versionKey → e.version = []) := by
  constructor
  · intro h
    exact ⟨h.2, h.1.2.1⟩
  · intro h
    exact ⟨⟨⟨h.1.quote, h.1.1⟩, h.2, fun hne => absurd rfl hne, trivial⟩, h.1⟩

/-- a file with at most one entry -/
theorem good_single (p : InstalledPkg × Bool) :
    (Readable ([p].map Prod.fst) ∧ Commas [p] ∧ ∀ q ∈ [p], Plain q.1.version) ↔
      p.2 = false ∧ Plain p.1.version ∧ (p.1.name = versionKey → p.1.version = []) := by
  rw [← readable_single]
  constructor
  · intro h
    exact ⟨h.2.1, h.1, h.2.2 p List.mem_cons_self⟩
  · intro h
    refine ⟨h.2.1, h.1, fun q hq => ?_⟩
    rw [List.mem_singleton.1 hq]
    exact h.2.2

theorem good_nil : (Readable (([] : List (InstalledPkg × Bool)).map Prod.fst) ∧
    Commas [] ∧ ∀ q ∈ ([] : List (InstalledPkg × Bool)), Plain q.1.version) ↔ True :=
  ⟨fun _ => trivial, fun _ => ⟨trivial, trivial, fun _ h => nomatch h⟩⟩

theorem good_iff (h : AtMostOne s) (op : Op) : Good (s.step op) ↔ Single s.map op := by
  rw [good_step h.reading.reads h.reading.ok]
  have hmem := h.reading.reads.mem
  have hlen := h.length
  have hr := h.readable
  have hp := h.plain
  revert hmem hlen hr hp
  generalize pkgRegistryRead s.file = l
  intro hmem hlen hr hp
  match l with
  | [] =>
    cases op with
    | add n v =>
      have hw : written [] (.add n v) = [(⟨n.text, v.bytes⟩, false)] := rfl
      rw [hw, good_single]
      constructor
      · intro hg
        refine ⟨fun k hk => ?_, hg.2⟩
        cases hv : s.map k with
        | none => exact absurd hv hk
        | some w => exact absurd ((hmem ⟨k, w⟩).2 hv) List.not_mem_nil
      · intro hs
        exact ⟨rfl, hs.2⟩
    | remove n =>
      have hw : written [] (.remove n) = [] := rfl
      rw [hw, good_nil]
      rfl
  | [e] =>
    have hemap : s.map e.name = some e.version := (hmem e).1 List.mem_cons_self
    cases op with
    | add n v =>
      by_cases hn : e.name = n.text
      · have hw : written [e] (.add n v) = [(⟨n.text, v.bytes⟩, false)] := by
          show addLines [e] n.text v.bytes = _
          simp [addLines, hn]
        rw [hw, good_single]
        constructor
        · intro hg
          refine ⟨fun k hk => ?_, hg.2⟩
          cases hv : s.map k with
          | none => exact absurd hv hk
          | some w =>
            have hk' := List.mem_singleton.1 ((hmem ⟨k, w⟩).2 hv)
            rw [← hn, ← hk']
        · intro hs
          exact ⟨rfl, hs.2⟩
      · -- two entries, without a comma between them
        have hw : written [e] (.add n v) = [(e, false), (⟨n.text, v.bytes⟩, true)] := by
          show addLines [e] n.text v.bytes = _
          simp [addLines, hn]
        rw [hw]
        constructor
        · intro hg
          exact absurd hg.2.1.1 Bool.false_ne_true
        · intro hs
          have hne : s.map e.name ≠ none := by
            rw [hemap]
            exact Option.some_ne_none _
          exact absurd (hs.1 e.name hne) hn
    | remove n =>
      refine ⟨fun _ => trivial, fun _ => ?_⟩
      by_cases hn : e.name = n.text
      · have hw : written [e] (.remove n) = [] := by
          show removeLines [e] n.text = _
          simp [removeLines, hn]
        rw [hw]
        exact good_nil.2 trivial
      · have hw : written [e] (.remove n) = [(e, false)] := by
          show removeLines [e] n.text = _
          simp [removeLines, hn]
        rw [hw, good_single]
        exact ⟨rfl, hp e List.mem_cons_self, hr.2.1⟩
  | _ :: _ :: _ =>
    simp at hlen

theorem length_le_one {n : Bytes} (hl : (l.map InstalledPkg.name).Nodup)
    (h : ∀ e ∈ l, e.name = n) : l.length ≤ 1 := by
  match l with
  | [] => exact Nat.zero_le 1
  | [_] => exact Nat.le_refl 1
  | a :: b :: l =>
    have ha := h a List.mem_cons_self
    have hb := h b (List.mem_cons_of_mem a List.mem_cons_self)
    exact absurd (hb.trans ha.symm ▸ List.mem_cons_self) (List.nodup_cons.1 hl).1

theorem AtMostOne.start : AtMostOne Registry.start where
  reading := Reading.start
  length := by
    rw [read_start]
    exact Nat.zero_le 1
  readable := by
    rw [read_start]
    exact trivial
  plain := by
    rw [read_start]
    intro e he
    cases he

theorem AtMostOne.step (h : AtMostOne s) (hg : Good (s.step op)) : AtMostOne (s.step op) := by
  have hsingle := (good_iff h op).1 hg
  obtain ⟨hr, _, hp⟩ := (good_step h.reading.reads h.reading.ok).1 hg
  have hread := read_step h.reading.ok hr
  refine ⟨h.reading.step hg.reads, ?_, ?_, fun e he => ?_⟩
  · cases op with
    | add n v =>
      apply length_le_one (n := n.text) hg.reads.nodup
      intro e he
      have hmap := (hg.reads.mem e).1 he
      by_contra hne
      have hold : s.map e.name = some e.version := (Function.update_of_ne hne _ _).symm.trans hmap
      apply hne
      apply hsingle.1
      rw [hold]
      exact Option.some_ne_none _
    | remove n =>
      have hfst := removeLines_fst (pkgRegistryRead s.file) n.text
      rw [hread, written, hfst]
      exact Nat.le_trans (List.length_filter_le _ _) h.length
  · rw [hread]
    exact hr
  · rw [hread] at he
    obtain ⟨p, hp', rfl⟩ := List.mem_map.1 he
    exact hp p hp'

theorem good_start : Good Registry.start :=
  ⟨reads_start, fun _ hd => nomatch hd⟩

/-- the registry file is JSON and is read as the finite map after every call if and only if every
call meets the condition -/
theorem registry_iff (ops : List Op) :
    (∀ p, p <+: ops → Good (Registry.run p)) ↔
      ∀ p op, p ++ [op] <+: ops → Single (Registry.run p).map op :=
  Runs.foldl_iff (I := AtMostOne) AtMostOne.start good_start (fun _ _ => AtMostOne.step)
    fun _ op h => good_iff h op

end

/-! ## two packages -/

def onePackage : Op := .add ⟨ascii "a", by decide⟩ ⟨ascii "1", by decide⟩

def otherPackage : Op := .add ⟨ascii "b", by decide⟩ ⟨ascii "1", by decide⟩

/-- two packages are written without a comma between them, and one behind the second -/
theorem registry_not_good : ¬ ∀ p, p <+: [onePackage, otherPackage] → Good (Registry.run p) := by
  intro h
  have hfirst : Good (Registry.start.step onePackage) := h [onePackage] ⟨[otherPackage], rfl⟩
  have hsecond : Good ((Registry.start.step onePackage).step otherPackage) :=
    h _ (List.prefix_refl _)
  have hsingle := (good_iff (AtMostOne.start.step hfirst) otherPackage).1 hsecond
  have hmap : (Registry.start.step onePackage).map =
      Function.update (fun _ => none) (ascii "a") (some (ascii "1")) := rfl
  have hne : (Registry.start.step onePackage).map (ascii "a") ≠ none := by
    rw [hmap, Function.update_self]
    exact Option.some_ne_none _
  exact absurd (hsingle.1 _ hne) (by decide)

end Package
end HolyPhp
