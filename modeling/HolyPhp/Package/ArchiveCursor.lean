import HolyPhp.Lib.Runs
import HolyPhp.Package.Archive

/-!
# The cursor in an archive

The file is `n` bytes of memory from an address on.  The cursor is an address: behind an entry it
is moved by the size that its line says, modulo 2^64, so it may be moved anywhere.

* `Buffer`      memory with a file in it that does not reach the end of the addresses;
* `entryAt`     the line at the cursor;
* `extracting`, `listing`  the loops of `pkg_extract` and `pkg_list_entries`; the label says whether
                `write_all` succeeds;
* `Within`, `NoWrap`  the conditions on the entry at the cursor: it ends in the file, or not behind
                the end of the addresses;
* `archive_safe`  **where no entry goes around, the loops end, the cursor stays in the file, and
                what is written comes from the file and goes below the destination.**
-/

set_option autoImplicit false

namespace HolyPhp
namespace Package
open Posix hiding Bytes
open Json hiding Bytes
open Substr Runs

/-! ## the memory -/

structure Buffer where
  start : Nat
  n : Nat
  mem : Nat → UInt8
  fits : start + n < 2 ^ 64

namespace Buffer

/-- `end` -/
def fin (b : Buffer) : Nat := b.start + b.n

/-- the bytes from the cursor to the end -/
def text (b : Buffer) (p : Nat) : Bytes := (List.range (b.fin - p)).map fun i => b.mem (p + i)

theorem text_length (b : Buffer) (p : Nat) : (b.text p).length = b.fin - p := by
  rw [text, List.length_map, List.length_range]

end Buffer

/-- a line: the name, the size it says, and the address behind it -/
structure Entry where
  name : Bytes
  size : Nat
  body : Nat
  deriving DecidableEq

/-- the line at `p`; `none` is one that ends the loop -/
def entryAt (b : Buffer) (p : Nat) : Option Entry :=
  match (b.text p).dropWhile fun c => c ≠ 10 with
  | [] => none
  | _ :: _ =>
    let line := (b.text p).takeWhile fun c => c ≠ 10
    if 1024 ≤ line.length then none
    else
      let hdr := line.takeWhile fun c => c ≠ 0
      if hdr = ascii "HPHX1" then none
      else match hdr.dropWhile fun c => c ≠ 32 with
        | [] => none
        | _ :: num => some ⟨hdr.takeWhile fun c => c ≠ 32, strtoull num, p + line.length + 1⟩

/-- `p + sz` -/
def Entry.next (e : Entry) : Nat := (e.body + e.size) % 2 ^ 64

/-! ## the loops -/

/-- `write_all(path, src, size)` -/
structure Write where
  path : Bytes
  src : Nat
  size : Nat
  deriving DecidableEq

structure Extract where
  p : Nat
  writes : List Write
  failed : Bool
  deriving DecidableEq

structure Listing where
  p : Nat
  names : List Bytes
  deriving DecidableEq

section
variable (b : Buffer) (destdir : Bytes)

/-- a round of `pkg_extract`; the process ends where a file cannot be written -/
def extractNext (s : Extract) (written : Bool) : Option Extract :=
  if s.failed then none
  else (entryAt b s.p).bind fun e =>
    if b.fin < e.next then none
    else if e.name.head? = some 47 || hasDots e.name then some { s with p := e.next }
    else some ⟨e.next, s.writes ++ [⟨destdir ++ 47 :: e.name, e.body, e.size⟩], !written⟩

def extracting : Sys Extract Bool := ⟨fun s => s = ⟨b.start, [], false⟩, extractNext b destdir⟩

/-- a round of `pkg_list_entries` -/
def listNext (s : Listing) : Option Listing :=
  (entryAt b s.p).map fun e => ⟨e.next, s.names ++ [e.name]⟩

def listing : Sys Listing Unit := ⟨fun s => s = ⟨b.start, []⟩, fun s _ => listNext b s⟩

/-! ## what is asked of them -/

/-- the entry at the cursor does not end behind the end of the addresses -/
def NoWrap (p : Nat) : Prop := ∀ e, entryAt b p = some e → e.body + e.size < 2 ^ 64

/-- the entry at the cursor ends in the file -/
def Within (p : Nat) : Prop := ∀ e, entryAt b p = some e → e.body + e.size ≤ b.fin

def Inside (p : Nat) : Prop := b.start ≤ p ∧ p ≤ b.fin

/-- the bytes are in the file, and the path is `destdir/name` with `name` relative and without a
component `..` -/
structure SafeWrite (w : Write) : Prop where
  src : b.start ≤ w.src
  fin : w.src + w.size ≤ b.fin
  path : ∃ name, w.path = destdir ++ 47 :: name ∧ name.head? ≠ some 47 ∧
    ascii ".." ∉ splitSlash name

structure SafeExtract (s : Extract) : Prop where
  cursor : Inside b s.p
  writes : ∀ w ∈ s.writes, SafeWrite b destdir w

end

/-! ## one line -/

section
variable {b : Buffer} {destdir : Bytes} {p : Nat} {e : Entry} {s t : Extract} {l : Bool}

theorem entryAt_body (h : entryAt b p = some e) : p < e.body ∧ e.body ≤ b.fin := by
  have hlen := b.text_length p
  unfold entryAt at h
  split at h
  · cases h
  · rename_i c rest hdrop
    have hsplit := List.takeWhile_append_dropWhile (p := fun c => c ≠ 10) (l := b.text p)
    rw [hdrop] at hsplit
    rw [← hsplit, List.length_append, List.length_cons] at hlen
    dsimp only at h
    split at h
    · cases h
    · split at h
      · cases h
      · split at h
        · cases h
        · obtain rfl := Option.some.inj h
          dsimp only
          omega

/-- a name without `..` has no such component -/
theorem no_component {name : Bytes} (h : hasDots name = false) : ascii ".." ∉ splitSlash name := by
  intro hmem
  have hin : ascii ".." <:+: name :=
    infix_of_resolve (List.mem_filter.mpr ⟨hmem, by decide⟩)
  rw [hasDots, Bool.eq_false_iff] at h
  exact h ((strstr_isSome (by decide)).mpr hin)

/-! ## one round -/

/-- **What a round of `pkg_extract` can do.** -/
theorem extract_cases (h : extractNext b destdir s l = some t) : ∃ e, entryAt b s.p = some e ∧
    e.next ≤ b.fin ∧ t.p = e.next ∧
    (t.writes = s.writes ∨ (e.name.head? ≠ some 47 ∧ hasDots e.name = false ∧
      t.writes = s.writes ++ [⟨destdir ++ 47 :: e.name, e.body, e.size⟩])) := by
  unfold extractNext at h
  split at h
  · cases h
  · obtain ⟨e, he, h⟩ := Option.bind_eq_some_iff.mp h
    split at h
    · cases h
    · rename_i hfin
      refine ⟨e, he, Nat.le_of_not_lt hfin, ?_⟩
      split at h
      · obtain rfl := Option.some.inj h
        exact ⟨rfl, .inl rfl⟩
      · rename_i hbad
        obtain rfl := Option.some.inj h
        rw [Bool.or_eq_true, not_or, decide_eq_true_eq, Bool.not_eq_true] at hbad
        exact ⟨rfl, .inr ⟨hbad.1, hbad.2, rfl⟩⟩

/-- an entry that does not go around moves the cursor forward -/
theorem next_forward (hp : b.start ≤ p) (he : entryAt b p = some e) (hw : NoWrap b p) :
    e.next = e.body + e.size ∧ p < e.next ∧ b.start ≤ e.next := by
  have hbody := entryAt_body he
  have hmod : e.next = e.body + e.size := Nat.mod_eq_of_lt (hw e he)
  omega

theorem safe_step (hs : SafeExtract b destdir s) (hw : NoWrap b s.p)
    (h : extractNext b destdir s l = some t) : SafeExtract b destdir t ∧ s.p < t.p := by
  obtain ⟨e, he, hfin, htp, hwr⟩ := extract_cases h
  obtain ⟨hnext, hlt, hstart⟩ := next_forward hs.cursor.1 he hw
  have hbody := entryAt_body he
  have hcur := hs.cursor.1
  refine ⟨⟨⟨by omega, by omega⟩, fun w hwm => ?_⟩, by omega⟩
  rcases hwr with hwr | ⟨hrel, hdots, hwr⟩
  · exact hs.writes w (hwr ▸ hwm)
  · rw [hwr, List.mem_append, List.mem_singleton] at hwm
    rcases hwm with hwm | rfl
    · exact hs.writes w hwm
    · exact ⟨by dsimp only; omega, by dsimp only; omega, e.name, rfl, hrel, no_component hdots⟩

theorem list_step {s t : Listing} (hs : Inside b s.p) (hw : Within b s.p)
    (h : listNext b s = some t) : Inside b t.p ∧ s.p < t.p := by
  obtain ⟨e, he, rfl⟩ := Option.map_eq_some_iff.mp h
  have hfits : b.fin < 2 ^ 64 := b.fits
  obtain ⟨hnext, hlt, hstart⟩ := next_forward hs.1 he fun e' he' => (hw e' he').trans_lt hfits
  have hend := hw e he
  exact ⟨⟨hstart, by rw [hnext]; exact hend⟩, hlt⟩

end

/-! ## runs -/

/-- **Untrusted archives**: in a run without an entry that goes around, and in a listing whose
entries end in the file, the cursor stays in the file and there are not more rounds than bytes;
what is written comes from the file and goes below the destination. -/
theorem archive_safe (b : Buffer) (destdir : Bytes) :
    (∀ ls s, (extracting b destdir).RunIf (fun s _ => NoWrap b s.p) ⟨b.start, [], false⟩ ls s →
      SafeExtract b destdir s ∧ ls.length ≤ b.n) ∧
    ∀ ls s, (listing b).RunIf (fun s _ => Within b s.p) ⟨b.start, []⟩ ls s →
      Inside b s.p ∧ ls.length ≤ b.n := by
  have hstart : Inside b b.start := ⟨Nat.le_refl _, Nat.le_add_right _ _⟩
  constructor
  · intro ls s hs
    have hinv : SafeExtract b destdir s ∧ b.start + ls.length ≤ s.p := by
      refine Sys.RunIf.inv (I := fun n s => SafeExtract b destdir s ∧ b.start + n ≤ s.p)
        ⟨⟨hstart, fun _ hw => absurd hw List.not_mem_nil⟩, Nat.le_refl _⟩
        (fun n s l t hI hw hn => ?_) hs
      obtain ⟨hsafe, hlt⟩ := safe_step hI.1 hw hn
      exact ⟨hsafe, by omega⟩
    have hfin := hinv.1.cursor.2
    unfold Buffer.fin at hfin
    exact ⟨hinv.1, by omega⟩
  · intro ls s hs
    have hinv : Inside b s.p ∧ b.start + ls.length ≤ s.p := by
      refine Sys.RunIf.inv (I := fun n s => Inside b s.p ∧ b.start + n ≤ s.p)
        ⟨hstart, Nat.le_refl _⟩ (fun n s l t hI hw hn => ?_) hs
      obtain ⟨hin, hlt⟩ := list_step hI.1 hw hn
      exact ⟨hin, by omega⟩
    have hfin := hinv.1.2
    unfold Buffer.fin at hfin
    exact ⟨hinv.1, by omega⟩

/-- the line `/ -5` -/
def endlessFile : Buffer :=
  ⟨4096, 5, fun a => (ascii "/ -5\n").getD (a - 4096) 0, by decide⟩

/-- the cursor is moved back to the line, so both loops go on for ever -/
theorem archive_endless :
    extractNext endlessFile (ascii "d") ⟨4096, [], false⟩ true = some ⟨4096, [], false⟩ ∧
    listNext endlessFile ⟨4096, []⟩ = some ⟨4096, [ascii "/"]⟩ := by
  decide

end Package
end HolyPhp
