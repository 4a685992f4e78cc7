import HolyPhp.Lib.Lines
import HolyPhp.Runtime.StrFuns
import Mathlib.Data.List.DropRight

/-!
# `LineReader`

The reader puts chunks behind its buffer and takes the lines off the front.

* `hpbiRtrim`        `rtrim`, which takes off white space besides the characters it is given;
* `feedLoop`, `feed` the lines that a call of `feed` hands to `onLine`, and the buffer behind it;
* `feedAll`          the calls for all chunks;
* `feedAll_eq`       the lines are those of the stream, whatever the chunks are;
* `Assembles`        every line comes without its `"\r"`s, and nothing else is missing;
* `assembles_iff`    **that is so if and only if no line ends with other white space.**
-/

set_option autoImplicit false

namespace HolyPhp
namespace LineReader
open HolyPhp.Std
open Substr

/-! ## the functions -/

/-- `hpbi_rtrim`, with a string as its second argument -/
def hpbiRtrim (s chars : Bytes) : Bytes := s.rdropWhile fun c => isSpace c || decide (c ∈ chars)

/-- the loop of `feed`, with the lines for `onLine`; `none` where it is not over after so many
rounds -/
def feedLoop : Nat → Bytes → Option (List Bytes × Bytes)
  | 0, _ => none
  | n + 1, buf =>
    match strpos [10] buf with
    | none => some ([], buf)
    | some p =>
      let line := hpbiSubstr buf 0 (some p)
      let buf := hpbiSubstr buf (p + 1) none
      (feedLoop n buf).map fun r => (hpbiRtrim line [13] :: r.1, r.2)

def feed (n : Nat) (buf chunk : Bytes) : Option (List Bytes × Bytes) := feedLoop n (buf ++ chunk)

def feedAll (n : Nat) (buf : Bytes) : List Bytes → Option (List Bytes × Bytes)
  | [] => some ([], buf)
  | chunk :: chunks => do
    let r ← feed n buf chunk
    let t ← feedAll n r.2 chunks
    return (r.1 ++ t.1, t.2)

/-- the bytes of a connection; a string has fewer than `2 ^ 63` -/
structure Stream where
  bytes : Bytes
  fits : bytes.length < 2 ^ 63

/-- `onLine` is called for every newline, in order, with the text in front of it, less its `"\r"`s;
what is behind the last one is kept -/
def Assembles (s : Stream) : Prop :=
  ∀ chunks : List Bytes, chunks.flatten = s.bytes → ∃ n ls r, Lines 10 s.bytes ls r ∧
    feedAll n [] chunks = some (ls.map (List.rdropWhile (· = 13)), r)

/-- white space behind which there are only `"\r"`s -/
def BlankEnd (l : Bytes) : Prop := ∃ c ∈ (l.rdropWhile (· = 13)).getLast?, isSpace c = true

instance (l : Bytes) : Decidable (BlankEnd l) := by
  unfold BlankEnd
  cases (l.rdropWhile (· = 13)).getLast? with
  | none => exact isFalse fun ⟨_, h, _⟩ => nomatch h
  | some c => exact decidable_of_iff (isSpace c = true) (by simp)

/-! ## `rtrim` -/

section
variable {l : Bytes} {buf s t r : Bytes} {ls : List Bytes} {n m : Nat}

theorem rdropWhile_rdropWhile {α : Type} {p q : α → Bool} (h : ∀ c, q c = true → p c = true)
    (l : List α) : (l.rdropWhile q).rdropWhile p = l.rdropWhile p := by
  induction l using List.reverseRecOn with
  | nil => rfl
  | append_singleton l c ih =>
    by_cases hq : q c = true
    · rw [List.rdropWhile_concat_pos _ _ _ hq, List.rdropWhile_concat_pos _ _ _ (h c hq), ih]
    · rw [List.rdropWhile_concat_neg _ _ _ hq]

/-- the carriage return is white space, too -/
theorem hpbiRtrim_cr (l : Bytes) : hpbiRtrim l [13] = l.rdropWhile isSpace := by
  have h : (fun c : UInt8 => isSpace c || decide (c ∈ [13])) = isSpace := by
    funext c
    by_cases hc : c = 13
    · rw [hc]
      rfl
    · simp [hc]
  rw [hpbiRtrim, h]

theorem rtrim_iff : hpbiRtrim l [13] = l.rdropWhile (· = 13) ↔ ¬ BlankEnd l := by
  have hsub : ∀ c : UInt8, decide (c = 13) = true → isSpace c = true := by
    intro c hc
    rw [of_decide_eq_true hc]
    rfl
  rw [hpbiRtrim_cr, ← rdropWhile_rdropWhile hsub l, List.rdropWhile_eq_self_iff, BlankEnd]
  constructor
  · rintro h ⟨c, hc, hs⟩
    obtain ⟨hne, rfl⟩ := List.mem_getLast?_eq_getLast hc
    exact h hne hs
  · intro h hne hs
    exact h ⟨_, List.getLast?_eq_some_getLast hne, hs⟩

/-! ## the calls -/

/-- the loop is over after a round for each line and one more -/
theorem feedLoop_eq (h : Lines 10 buf ls r) (hbuf : buf.length < 2 ^ 63) (hn : buf.length < n) :
    feedLoop n buf = some (ls.map fun l => hpbiRtrim l [13], r) := by
  induction n generalizing buf ls with
  | zero => exact absurd hn (Nat.not_lt_zero _)
  | succ n ih =>
    rw [feedLoop]
    cases hp : strpos [10] buf with
    | none =>
      obtain ⟨rfl, rfl⟩ := h.unique (.none hp)
      rfl
    | some p =>
      obtain ⟨-, -, hlt⟩ := strpos_cut hp
      obtain ⟨ls', r', hrest⟩ := exists_lines 10 (buf.drop (p + 1))
      obtain ⟨rfl, rfl⟩ := h.unique (hrest.next hp)
      have hline : hpbiSubstr buf 0 (some p) = buf.take p := by
        have := hpbiSubstr_take (s := buf) (a := 0) (k := p) (by omega) (by omega)
        rwa [List.drop_zero] at this
      have hbehind : hpbiSubstr buf (p + 1) none = buf.drop (p + 1) := hpbiSubstr_drop hlt
      have hlen : (buf.drop (p + 1)).length = buf.length - (p + 1) := List.length_drop
      simp only [hline, hbehind]
      rw [ih hrest (by omega) (by omega)]
      rfl

theorem length_rest (h : Lines 10 s ls r) : r.length ≤ s.length := by
  rw [← h.flat, List.length_append]
  exact Nat.le_add_left ..

/-- **the lines of the stream**, with the rest of what came before in the buffer -/
theorem feedAll_eq {chunks : List Bytes} (h : Lines 10 (buf ++ chunks.flatten) ls r)
    (hbuf : 10 ∉ buf) (hs : (buf ++ chunks.flatten).length < 2 ^ 63)
    (hn : (buf ++ chunks.flatten).length < n) :
    feedAll n buf chunks = some (ls.map fun l => hpbiRtrim l [13], r) := by
  induction chunks generalizing buf ls with
  | nil =>
    rw [List.flatten_nil, List.append_nil] at h
    obtain ⟨rfl, rfl⟩ := h.unique (.of_free hbuf)
    rfl
  | cons chunk chunks ih =>
    rw [List.flatten_cons, ← List.append_assoc] at h hs hn
    obtain ⟨ls1, r1, h1⟩ := exists_lines 10 (buf ++ chunk)
    obtain ⟨ls2, r2, h2⟩ := exists_lines 10 (r1 ++ chunks.flatten)
    obtain ⟨rfl, rfl⟩ := h.unique (h1.append h2)
    have hr1 := length_rest h1
    rw [List.length_append] at hs hn
    have hlen : (r1 ++ chunks.flatten).length = r1.length + chunks.flatten.length :=
      List.length_append
    have hfeed : feed n buf chunk = some (ls1.map fun l => hpbiRtrim l [13], r1) :=
      feedLoop_eq h1 (by omega) (by omega)
    have hall := ih h2 h1.rest (by omega) (by omega)
    rw [feedAll, hfeed, Option.bind_eq_bind, Option.bind_some, hall, List.map_append]
    rfl

/-- more rounds do not change the result -/
theorem feedLoop_mono {x : List Bytes × Bytes} (h : feedLoop n buf = some x) (hm : n ≤ m) :
    feedLoop m buf = some x := by
  induction n generalizing buf m x with
  | zero => exact nomatch h
  | succ n ih =>
    obtain ⟨m, rfl⟩ : ∃ k, m = k + 1 := ⟨m - 1, by omega⟩
    rw [feedLoop] at h ⊢
    cases hp : strpos [10] buf with
    | none =>
      rw [hp] at h
      exact h
    | some p =>
      rw [hp] at h
      obtain ⟨y, hy, rfl⟩ := Option.map_eq_some_iff.mp h
      exact Option.map_eq_some_iff.mpr ⟨y, ih hy (by omega), rfl⟩

theorem feedAll_mono {chunks : List Bytes} {x : List Bytes × Bytes}
    (h : feedAll n buf chunks = some x) (hm : n ≤ m) : feedAll m buf chunks = some x := by
  induction chunks generalizing buf x with
  | nil => exact h
  | cons chunk chunks ih =>
    rw [feedAll, Option.bind_eq_bind] at h ⊢
    obtain ⟨y, hy, h⟩ := Option.bind_eq_some_iff.mp h
    obtain ⟨z, hz, h⟩ := Option.bind_eq_some_iff.mp h
    refine Option.bind_eq_some_iff.mpr ⟨y, feedLoop_mono hy hm, ?_⟩
    exact Option.bind_eq_some_iff.mpr ⟨z, ih hz, h⟩

end

/-- **Line assembly**: the calls do not depend on the chunks, and the lines are those of the stream
without their `"\r"`s if and only if none of them ends with other white space. -/
theorem assembles_iff (s : Stream) :
    Assembles s ↔ ∀ ls r, Lines 10 s.bytes ls r → ∀ l ∈ ls, ¬ BlankEnd l := by
  have hrun : ∀ {chunks : List Bytes} {ls : List Bytes} {r : Bytes}, chunks.flatten = s.bytes →
      Lines 10 s.bytes ls r → feedAll (s.bytes.length + 1) [] chunks =
        some (ls.map fun l => hpbiRtrim l [13], r) := by
    intro chunks ls r hc h
    have hb : [] ++ chunks.flatten = s.bytes := hc
    rw [← hb] at h
    exact feedAll_eq h (fun h => nomatch h) (by rw [hb]; exact s.fits) (by rw [hb]; omega)
  constructor
  · intro hall ls r h l hl
    have hone : [s.bytes].flatten = s.bytes := by simp
    obtain ⟨n, ls', r', h', hn⟩ := hall [s.bytes] hone
    obtain ⟨rfl, rfl⟩ := h.unique h'
    have h1 := feedAll_mono hn (Nat.le_max_left n (s.bytes.length + 1))
    have h2 := feedAll_mono (hrun hone h) (Nat.le_max_right n (s.bytes.length + 1))
    have heq := (Prod.mk.inj (Option.some.inj (h2.symm.trans h1))).1
    exact rtrim_iff.mp (List.map_inj_left.mp heq l hl)
  · intro hall chunks hc
    obtain ⟨ls, r, h⟩ := exists_lines 10 s.bytes
    refine ⟨_, ls, r, h, (hrun hc h).trans ?_⟩
    have heq := List.map_inj_left.mpr fun l hl => rtrim_iff.mpr (hall ls r h l hl)
    rw [heq]

/-- the line `"a "` -/
theorem assembles_blank : ¬ ∀ s : Stream, Assembles s := by
  intro hall
  obtain ⟨n, ls, r, h, hn⟩ := hall ⟨[97, 32, 10], by decide⟩ [[97, 32, 10]] rfl
  have hl : Lines 10 [97, 32, 10] [[97, 32]] ([] : Bytes) := ⟨rfl, by decide, by decide⟩
  obtain ⟨rfl, rfl⟩ := hl.unique h
  have h4 : feedAll 4 [] [[97, 32, 10]] = some ([[97]], ([] : Bytes)) := by decide
  have h1 := feedAll_mono hn (Nat.le_max_left n 4)
  have h2 := feedAll_mono h4 (Nat.le_max_right n 4)
  exact absurd (h2.symm.trans h1) (by decide)

end LineReader
end HolyPhp
