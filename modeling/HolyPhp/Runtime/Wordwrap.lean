import HolyPhp.Runtime.Value
import Mathlib.Data.List.Basic
import Mathlib.Data.Nat.Init

/-!
# `wordwrap`

One pass with a pending word and the length of the current line.

* `Wrap`, `flush`, `wrapChar`   the state and the two parts of the loop;
* `words`, `lines`              what is kept;
* `Wraps width t o`             the lines of `o` are those of `t`, each cut between its words;
* `run_wraps`                   the loop, from any place of the text on.

**`wordwrap_keeps`**: the words, the line breaks and the width.
-/

set_option autoImplicit false

namespace HolyPhp
namespace Wordwrap

structure Wrap where
  b : Bytes
  word : Bytes
  line : Nat

/-- the pending word, behind what separates it from the line -/
def flush (width : Nat) (r : Wrap) : Wrap :=
  if 0 < r.word.length then
    if 0 < r.line ∧ width < r.line + 1 + r.word.length then
      ⟨r.b ++ [10] ++ r.word, [], r.word.length⟩
    else if 0 < r.line then ⟨r.b ++ [32] ++ r.word, [], r.line + 1 + r.word.length⟩
    else ⟨r.b ++ r.word, [], r.line + r.word.length⟩
  else r

def wrapChar (width : Nat) (r : Wrap) (c : UInt8) : Wrap :=
  if c ≠ 32 ∧ c ≠ 10 then { r with word := r.word ++ [c] }
  else
    let r := flush width r
    if c = 10 then { r with b := r.b ++ [10], line := 0 } else r

/-- the round at the end is that of a blank -/
def hpbiWordwrap (s : Bytes) (w : HVal Bytes) : Bytes :=
  let width := (hpValToInt w).toUInt64.toNat
  if width = 0 then s else (wrapChar width (s.foldl (wrapChar width) ⟨[], [], 0⟩) 32).b

/-! ## words and lines -/

def isBreak (c : UInt8) : Bool := c == 32 || c == 10

/-- the maximal runs without a space or newline -/
def words (t : Bytes) : List Bytes := (t.splitOnP isBreak).filter fun w => !w.isEmpty

def lines (t : Bytes) : List Bytes := t.splitOnP (· == 10)

/-- the words of each line -/
def lineWords (t : Bytes) : List (List Bytes) := (lines t).map words

section
variable {t x y w : Bytes} {c : UInt8} {width : Nat}

theorem words_break (hc : isBreak c = true) (x y : Bytes) :
    words (x ++ c :: y) = words x ++ words y := by
  unfold words
  rw [List.splitOnP_append_cons x y hc, List.filter_append]

theorem words_nil : words [] = [] := rfl

theorem words_plain (hne : w ≠ []) (h : ∀ c ∈ w, isBreak c = false) : words w = [w] := by
  unfold words
  rw [List.splitOnP_eq_singleton h]
  apply List.filter_eq_self.mpr
  intro v hv
  rw [List.mem_singleton.mp hv, List.isEmpty_eq_false_iff.mpr hne]
  rfl

theorem lines_newline (x y : Bytes) : lines (x ++ 10 :: y) = lines x ++ lines y :=
  List.splitOnP_append_cons x y (by decide)

theorem lines_plain (h : 10 ∉ x) : lines x = [x] := by
  apply List.splitOnP_eq_singleton
  intro c hc
  exact beq_eq_false_iff_ne.mpr fun he => h (he ▸ hc)

theorem lineWords_newline (x y : Bytes) :
    lineWords (x ++ 10 :: y) = lineWords x ++ lineWords y := by
  rw [lineWords, lines_newline, List.map_append]
  rfl

theorem lineWords_plain (h : 10 ∉ x) : lineWords x = [words x] := by
  rw [lineWords, lines_plain h]
  rfl

/-- a text is one line, or has a first one -/
theorem line_cases (t : Bytes) : 10 ∉ t ∨ ∃ x y, 10 ∉ x ∧ t = x ++ 10 :: y := by
  by_cases h : 10 ∈ t
  · obtain ⟨x, y, rfl, hx⟩ := List.eq_append_cons_of_mem h
    exact .inr ⟨x, y, hx, rfl⟩
  · exact .inl h

/-- in front of the first line -/
theorem lineWords_blank (hx : 10 ∉ x) (t : Bytes) :
    lineWords (x ++ 32 :: t) = (lineWords t).modifyHead (words x ++ ·) := by
  have hplain : ∀ u, 10 ∉ u → 10 ∉ x ++ 32 :: u := by
    intro u hu
    simp [hx, hu]
  rcases line_cases t with ht | ⟨u, y, hu, rfl⟩
  · rw [lineWords_plain (hplain t ht), lineWords_plain ht, words_break rfl]
    rfl
  · have he : x ++ 32 :: (u ++ 10 :: y) = (x ++ 32 :: u) ++ 10 :: y := by simp
    rw [he, lineWords_newline, lineWords_newline, lineWords_plain (hplain u hu),
      lineWords_plain hu, words_break rfl]
    rfl

theorem lineWords_ne_nil (t : Bytes) : lineWords t ≠ [] := by
  rw [lineWords, Ne, List.map_eq_nil_iff]
  exact List.splitOnP_ne_nil _ t

/-- the words of a text are those of its lines -/
theorem words_eq_flatten (t : Bytes) : words t = (lineWords t).flatten := by
  induction h : t.length using Nat.strong_induction_on generalizing t with
  | _ n ih =>
    rcases line_cases t with ht | ⟨x, y, hx, rfl⟩
    · rw [lineWords_plain ht]
      simp
    · have hlt : y.length < n := by
        rw [← h, List.length_append, List.length_cons]
        omega
      rw [words_break rfl, lineWords_newline, lineWords_plain hx, List.flatten_append, ← ih _ hlt y rfl]
      simp

/-! ## wrapped texts -/

/-- a line is not too long, or has one word -/
def Row (width : Nat) (r : Bytes) : Prop := r.length ≤ width ∨ words r = [r]

/-- the lines of `o` in groups, one for each line of `t`, with its words -/
def Wraps (width : Nat) (t o : Bytes) : Prop :=
  ∃ groups : List (List Bytes), lines o = groups.flatten ∧ (∀ g ∈ groups, g ≠ []) ∧
    groups.map (List.flatMap words) = lineWords t ∧ ∀ r ∈ lines o, Row width r

theorem Wraps.congr {t' o : Bytes} (h : Wraps width t o) (ht : lineWords t = lineWords t') :
    Wraps width t' o := by
  obtain ⟨g, h1, h2, h3, h4⟩ := h
  exact ⟨g, h1, h2, h3.trans ht, h4⟩

/-- one line that stays one -/
theorem Wraps.line (hx : 10 ∉ x) (hrow : Row width x) : Wraps width x x := by
  refine ⟨[[x]], lines_plain hx, ?_, ?_, ?_⟩
  · simp
  · rw [lineWords_plain hx]
    simp
  · rw [lines_plain hx]
    simpa using hrow

/-- a line break of the text -/
theorem Wraps.newline {t' o o' : Bytes} (h : Wraps width t o) (h' : Wraps width t' o') :
    Wraps width (t ++ 10 :: t') (o ++ 10 :: o') := by
  obtain ⟨g, h1, h2, h3, h4⟩ := h
  obtain ⟨g', h1', h2', h3', h4'⟩ := h'
  refine ⟨g ++ g', ?_, ?_, ?_, ?_⟩
  · rw [lines_newline, h1, h1', List.flatten_append]
  · intro x hx
    exact (List.mem_append.mp hx).elim (h2 x) (h2' x)
  · rw [List.map_append, h3, h3', lineWords_newline]
  · intro r hr
    rw [lines_newline] at hr
    exact (List.mem_append.mp hr).elim (h4 r) (h4' r)

/-- a new line break at a blank of the first line -/
theorem Wraps.wrap {o : Bytes} (hx : 10 ∉ x) (hrow : Row width x) (h : Wraps width t o) :
    Wraps width (x ++ 32 :: t) (x ++ 10 :: o) := by
  obtain ⟨gs, h1, h2, h3, h4⟩ := h
  cases gs with
  | nil => exact absurd h3.symm (lineWords_ne_nil t)
  | cons g gs =>
    refine ⟨(x :: g) :: gs, ?_, ?_, ?_, ?_⟩
    · rw [lines_newline, lines_plain hx, h1]
      rfl
    · intro u hu
      rcases List.mem_cons.mp hu with rfl | hu
      · exact List.cons_ne_nil x g
      · exact h2 u (List.mem_cons_of_mem g hu)
    · rw [lineWords_blank hx, ← h3]
      simp
    · intro r hr
      rw [lines_newline, lines_plain hx] at hr
      rcases List.mem_cons.mp hr with rfl | hr
      · exact hrow
      · exact h4 r hr

end

/-! ## the loop -/

section
variable {width : Nat} {cur word : Bytes}

def Plain (w : Bytes) : Prop := ∀ c ∈ w, isBreak c = false

theorem plain_nil : Plain [] := fun _ hc => absurd hc List.not_mem_nil

theorem Plain.no_newline (h : Plain word) : 10 ∉ word := fun hm => by
  have hb := h 10 hm
  cases hb

/-- **The pending word** is put on the line or on a new one. -/
theorem flush_spec (pre : Bytes) (hcur : 10 ∉ cur) (hrow : Row width cur) (hword : Plain word) :
    ∃ pre' cur', flush width ⟨pre ++ cur, word, cur.length⟩ = ⟨pre' ++ cur', [], cur'.length⟩ ∧
      10 ∉ cur' ∧ Row width cur' ∧
      ∀ t o, Wraps width (cur' ++ 32 :: t) o →
        ∃ o', pre' ++ o = pre ++ o' ∧ Wraps width (cur ++ 32 :: (word ++ 32 :: t)) o' := by
  by_cases hne : word = []
  · subst hne
    refine ⟨pre, cur, rfl, hcur, hrow, fun t o h => ⟨o, rfl, h.congr ?_⟩⟩
    have ht : lineWords ([] ++ 32 :: t) = lineWords t := by
      rw [lineWords_blank List.not_mem_nil, words_nil]
      exact congrFun List.modifyHead_id _
    rw [lineWords_blank hcur, lineWords_blank hcur, ht]
  · have hpos : 0 < word.length := List.length_pos_iff.mpr hne
    have hw10 := hword.no_newline
    have hone : Row width word := .inr (words_plain hne hword)
    unfold flush
    dsimp only
    rw [if_pos hpos]
    by_cases hwrap : 0 < cur.length ∧ width < cur.length + 1 + word.length
    · rw [if_pos hwrap]
      refine ⟨pre ++ cur ++ [10], word, rfl, hw10, hone, fun t o h => ⟨cur ++ 10 :: o, ?_, ?_⟩⟩
      · simp
      · exact h.wrap hcur hrow
    · rw [if_neg hwrap]
      by_cases hline : 0 < cur.length
      · rw [if_pos hline]
        refine ⟨pre, cur ++ 32 :: word, ?_, ?_, .inl ?_, fun t o h => ⟨o, rfl, ?_⟩⟩
        · simp only [List.append_assoc, List.singleton_append, List.length_append,
            List.length_cons, Wrap.mk.injEq, true_and]
          omega
        · simp [hcur, hw10]
        · rw [List.length_append, List.length_cons]
          omega
        · rw [List.append_assoc, List.cons_append] at h
          exact h
      · have hnil : cur = [] := List.length_eq_zero_iff.mp (Nat.eq_zero_of_not_pos hline)
        rw [if_neg hline, hnil]
        refine ⟨pre, word, ?_, hw10, hone, fun t o h => ⟨o, rfl, h.congr ?_⟩⟩
        · simp
        · rw [lineWords_blank List.not_mem_nil, words_nil]
          exact (congrFun List.modifyHead_id _).symm

/-- a blank at the end of a line -/
theorem lineWords_trailing (hcur : 10 ∉ cur) (hword : 10 ∉ word) :
    lineWords (cur ++ 32 :: (word ++ [32])) = lineWords (cur ++ 32 :: word) := by
  have hw : words (word ++ [32]) = words word := by
    rw [words_break rfl, words_nil, List.append_nil]
  rw [lineWords_plain (by simp [hcur, hword]), lineWords_plain (by simp [hcur, hword]),
    words_break rfl cur (word ++ [32]), words_break rfl cur word, hw]

/-- a blank at the beginning -/
theorem lineWords_leading (s : Bytes) : lineWords (32 :: s) = lineWords s := by
  rw [← List.nil_append (32 :: s), lineWords_blank List.not_mem_nil, words_nil]
  exact congrFun List.modifyHead_id _

theorem flush_end (pre : Bytes) (hcur : 10 ∉ cur) (hrow : Row width cur) (hword : Plain word) :
    ∃ o, (flush width ⟨pre ++ cur, word, cur.length⟩).b = pre ++ o ∧
      Wraps width (cur ++ 32 :: word) o := by
  obtain ⟨pre', cur', hf, hcur', hrow', hnext⟩ := flush_spec pre hcur hrow hword
  have hend : Wraps width (cur' ++ 32 :: []) cur' := by
    refine (Wraps.line hcur' hrow').congr ?_
    have hnl : 10 ∉ cur' ++ [32] := by simp [hcur']
    rw [lineWords_plain hcur', lineWords_plain hnl, words_break rfl, words_nil, List.append_nil]
  obtain ⟨o, ho, hwraps⟩ := hnext [] cur' hend
  refine ⟨o, ?_, hwraps.congr (lineWords_trailing hcur hword.no_newline)⟩
  rw [hf]
  exact ho

/-- **The loop**, from a current line and a pending word on -/
theorem run_wraps (s pre : Bytes) (hcur : 10 ∉ cur) (hrow : Row width cur) (hword : Plain word) :
    ∃ o, (wrapChar width (s.foldl (wrapChar width) ⟨pre ++ cur, word, cur.length⟩) 32).b =
      pre ++ o ∧ Wraps width (cur ++ 32 :: (word ++ s)) o := by
  induction s generalizing pre cur word with
  | nil =>
    rw [List.append_nil]
    exact flush_end pre hcur hrow hword
  | cons c s ih =>
    rw [List.foldl_cons]
    by_cases hc : c ≠ 32 ∧ c ≠ 10
    · -- one more byte of the word
      have hplain : Plain (word ++ [c]) := by
        intro d hd
        rcases List.mem_append.mp hd with hd | hd
        · exact hword d hd
        · rw [List.mem_singleton.mp hd, isBreak, beq_eq_false_iff_ne.mpr hc.1,
            beq_eq_false_iff_ne.mpr hc.2]
          rfl
      obtain ⟨o, ho, hwraps⟩ := ih pre hcur hrow hplain
      have hstep : wrapChar width ⟨pre ++ cur, word, cur.length⟩ c =
          ⟨pre ++ cur, word ++ [c], cur.length⟩ := if_pos hc
      rw [hstep]
      rw [List.append_assoc] at hwraps
      exact ⟨o, ho, hwraps⟩
    · by_cases h10 : c = 10
      · subst h10
        obtain ⟨o1, ho1, hwraps1⟩ := flush_end pre hcur hrow hword
        obtain ⟨pre', cur', hf, -⟩ := flush_spec pre hcur hrow hword
        have hstep : wrapChar width ⟨pre ++ cur, word, cur.length⟩ 10 =
            ⟨(pre ++ o1 ++ [10]) ++ [], [], ([] : Bytes).length⟩ := by
          have hrun : wrapChar width ⟨pre ++ cur, word, cur.length⟩ 10 =
              { flush width ⟨pre ++ cur, word, cur.length⟩ with
                b := (flush width ⟨pre ++ cur, word, cur.length⟩).b ++ [10]
                line := 0 } := rfl
          rw [hrun, ho1, hf, List.append_nil]
          rfl
        obtain ⟨o, ho, hwraps⟩ := ih (pre ++ o1 ++ [10])
          (List.not_mem_nil (a := 10)) (.inl (Nat.zero_le _)) plain_nil
        refine ⟨o1 ++ 10 :: o, ?_, ?_⟩
        · rw [hstep, ho]
          simp
        · have hrest : Wraps width s o := hwraps.congr (lineWords_leading s)
          have hall := hwraps1.newline hrest
          rw [List.append_assoc, List.cons_append] at hall
          exact hall
      · have h32 : c = 32 := by
          by_contra h
          exact hc ⟨h, h10⟩
        subst h32
        obtain ⟨pre', cur', hf, hcur', hrow', hnext⟩ := flush_spec pre hcur hrow hword
        have hstep : wrapChar width ⟨pre ++ cur, word, cur.length⟩ 32 =
            ⟨pre' ++ cur', [], cur'.length⟩ := by
          rw [← hf]
          rfl
        obtain ⟨o, ho, hwraps⟩ := ih pre' hcur' hrow' plain_nil
        obtain ⟨o', ho', hwraps'⟩ := hnext s o hwraps
        refine ⟨o', ?_, hwraps'⟩
        rw [hstep, ho, ho']

/-- **`wordwrap` keeps the text**: it has the same words, its lines are those of the text, each cut
between its words, and none is longer than the width but for a single word. -/
theorem wordwrap_keeps (s : Bytes) (w : HVal Bytes) (hw : 1 ≤ hpValToInt w) :
    words (hpbiWordwrap s w) = words s ∧
    (∃ groups : List (List Bytes), lines (hpbiWordwrap s w) = groups.flatten ∧
      (∀ g ∈ groups, g ≠ []) ∧ groups.map (List.flatMap words) = (lines s).map words) ∧
    ∀ r ∈ lines (hpbiWordwrap s w), (r.length : Int) ≤ (hpValToInt w).toInt ∨ words r = [r] := by
  have hpos : 1 ≤ (hpValToInt w).toInt := Int64.le_iff_toInt_le.mp hw
  have hwidth : ((hpValToInt w).toUInt64.toNat : Int) = (hpValToInt w).toInt := by
    have h : (hpValToInt w).toInt = (hpValToInt w).toBitVec.toInt := rfl
    have hn : (hpValToInt w).toUInt64.toNat = (hpValToInt w).toBitVec.toNat := rfl
    have hlt := (hpValToInt w).toBitVec.isLt
    rw [h, BitVec.toInt_eq_toNat_cond] at hpos
    rw [hn, h, BitVec.toInt_eq_toNat_cond]
    split <;> split at hpos <;> omega
  obtain ⟨o, ho, hwraps⟩ := @run_wraps (hpValToInt w).toUInt64.toNat [] [] s [] List.not_mem_nil
    (.inl (Nat.zero_le _)) plain_nil
  have hrun : hpbiWordwrap s w = o := by
    unfold hpbiWordwrap
    dsimp only
    rw [if_neg (by omega)]
    exact ho
  obtain ⟨groups, h1, h2, h3, h4⟩ := hwraps.congr (lineWords_leading s)
  rw [hrun]
  refine ⟨?_, ⟨groups, h1, h2, h3⟩, fun r hr => ?_⟩
  · have hflat : ∀ gs : List (List Bytes),
        (gs.map (List.flatMap words)).flatten = (gs.flatten.map words).flatten := by
      intro gs
      induction gs with
      | nil => rfl
      | cons g gs ih => simp [ih, List.flatMap]
    rw [words_eq_flatten, words_eq_flatten, lineWords, h1, ← hflat, h3]
  · exact (h4 r hr).imp_left fun hle => by omega

theorem wordwrap_keeps_four :
    words (hpbiWordwrap [97, 97, 32, 98, 98, 10, 99] (.int 4)) =
      words [97, 97, 32, 98, 98, 10, 99] ∧
    (∃ groups : List (List Bytes),
      lines (hpbiWordwrap [97, 97, 32, 98, 98, 10, 99] (.int 4)) = groups.flatten ∧
      (∀ g ∈ groups, g ≠ []) ∧
      groups.map (List.flatMap words) = (lines [97, 97, 32, 98, 98, 10, 99]).map words) ∧
    ∀ r ∈ lines (hpbiWordwrap [97, 97, 32, 98, 98, 10, 99] (.int 4)),
      (r.length : Int) ≤ (hpValToInt (.int 4)).toInt ∨ words r = [r] :=
  wordwrap_keeps _ (.int 4) (by decide)

end

end Wordwrap
end HolyPhp
