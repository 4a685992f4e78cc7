import HolyPhp.Mysql.Query

/-!
# Reads by the parse pointer

* `Lenc`, `Cell`, `Cells`   length-encoded integers and rows, as far as a packet holds all of them;
* `GreetingFits`, `OkFits`, `RowsFit`, `QueryFits`   packets that end where they may end.

**`parse_inside`**: the reads stay inside of the packets **if and only if** the packets fit.
-/

set_option autoImplicit false
set_option linter.unusedVariables false

namespace HolyPhp
namespace Mysql
open Arr Framing HolyPhp.Std

/-! ## runs without a read outside -/

def Safe {α : Type} (x : Except Stop α) : Prop := x ≠ .error .outside

section
variable {α β : Type} {x : Except Stop α} {f : α → Except Stop β} {g : α → β}

@[simp] theorem safe_ok (a : α) : Safe (.ok a : Except Stop α) := fun h => by cases h

@[simp] theorem safe_waits : Safe (.error .waits : Except Stop α) := fun h => by cases h

@[simp] theorem not_safe_outside : ¬ Safe (.error .outside : Except Stop α) := fun h => h rfl

theorem safe_bind : Safe (x.bind f) ↔ Safe x ∧ ∀ a, x = .ok a → Safe (f a) := by
  cases x with
  | error e =>
    refine ⟨fun h => ⟨?_, fun a ha => by cases ha⟩, fun h => ?_⟩
    · rintro ⟨⟩
      exact h rfl
    · rintro ⟨⟩
      exact h.1 rfl
  | ok a =>
    refine ⟨fun h => ⟨safe_ok a, ?_⟩, fun h => h.2 a rfl⟩
    rintro b ⟨⟩
    exact h

theorem safe_map : Safe (x.map g) ↔ Safe x := by
  cases x with
  | error e =>
    refine not_congr ⟨fun h => ?_, fun h => ?_⟩ <;> cases h <;> rfl
  | ok a => exact iff_of_true (safe_ok _) (safe_ok a)

end

/-! ## length-encoded integers -/

/-- the bytes behind a lead byte -/
def lencWidth (b : UInt8) : Nat :=
  if b = 0xfc then 2 else if b = 0xfd then 3 else if b = 0xfe then 8 else 0

def lencValue (b : UInt8) (p : Bytes) : Nat := if b < 0xfb then b.toNat else value (lencWidth b) p

/-- the integer `v` in front of `s`; the lead bytes `0xfb` and `0xff` stand for 0 -/
def Lenc (p : Bytes) (v : Nat) (s : Bytes) : Prop :=
  ∃ b q, p = b :: q ∧ lencWidth b ≤ q.length ∧ v = lencValue b q ∧ s = q.drop (lencWidth b)

section
variable {p q s t : Bytes} {b : UInt8} {v w : Nat}

theorem lencWidth_small (h : b < 0xfb) : lencWidth b = 0 := by
  have hne : ∀ c : UInt8, 0xfb ≤ c → b ≠ c := by
    rintro c hc rfl
    exact absurd h (UInt8.not_lt.mpr hc)
  unfold lencWidth
  rw [if_neg (hne 0xfc (by decide)), if_neg (hne 0xfd (by decide)), if_neg (hne 0xfe (by decide))]

theorem lencValue_lt (b : UInt8) (p : Bytes) : lencValue b p < 2 ^ 64 := by
  have hb := b.toNat_lt
  have hw : lencWidth b ≤ 8 := by
    unfold lencWidth
    split <;> [decide; split <;> [decide; split <;> decide]]
  have hv := value_lt (lencWidth b) p
  have hpow : 256 ^ lencWidth b ≤ 256 ^ 8 := Nat.pow_le_pow_right (by decide) hw
  unfold lencValue
  split <;> omega

theorem readLe_eq (n : Nat) (p : Bytes) : readLe n p =
    if n ≤ p.length then .ok (UInt64.ofNat (value n p), p.drop n) else .error .outside := by
  rw [readLe, leWord_eq]

/-- **`my_lenc_int`**, by the width of the lead byte. -/
theorem myLencInt_cons (b : UInt8) (q : Bytes) : myLencInt (b :: q) =
    if lencWidth b ≤ q.length then .ok (UInt64.ofNat (lencValue b q), q.drop (lencWidth b))
    else .error .outside := by
  rw [myLencInt, lencValue]
  by_cases hlt : b < 0xfb
  · have hw := lencWidth_small hlt
    have hb : UInt64.ofNat b.toNat = b.toUInt64 := by
      apply UInt64.toNat_inj.mp
      have := b.toNat_lt
      rw [UInt64.toNat_ofNat', UInt8.toNat_toUInt64]
      omega
    rw [if_pos hlt, hw, if_pos (Nat.zero_le _), if_pos hlt, hb]
    rfl
  · rw [if_neg hlt, if_neg hlt]
    unfold lencWidth
    split
    · exact readLe_eq 2 q
    · split
      · exact readLe_eq 3 q
      · split
        · exact readLe_eq 8 q
        · rw [if_pos (Nat.zero_le _)]
          rfl

theorem Lenc.ok (h : Lenc p v s) : myLencInt p = .ok (UInt64.ofNat v, s) := by
  obtain ⟨b, q, rfl, hw, rfl, rfl⟩ := h
  rw [myLencInt_cons, if_pos hw]

theorem Lenc.lt (h : Lenc p v s) : v < 2 ^ 64 := by
  obtain ⟨b, q, -, -, rfl, -⟩ := h
  exact lencValue_lt b q

theorem Lenc.toNat (h : Lenc p v s) : (UInt64.ofNat v).toNat = v := by
  rw [UInt64.toNat_ofNat', Nat.mod_eq_of_lt h.lt]

theorem Lenc.unique (h : Lenc p v s) (h' : Lenc p w t) : v = w ∧ s = t := by
  obtain ⟨b, q, rfl, -, rfl, rfl⟩ := h
  obtain ⟨b', q', e, -, rfl, rfl⟩ := h'
  cases e
  exact ⟨rfl, rfl⟩

/-- all of an integer is there, or a read leaves the memory -/
theorem lenc_or (p : Bytes) : (∃ v s, Lenc p v s) ∨
    (¬ (∃ v s, Lenc p v s) ∧ myLencInt p = .error .outside) := by
  cases p with
  | nil =>
    right
    refine ⟨?_, rfl⟩
    rintro ⟨v, s, b, q, e, -⟩
    cases e
  | cons b q =>
    by_cases hw : lencWidth b ≤ q.length
    · exact Or.inl ⟨_, _, b, q, rfl, hw, rfl, rfl⟩
    · right
      refine ⟨?_, ?_⟩
      · rintro ⟨v, s, b', q', e, hw', -⟩
        cases e
        exact hw hw'
      · rw [myLencInt_cons, if_neg hw]

theorem safe_myLencInt : Safe (myLencInt p) ↔ ∃ v s, Lenc p v s := by
  rcases lenc_or p with ⟨v, s, h⟩ | ⟨hno, herr⟩
  · rw [h.ok]
    exact iff_of_true (safe_ok _) ⟨v, s, h⟩
  · rw [herr]
    exact iff_of_false not_safe_outside hno

/-- two integers -/
def TwoInts (p : Bytes) : Prop := ∃ v s w t, Lenc p v s ∧ Lenc s w t

theorem safe_okInts : Safe (okInts p) ↔ TwoInts p := by
  rw [okInts, safe_bind, safe_myLencInt]
  constructor
  · rintro ⟨⟨v, s, h⟩, h2⟩
    have h2' := h2 _ h.ok
    rw [safe_map, safe_myLencInt] at h2'
    obtain ⟨w, t, ht⟩ := h2'
    exact ⟨v, s, w, t, h, ht⟩
  · rintro ⟨v, s, w, t, h, ht⟩
    refine ⟨⟨v, s, h⟩, fun a ha => ?_⟩
    rw [h.ok] at ha
    cases ha
    rw [safe_map, safe_myLencInt]
    exact ⟨w, t, ht⟩

end

/-! ## rows -/

/-- what is behind the `v` bytes in front of `s`; for 0 of them a byte is looked at, and taken if it
is the mark of NULL -/
def Behind (v : Nat) (s t : Bytes) : Prop :=
  if v = 0 then s ≠ [] ∧ t = (if s.head? = some 0xfb then s.drop 1 else s)
  else v ≤ s.length ∧ t = s.drop v

/-- **A cell** in front of `t` -/
def Cell (m t : Bytes) : Prop := ∃ v s, Lenc m v s ∧ Behind v s t

/-- `n` cells -/
def Cells : Nat → Bytes → Prop
  | 0, _ => True
  | n + 1, m => ∃ t, Cell m t ∧ Cells n t

section
variable {m s t t' : Bytes} {n k : Nat}

theorem Lenc.cell_iff (h : Lenc m n s) : Cell m t ↔ Behind n s t := by
  constructor
  · rintro ⟨v, s', h', ht⟩
    obtain ⟨rfl, rfl⟩ := h.unique h'
    exact ht
  · intro ht
    exact ⟨n, s, h, ht⟩

theorem Cell.unique (h : Cell m t) (h' : Cell m t') : t = t' := by
  obtain ⟨v, s, hv, hb⟩ := h
  have hb' := hv.cell_iff.mp h'
  unfold Behind at hb hb'
  split at hb
  · next h0 =>
    rw [if_pos h0] at hb'
    rw [hb.2, hb'.2]
  · next h0 =>
    rw [if_neg h0] at hb'
    rw [hb.2, hb'.2]

/-- the value of a cell behind the length `n` -/
theorem cell_value (h : Lenc m n s) (hn : n ≠ 0) : cell m =
    if n ≤ s.length then .ok (.str (some (s.take n)), s.drop n) else .error .outside := by
  have hne : ¬ UInt64.ofNat n = 0 := fun e => hn (by rw [← h.toNat, e]; rfl)
  rw [cell, h.ok]
  show (if UInt64.ofNat n = 0 then _ else _) = _
  rw [if_neg hne]
  show (readRange s 0 (UInt64.ofNat n).toNat).map _ = _
  rw [h.toNat, readRange, Nat.zero_add]
  split <;> rfl

theorem cell_zero (h : Lenc m 0 s) : cell m =
    (readAt s 0).bind fun b =>
      if b = 0xfb then .ok (.null, s.drop 1) else .ok (.str (some []), s) := by
  rw [cell, h.ok]
  rfl

/-- **A round** of the loop reads a cell, or outside of the memory. -/
theorem cell_spec (m : Bytes) : (∃ v t, cell m = .ok (v, t) ∧ Cell m t) ∨
    (cell m = .error .outside ∧ ¬ ∃ t, Cell m t) := by
  rcases lenc_or m with ⟨n, s, h⟩ | ⟨hno, herr⟩
  · simp only [h.cell_iff, Behind]
    by_cases hn : n = 0
    · subst hn
      rw [cell_zero h]
      cases s with
      | nil => exact Or.inr ⟨rfl, by simp⟩
      | cons b s =>
        left
        by_cases hb : b = 0xfb
        · exact ⟨_, _, if_pos hb, by simp [hb]⟩
        · exact ⟨_, _, if_neg hb, by simp [hb]⟩
    · rw [cell_value h hn]
      by_cases hlen : n ≤ s.length
      · exact Or.inl ⟨_, _, if_pos hlen, by simp [hn, hlen]⟩
      · exact Or.inr ⟨if_neg hlen, by simp [hn, hlen]⟩
  · right
    refine ⟨?_, ?_⟩
    · rw [cell, herr]
      rfl
    · rintro ⟨t, v, s, hv, -⟩
      exact hno ⟨v, s, hv⟩

/-! a row has no more than one entry: all its names are empty -/

/-- the rows that the loop makes -/
structure RowOk (row : Harr) : Prop where
  filled : Filled row
  entries : row.entries = [] ∨ ∃ v, row.entries = [(name, v)]

theorem RowOk.empty (junk : Nat → Val) : RowOk (emptyMap junk) :=
  ⟨emptyMap_filled junk, Or.inl rfl⟩

theorem RowOk.set {row : Harr} (h : RowOk row) (v : Val) :
    ∃ b, hpArrSet row name v = some b ∧ RowOk b ∧ b.entries = [(name, v)] := by
  have hlen : row.len ≤ 1 := by
    rw [← length_entries]
    rcases h.entries with e | ⟨w, e⟩ <;> simp [e]
  have hmax : name ≠ .int Int64.maxValue := fun e => by cases e
  obtain ⟨b, hb, hf, he⟩ := h.filled.set (v := v) (k := name) rfl hmax (fun _ => by
    unfold full
    omega)
  have hentries : b.entries = [(name, v)] := by
    rw [he]
    rcases h.entries with e | ⟨w, e⟩ <;> rw [e] <;> rfl
  exact ⟨b, hb, ⟨hf, Or.inr ⟨v, hentries⟩⟩, hentries⟩

theorem rowCells_step {row b : Harr} {v : Val} (hc : cell m = .ok (v, t))
    (hb : hpArrSet row name v = some b) : rowCells (n + 1) row m = rowCells n b t := by
  rw [rowCells, hc]
  simp only [Except.bind]
  rw [hb]

/-- **The cells** of a row are inside of the memory, or a read is not. -/
theorem rowCells_spec (n : Nat) {row : Harr} (hrow : RowOk row) (m : Bytes) :
    (∃ b, rowCells n row m = .ok b ∧ RowOk b ∧ Cells n m) ∨
      (rowCells n row m = .error .outside ∧ ¬ Cells n m) := by
  induction n generalizing row m with
  | zero => exact Or.inl ⟨row, rfl, hrow, trivial⟩
  | succ n ih =>
    rcases cell_spec m with ⟨v, t, hc, ht⟩ | ⟨hc, hno⟩
    · obtain ⟨b, hb, hrow', -⟩ := hrow.set v
      have hcells : Cells (n + 1) m ↔ Cells n t := by
        constructor
        · rintro ⟨t', ht', hn⟩
          rwa [ht.unique ht']
        · intro hn
          exact ⟨t, ht, hn⟩
      rw [rowCells_step hc hb, hcells]
      exact ih hrow' t
    · right
      refine ⟨?_, ?_⟩
      · rw [rowCells, hc]
        rfl
      · rintro ⟨t, ht, -⟩
        exact hno ⟨t, ht⟩

theorem safe_rowCells {row : Harr} (hrow : RowOk row) : Safe (rowCells n row m) ↔ Cells n m := by
  rcases rowCells_spec n hrow m with ⟨b, hb, -, hc⟩ | ⟨hb, hc⟩
  · rw [hb]
    exact iff_of_true (safe_ok b) hc
  · rw [hb]
    exact iff_of_false not_safe_outside hc

end

/-! ## result sets -/

/-- the packets behind the column definitions: an EOF packet and an OK packet end the rows -/
def RowsFit (n : Nat) : List Bytes → Prop
  | [] => True
  | p :: ps =>
    if 5 ≤ p.length ∧ p.head? = some 0xfe then True
    else if p.head? = some 0 then TwoInts p.tail
    else Cells n p ∧ RowsFit n ps

/-- the packets from behind the definitions on; a part of a packet counts as a row there -/
def SetFits (n : Nat) (ps : List Bytes) (part : Bytes) : Prop :=
  match ps with
  | [] => part ≠ [] → Cells n part
  | e :: ps => if isEof e then RowsFit n ps else (e ≠ [] → Cells n e) ∧ RowsFit n ps

/-- the packets of a reply -/
def QueryFits (ps : List Bytes) (part : Bytes) : Prop :=
  match ps with
  | [] => True
  | p :: ps =>
    if p = [] ∨ p.head? = some 0xff then True
    else if p.head? = some 0 ∨ p.head? = some 0xfe then TwoInts p.tail
    else ∃ n s, Lenc p n s ∧ (n ≤ ps.length → SetFits n (ps.drop n) part)

/-- what has come of a packet where the server closes -/
def MyConn.part (c : MyConn) : Bytes := if c.closed then c.cut.2.drop 4 else []

section
variable {c c' : MyConn} {junk : Nat → Val} {n : Nat} {rows : List Harr} {p r : Bytes}
  {ps : List Bytes} {mem : Bytes → Bytes}

theorem rowLoop_error {e : Stop} (h : mysqlReadPacket c = .error e) :
    rowLoop mem junk n c rows = .error e := by
  rw [rowLoop]
  split <;> simp_all

theorem rowLoop_fail {out : Bytes} (h : mysqlReadPacket c = .ok (false, out, c')) :
    rowLoop mem junk n c rows = .ok (rows, c') := by
  rw [rowLoop]
  split <;> simp_all

theorem rowLoop_packet (h : mysqlReadPacket c = .ok (true, p, c')) :
    rowLoop mem junk n c rows =
      if 5 ≤ p.length ∧ p.head? = some 0xfe then .ok (rows, c')
      else if p.head? = some 0 then
        (okInts (mem p).tail).map fun r => (rows, { c' with insertId := r.2.toUInt32 })
      else (rowCells n (emptyMap junk) (mem p)).bind fun row =>
        rowLoop mem junk n c' (rows ++ [row]) := by
  rw [rowLoop]
  split
  · simp_all
  · simp_all
  · next h' =>
    rw [h] at h'
    cases h'
    rfl

/-- **The loop over the rows**, by the packets that come. -/
theorem safe_rowLoop (hc : c.cut = (ps, r)) :
    Safe (rowLoop inside junk n c rows) ↔ RowsFit n ps := by
  induction ps generalizing c rows with
  | nil =>
    rcases mysqlReadPacket_nil hc with ⟨-, hr⟩ | ⟨-, q, hr⟩
    · rw [rowLoop_error hr]
      exact iff_of_true safe_waits trivial
    · rw [rowLoop_fail hr]
      exact iff_of_true (safe_ok _) trivial
  | cons p ps ih =>
    obtain ⟨fs, q, hcut, hr, -⟩ := mysqlReadPacket_cons hc
    rw [rowLoop_packet hr, RowsFit]
    split
    · exact iff_of_true (safe_ok _) trivial
    · split
      · rw [safe_map]
        exact safe_okInts
      · rw [safe_bind, safe_rowCells (.empty junk)]
        constructor
        · rintro ⟨hcells, hrest⟩
          rcases rowCells_spec n (.empty junk) p with ⟨b, hb, -⟩ | ⟨-, hno⟩
          · exact ⟨hcells, (ih hcut).mp (hrest b hb)⟩
          · exact absurd hcells hno
        · rintro ⟨hcells, hrest⟩
          exact ⟨hcells, fun b _ => (ih hcut).mpr hrest⟩

/-- the definitions are all there, or the loop over them does not succeed -/
theorem skipDefs_spec (n : Nat) (hc : c.cut = (ps, r)) :
    (n ≤ ps.length ∧ ∃ d, skipDefs n c = .ok (true, d) ∧ d.cut = (ps.drop n, r) ∧
      d.closed = c.closed) ∨
    (ps.length < n ∧ (skipDefs n c = .error .waits ∨ ∃ d, skipDefs n c = .ok (false, d))) := by
  induction n generalizing c ps with
  | zero => exact Or.inl ⟨Nat.zero_le _, c, rfl, hc, rfl⟩
  | succ n ih =>
    cases ps with
    | nil =>
      refine Or.inr ⟨Nat.succ_pos n, ?_⟩
      rcases mysqlReadPacket_nil hc with ⟨-, hr⟩ | ⟨-, q, hr⟩
      · left
        rw [skipDefs, hr]
        rfl
      · right
        rw [skipDefs, hr]
        exact ⟨_, rfl⟩
    | cons p ps =>
      obtain ⟨fs, q, hcut, hr, -⟩ := mysqlReadPacket_cons hc
      have hstep : skipDefs (n + 1) c = skipDefs n { c with seq := q, inbound := fs } := by
        rw [skipDefs, hr]
        rfl
      rw [hstep, List.length_cons, Nat.succ_le_succ_iff, Nat.succ_lt_succ_iff, List.drop_succ_cons]
      exact ih hcut

theorem resultSet_read {b : Bool} {out : Bytes} (h : mysqlReadPacket c = .ok (b, out, c')) :
    resultSet mem junk n c =
      if (b && isEof out) || out.isEmpty then rowLoop mem junk n c' []
      else (rowCells n (emptyMap junk) (mem out)).bind fun row => rowLoop mem junk n c' [row] := by
  rw [resultSet, h]
  rfl

/-- a first row and the rows behind it -/
theorem safe_firstRow {m : Bytes} (hc : c.cut = (ps, r)) :
    Safe ((rowCells n (emptyMap junk) m).bind fun row => rowLoop inside junk n c [row]) ↔
      Cells n m ∧ RowsFit n ps := by
  rw [safe_bind, safe_rowCells (.empty junk)]
  refine and_congr_right fun hcells => ?_
  rcases rowCells_spec n (.empty junk) m with ⟨b, hb, -⟩ | ⟨-, hno⟩
  · constructor
    · intro h
      exact (safe_rowLoop hc).mp (h b hb)
    · intro h b' _
      exact (safe_rowLoop hc).mpr h
  · exact absurd hcells hno

/-- **The rows**, from behind the definitions on. -/
theorem safe_resultSet (hc : c.cut = (ps, r)) :
    Safe (resultSet inside junk n c) ↔ SetFits n ps c.part := by
  cases ps with
  | nil =>
    have hpart : c.part = if c.closed then r.drop 4 else [] := by rw [MyConn.part, hc]
    rcases mysqlReadPacket_nil hc with ⟨hcl, hr⟩ | ⟨hcl, q, hr⟩
    · rw [resultSet, hr, hpart, hcl]
      exact iff_of_true safe_waits fun h => absurd rfl h
    · have hcut : MyConn.cut { c with seq := q, inbound := [] } = ([], []) := cut_part (by simp)
      generalize { c with seq := q, inbound := [] } = d at hcut hr
      rw [resultSet_read hr, hpart, hcl, if_pos rfl, SetFits, Bool.false_and, Bool.false_or]
      cases hout : r.drop 4 with
      | nil =>
        rw [List.isEmpty_nil, if_pos rfl, safe_rowLoop hcut]
        exact iff_of_true trivial fun h => absurd rfl h
      | cons b out =>
        rw [if_neg (by simp), safe_firstRow hcut]
        exact ⟨fun h _ => h.1, fun h => ⟨h (List.cons_ne_nil b out), trivial⟩⟩
  | cons e ps =>
    obtain ⟨fs, q, hcut, hr, -⟩ := mysqlReadPacket_cons hc
    rw [resultSet_read hr, SetFits, Bool.true_and]
    cases he : isEof e with
    | true =>
      rw [Bool.true_or, if_pos rfl, if_pos rfl]
      exact safe_rowLoop hcut
    | false =>
      rw [Bool.false_or, if_neg Bool.false_ne_true]
      cases e with
      | nil =>
        rw [List.isEmpty_nil, if_pos rfl, safe_rowLoop hcut]
        exact ⟨fun h => ⟨fun hne => absurd rfl hne, h⟩, fun h => h.2⟩
      | cons b e =>
        rw [if_neg (by simp), safe_firstRow hcut]
        exact and_congr_left' ⟨fun h _ => h, fun h => h (List.cons_ne_nil b e)⟩

/-- the definitions and the rows -/
theorem safe_behindCount (hc : c.cut = (ps, r)) :
    Safe ((skipDefs n c).bind fun d =>
      if !d.1 then .ok (.fail, d.2)
      else (resultSet inside junk n d.2).map fun s => (Reply.rows s.1, s.2)) ↔
      (n ≤ ps.length → SetFits n (ps.drop n) c.part) := by
  rcases skipDefs_spec n hc with ⟨hle, d, hd, hcut, hcl⟩ | ⟨hlt, hd | ⟨d, hd⟩⟩
  · have hpart : d.part = c.part := by rw [MyConn.part, MyConn.part, hcut, hc, hcl]
    rw [hd]
    show Safe ((resultSet inside junk n d).map _) ↔ _
    rw [safe_map, safe_resultSet hcut, hpart]
    exact ⟨fun h _ => h, fun h => h hle⟩
  · rw [hd]
    exact iff_of_true safe_waits fun h => absurd h (by omega)
  · rw [hd]
    exact iff_of_true (safe_ok _) fun h => absurd h (by omega)

/-- **A reply**, by the packets that come. -/
theorem safe_reply (hc : c.cut = (ps, r)) : Safe (reply inside junk c) ↔ QueryFits ps c.part := by
  cases ps with
  | nil =>
    rcases mysqlReadPacket_nil hc with ⟨-, hr⟩ | ⟨-, q, hr⟩
    · rw [reply, hr]
      exact iff_of_true safe_waits trivial
    · rw [reply, hr]
      exact iff_of_true (safe_ok _) trivial
  | cons p ps =>
    obtain ⟨fs, q, hcut, hr, -⟩ := mysqlReadPacket_cons hc
    have hpart : MyConn.part { c with seq := q, inbound := fs } = c.part := by
      rw [MyConn.part, MyConn.part, hcut, hc]
    rw [reply, hr]
    cases p with
    | nil => exact iff_of_true (safe_ok _) trivial
    | cons b p =>
      show Safe (if b = 0xff then _ else if b = 0 ∨ b = 0xfe then _ else _) ↔ _
      simp only [QueryFits, List.head?_cons, Option.some.injEq, List.cons_ne_nil, false_or,
        List.tail_cons]
      split
      · exact iff_of_true (safe_ok _) trivial
      · split
        · rw [safe_map]
          exact safe_okInts
        · show Safe ((myLencInt (b :: p)).bind _) ↔ _
          rw [safe_bind, safe_myLencInt]
          constructor
          · rintro ⟨⟨n, t, hl⟩, hrest⟩
            have h := hrest _ hl.ok
            rw [hl.toNat, safe_behindCount hcut, hpart] at h
            exact ⟨n, t, hl, h⟩
          · rintro ⟨n, t, hl, hrest⟩
            refine ⟨⟨n, t, hl⟩, fun a ha => ?_⟩
            rw [hl.ok] at ha
            cases ha
            rw [hl.toNat, safe_behindCount hcut, hpart]
            exact hrest

end

/-! ## sending -/

/-- a payload of `n` bytes is sent as a whole -/
def Sends (accepts : List Nat) (n : Nat) : Bool :=
  (mysqlSendPacket (fresh accepts []) (List.replicate n 0) (UInt32.ofNat n)).1

section
variable {c : MyConn} {data data' : Bytes} {acc : List Nat} {len : UInt32}

/-- whether a loop of `send` succeeds is a matter of the length -/
theorem sendLoop_length (acc : List Nat) (h : data.length = data'.length) :
    (sendLoop data acc).1 = (sendLoop data' acc).1 ∧
      (sendLoop data acc).2.2 = (sendLoop data' acc).2.2 := by
  induction acc generalizing data data' with
  | nil =>
    refine ⟨?_, rfl⟩
    show data.isEmpty = data'.isEmpty
    rw [Bool.eq_iff_iff, List.isEmpty_iff_length_eq_zero, List.isEmpty_iff_length_eq_zero, h]
  | cons a acc ih =>
    have he : data.isEmpty = data'.isEmpty := by
      rw [Bool.eq_iff_iff, List.isEmpty_iff_length_eq_zero, List.isEmpty_iff_length_eq_zero, h]
    rw [sendLoop, sendLoop, he, h]
    split
    · exact ⟨rfl, rfl⟩
    · dsimp only
      split
      · exact ⟨rfl, rfl⟩
      · exact ih (by rw [List.length_drop, List.length_drop, h])

theorem mysqlSendPacket_sends (c : MyConn) (data : Bytes) :
    (mysqlSendPacket c data (UInt32.ofNat data.length)).1 = Sends c.accepts data.length := by
  have hhd : (header (UInt32.ofNat data.length) c.seq).length =
      (header (UInt32.ofNat data.length) 0).length := rfl
  obtain ⟨h1, h2⟩ := sendLoop_length c.accepts hhd
  have hbody : (data.take (UInt32.ofNat data.length).toNat).length =
      ((List.replicate data.length (0 : UInt8)).take (UInt32.ofNat data.length).toNat).length := by
    rw [List.length_take, List.length_take, List.length_replicate]
  unfold Sends mysqlSendPacket
  dsimp only [fresh]
  rw [h1, h2]
  split
  · exact (sendLoop_length _ hbody).1
  · rfl

/-- sending leaves the other direction alone -/
theorem mysqlSendPacket_cut (c : MyConn) (data : Bytes) (len : UInt32) :
    (mysqlSendPacket c data len).2.cut = c.cut ∧
      (mysqlSendPacket c data len).2.closed = c.closed := by
  unfold mysqlSendPacket
  dsimp only
  split <;> exact ⟨rfl, rfl⟩

/-- a command that is sent is replied to -/
theorem query_reply (mem : Bytes → Bytes) (junk : Nat → Val) {sql : Bytes}
    (hopen : c.isOpen = true) (hsent : Sends c.accepts (sql.length + 1) = true) :
    ∃ d, d.cut = c.cut ∧ d.closed = c.closed ∧ mysqlQueryImpl mem junk (some c) sql =
      (reply mem junk d).map fun r => (r.1, some r.2) := by
  have hsends := mysqlSendPacket_sends { c with seq := 0 } (0x03 :: sql)
  obtain ⟨hcut, hcl⟩ := mysqlSendPacket_cut { c with seq := 0 } (0x03 :: sql)
    (UInt32.ofNat (0x03 :: sql).length)
  refine ⟨_, hcut, hcl, ?_⟩
  have h1 : ¬ (!c.isOpen) = true := by simp [hopen]
  have h2 : ¬ (!Sends c.accepts (0x03 :: sql).length) = true := by
    rw [List.length_cons, hsent]
    exact Bool.false_ne_true
  rw [mysqlQueryImpl]
  dsimp only
  rw [if_neg h1, hsends, if_neg h2]

/-- **Queries**, by the packets that come. -/
theorem safe_query (c : MyConn) (junk : Nat → Val) (sql : Bytes) :
    Safe (mysqlQueryImpl inside junk (some c) sql) ↔
      (c.isOpen = true → Sends c.accepts (sql.length + 1) = true →
        QueryFits c.cut.1 c.part) := by
  by_cases h : c.isOpen = true ∧ Sends c.accepts (sql.length + 1) = true
  · obtain ⟨d, hcut, hcl, hd⟩ := query_reply inside junk h.1 h.2
    have hpart : d.part = c.part := by rw [MyConn.part, MyConn.part, hcut, hcl]
    rw [hd, safe_map, safe_reply (Prod.ext rfl rfl : d.cut = (d.cut.1, d.cut.2)), hcut, hpart]
    exact ⟨fun hq _ _ => hq, fun hq => hq h.1 h.2⟩
  · refine iff_of_true ?_ fun h1 h2 => absurd ⟨h1, h2⟩ h
    have hsends := mysqlSendPacket_sends { c with seq := 0 } (0x03 :: sql)
    rw [mysqlQueryImpl]
    dsimp only
    rw [hsends]
    split
    · exact safe_ok _
    · next h1 =>
      have hopen : c.isOpen = true := by simpa using h1
      have h2 : (!Sends c.accepts (0x03 :: sql).length) = true := by
        simpa [hopen] using h
      rw [if_pos h2]
      exact safe_ok _

end

/-! ## the greeting -/

/-- the NUL behind the server version, or the end of the packet -/
def versionEnd (pkt : Bytes) : Nat := 1 + ((pkt.drop 1).takeWhile fun c => c != 0).length

/-- a packet that is taken for a greeting -/
def Greets (pkt : Bytes) : Prop := ¬ (pkt.length < 30 ∨ pkt.head? = some 0xff)

/-- the capabilities, and the second part of the salt where they announce it -/
def GreetingFits (pkt : Bytes) : Prop :=
  versionEnd pkt + 21 ≤ pkt.length ∧
    (128 ≤ (pkt.getD (versionEnd pkt + 15) 0).toNat → versionEnd pkt + 32 ≤ pkt.length)

/-- the answer to the handshake -/
def OkFits (pkt : Bytes) : Prop :=
  pkt.length < 4 ∨ pkt.head? = some 0xff ∨ (pkt.head? = some 0xfe ∧ pkt.length < 9) ∨
    TwoInts pkt.tail

/-- the second packet, if there is one -/
def AnswerFits : List Bytes → Prop
  | [] => True
  | r :: _ => OkFits r

def handshakeLength (user db : Bytes) : Nat :=
  50 + user.length + if db = [] then 0 else db.length + 1

/-- the packets of a connection; the second one is read where the answer to the first is sent -/
def ConnectFits (accepts : List Nat) (n : Nat) (ps : List Bytes) : Prop :=
  match ps with
  | [] => True
  | g :: ps => Greets g → GreetingFits g ∧
      (Sends accepts n = true → AnswerFits ps)

section
variable {α : Type} {m pkt : Bytes} {i n : Nat} {c0 c1 : UInt8} {c : MyConn}

theorem safe_readAt_bind {f : UInt8 → Except Stop α} :
    Safe ((readAt m i).bind f) ↔ i < m.length ∧ Safe (f (m.getD i 0)) := by
  by_cases hi : i < m.length
  · have hr : readAt m i = .ok (m.getD i 0) := by simp [readAt, hi]
    rw [hr, and_iff_right hi]
    rfl
  · have hr : readAt m i = .error .outside := by simp [readAt, hi]
    rw [hr]
    exact iff_of_false not_safe_outside fun h => hi h.1

theorem safe_readRange : Safe (readRange m i n) ↔ i + n ≤ m.length := by
  rw [readRange]
  split
  · next h => exact iff_of_true (safe_ok _) h
  · next h => exact iff_of_false not_safe_outside h

theorem skipVersion_inside (pkt : Bytes) (i : Nat) : skipVersion pkt pkt.length i =
    .ok (i + ((pkt.drop i).takeWhile fun c => c != 0).length) := by
  induction hk : pkt.length - i generalizing i with
  | zero =>
    rw [skipVersion, if_neg (by omega), List.drop_of_length_le (by omega)]
    rfl
  | succ k ih =>
    have hi : i < pkt.length := by omega
    have hr : readAt pkt i = .ok pkt[i] := by simp [readAt, hi]
    rw [skipVersion, if_pos hi, hr, List.drop_eq_getElem_cons hi]
    show (if pkt[i] = 0 then _ else _) = _
    split
    · next h0 =>
      rw [h0]
      rfl
    · next h0 =>
      rw [ih (i + 1) (by omega), List.takeWhile_cons_of_pos (by simpa using h0), List.length_cons,
        Nat.add_right_comm, Nat.add_assoc]

/-- the bit `0x8000` of the capabilities is a bit of their second byte -/
theorem caps_bit (c0 c1 : UInt8) (hi : UInt32) :
    (c0.toUInt32 ||| (c1.toUInt32 <<< 8) ||| (hi <<< 16)) &&& 0x8000 ≠ 0 ↔ 128 ≤ c1.toNat := by
  have h0 := c0.toNat_lt
  have h1 := c1.toNat_lt
  have hand : ((c0.toUInt32 ||| (c1.toUInt32 <<< 8) ||| (hi <<< 16)) &&& 0x8000).toNat =
      ((c0.toUInt32 ||| (c1.toUInt32 <<< 8) ||| (hi <<< 16)).toNat.testBit 15).toNat * 2 ^ 15 := by
    rw [UInt32.toNat_and]
    exact Nat.and_two_pow _ 15
  have hbit : (c0.toUInt32 ||| (c1.toUInt32 <<< 8) ||| (hi <<< 16)).toNat.testBit 15 =
      c1.toNat.testBit 7 := by
    have hlow : c0.toNat.testBit 15 = false := Nat.testBit_lt_two_pow (by omega)
    simp only [UInt32.toNat_or, UInt32.toNat_shiftLeft, Nat.testBit_or, UInt8.toNat_toUInt32, hlow,
      Nat.testBit_mod_two_pow, Nat.testBit_shiftLeft]
    simp
  have htop : c1.toNat.testBit 7 = true ↔ 128 ≤ c1.toNat := by
    rw [Nat.testBit_eq_decide_div_mod_eq, decide_eq_true_iff]
    omega
  rw [← htop, ← hbit, ne_eq, ← UInt32.toNat_inj, hand]
  cases Nat.testBit _ 15 <;> decide

/-- the second part of the salt, from `p` on -/
theorem safe_salt {p : Nat} {f : Bytes → α} {a : α} (hp : p ≤ m.length + 11)
    (hm : m.length < 2 ^ 24) :
    Safe (if 13 ≤ UInt64.ofNat m.length - UInt64.ofNat p then (readRange m p 12).map f
      else .ok a) ↔ p ≤ m.length := by
  have hlen : (UInt64.ofNat m.length).toNat = m.length :=
    Nat.mod_eq_of_lt (show m.length < 18446744073709551616 by omega)
  have hpos : (UInt64.ofNat p).toNat = p :=
    Nat.mod_eq_of_lt (show p < 18446744073709551616 by omega)
  have hremain : (UInt64.ofNat m.length - UInt64.ofNat p).toNat =
      (18446744073709551616 - p + m.length) % 18446744073709551616 := by
    rw [UInt64.toNat_sub, hlen, hpos]
  have h13 : 13 ≤ UInt64.ofNat m.length - UInt64.ofNat p ↔
      13 ≤ (UInt64.ofNat m.length - UInt64.ofNat p).toNat := UInt64.le_iff_toNat_le
  rw [hremain] at h13
  split
  · next h =>
    rw [safe_map, safe_readRange]
    have := h13.mp h
    omega
  · next h =>
    rw [h13] at h
    refine iff_of_true (safe_ok a) ?_
    omega

/-- **The greeting**: what is read of it. -/
theorem safe_greeting (hg : Greets pkt) (hlen : pkt.length < 2 ^ 24) :
    Safe (greetingSalt inside pkt) ↔ GreetingFits pkt := by
  have hz : 1 ≤ versionEnd pkt ∧ versionEnd pkt ≤ pkt.length := by
    have h30 : 30 ≤ pkt.length := by
      by_contra h
      exact hg (Or.inl (by omega))
    have := (List.takeWhile_sublist (l := pkt.drop 1) fun c => c != 0).length_le
    rw [List.length_drop] at this
    unfold versionEnd
    omega
  have hskip : skipVersion pkt pkt.length 1 = .ok (versionEnd pkt) := skipVersion_inside pkt 1
  rw [greetingSalt]
  dsimp only [inside]
  rw [hskip]
  unfold GreetingFits
  generalize versionEnd pkt = z at hz
  have hsalt : ∃ salt1, (if z + 1 + 4 + 8 ≤ pkt.length then readRange pkt (z + 1 + 4) 8
      else .ok (zeros20.take 8)) = .ok salt1 := by
    split
    · next h => exact ⟨_, if_pos h⟩
    · exact ⟨_, rfl⟩
  obtain ⟨salt1, hsalt⟩ := hsalt
  show Safe (Except.bind (if z + 1 + 4 + 8 ≤ pkt.length then readRange pkt (z + 1 + 4) 8
    else .ok (zeros20.take 8)) _) ↔ _
  rw [hsalt]
  show Safe (Except.bind (readAt pkt _) _) ↔ _
  simp only [safe_readAt_bind, caps_bit, Nat.add_assoc, Nat.reduceAdd]
  by_cases h21 : z + 21 ≤ pkt.length
  · have hsafe := safe_salt (m := pkt) (p := z + 32) (f := fun salt2 => salt1 ++ salt2)
      (a := salt1 ++ zeros20.drop 8) (by omega) hlen
    rw [and_iff_right (show z + 14 < pkt.length by omega),
      and_iff_right (show z + 15 < pkt.length by omega),
      and_iff_right (show z + 19 < pkt.length by omega),
      and_iff_right (show z + 20 < pkt.length by omega), and_iff_right h21]
    split
    · next h =>
      rw [hsafe]
      exact ⟨fun hle _ => hle, fun hle => hle h⟩
    · next h => exact iff_of_true (safe_ok _) fun h' => absurd h' h
  · exact iff_of_false (fun h => h21 (by omega)) fun h => h21 h.1

theorem bind_ne_waits {β : Type} {x : Except Stop α} {f : α → Except Stop β}
    (hx : x ≠ .error .waits) (hf : ∀ a, f a ≠ .error .waits) : x.bind f ≠ .error .waits := by
  cases x with
  | error e =>
    intro h
    cases h
    exact hx rfl
  | ok a => exact hf a

theorem readAt_ne_waits (m : Bytes) (i : Nat) : readAt m i ≠ .error .waits := by
  unfold readAt
  split <;> exact fun h => by cases h

theorem readRange_ne_waits (m : Bytes) (i n : Nat) : readRange m i n ≠ .error .waits := by
  unfold readRange
  split <;> exact fun h => by cases h

/-- the greeting is in memory: no read of it waits -/
theorem greetingSalt_ne_waits (pkt : Bytes) : greetingSalt inside pkt ≠ .error .waits := by
  have hok : ∀ b : Bytes, (.ok b : Except Stop Bytes) ≠ .error .waits := fun b h => by cases h
  rw [greetingSalt]
  refine bind_ne_waits ?_ fun z => bind_ne_waits ?_ fun salt1 =>
    bind_ne_waits (readAt_ne_waits _ _) fun c0 => bind_ne_waits (readAt_ne_waits _ _) fun c1 =>
    bind_ne_waits (readAt_ne_waits _ _) fun c2 => bind_ne_waits (readAt_ne_waits _ _) fun c3 => ?_
  · rw [show skipVersion (inside pkt) pkt.length 1 = _ from skipVersion_inside pkt 1]
    exact fun h => by cases h
  · split
    · exact readRange_ne_waits _ _ _
    · exact hok _
  · dsimp only
    split
    · split
      · refine bind_ne_waits (f := fun b => .ok (salt1 ++ b)) (readRange_ne_waits _ _ _) ?_
        exact fun b => hok _
      · exact hok _
    · exact hok _

theorem safe_connectOk : Safe (connectOk inside pkt c) ↔ OkFits pkt := by
  unfold connectOk OkFits
  split
  · next h => exact iff_of_true (safe_ok _) (h.imp_right Or.inl)
  · next h =>
    split
    · next h' => exact iff_of_true (safe_ok _) (.inr (.inr (.inl h')))
    · next h' =>
      rw [not_or] at h
      rw [safe_map, or_iff_right h.1, or_iff_right h.2, or_iff_right h']
      exact safe_okInts

theorem handshake_length (user pass db salt : Bytes) :
    (handshake user pass db salt).length = handshakeLength user db := by
  have hsha : ∀ s : Bytes, (hpSha1Digest s).length = 20 := fun _ => rfl
  have hscramble : (mysqlNativeScramble pass salt).length = 20 := by
    simp [mysqlNativeScramble, hsha]
  unfold handshake handshakeLength
  split
  · simp [hscramble]
    omega
  · simp [hscramble]
    omega

/-- the second packet -/
theorem safe_answer {ps : List Bytes} {r : Bytes} (hc : c.cut = (ps, r)) :
    Safe ((mysqlReadPacket c).bind fun r =>
      if !r.1 then .ok none else connectOk inside r.2.1 r.2.2) ↔ AnswerFits ps := by
  cases ps with
  | nil =>
    rcases mysqlReadPacket_nil hc with ⟨-, hr⟩ | ⟨-, q, hr⟩
    · rw [hr]
      exact iff_of_true safe_waits trivial
    · rw [hr]
      exact iff_of_true (safe_ok _) trivial
  | cons p ps =>
    obtain ⟨fs, q, -, hr, -⟩ := mysqlReadPacket_cons hc
    rw [hr]
    exact safe_connectOk

/-- the answer to the greeting, and the second packet -/
theorem safe_handshake {ps : List Bytes} {r resp : Bytes} (hc : c.cut = (ps, r)) :
    Safe (if !(mysqlSendPacket c resp (UInt32.ofNat resp.length)).1 then .ok none
      else (mysqlReadPacket (mysqlSendPacket c resp (UInt32.ofNat resp.length)).2).bind fun r =>
        if !r.1 then .ok none else connectOk inside r.2.1 r.2.2) ↔
      (Sends c.accepts resp.length = true → AnswerFits ps) := by
  have hcut := (mysqlSendPacket_cut c resp (UInt32.ofNat resp.length)).1
  rw [mysqlSendPacket_sends]
  cases Sends c.accepts resp.length with
  | false => exact iff_of_true (safe_ok _) fun h => by cases h
  | true =>
    rw [Bool.not_true, if_neg Bool.false_ne_true, safe_answer (hcut.trans hc)]
    exact ⟨fun h _ => h, fun h => h rfl⟩

/-- **Connections**, by the packets that come. -/
theorem safe_connect (c : MyConn) (user pass db : Bytes) :
    Safe (mysqlConnectImpl inside c user pass db) ↔
      ConnectFits c.accepts (handshakeLength user db) c.cut.1 := by
  have hshort : ∀ p ∈ c.cut.1, p.length < 2 ^ 24 := cut_length (fun hd => value_lt 3 hd) _
  cases hc : c.cut with
  | mk ps r =>
    have hc0 : MyConn.cut { c with seq := 0, insertId := 0 } = (ps, r) := hc
    rw [hc] at hshort
    unfold mysqlConnectImpl
    cases ps with
    | nil =>
      rcases mysqlReadPacket_nil hc0 with ⟨-, hr⟩ | ⟨-, q, hr⟩
      · rw [hr]
        exact iff_of_true safe_waits trivial
      · rw [hr]
        exact iff_of_true (safe_ok _) trivial
    | cons g ps =>
      obtain ⟨fs, q, hcut, hr, -⟩ := mysqlReadPacket_cons hc0
      rw [hr]
      show Safe (if g.length < 30 ∨ g.head? = some 0xff then _ else _) ↔ (Greets g → _)
      by_cases hg : Greets g
      · rw [if_neg hg, safe_bind, safe_greeting hg (hshort g List.mem_cons_self)]
        refine Iff.trans (and_congr_right fun hfits => ?_) ⟨fun h _ => h, fun h => h hg⟩
        have hsafe := fun salt => @safe_handshake { c with seq := 1, insertId := 0, inbound := fs }
          ps r (handshake user pass db salt) hcut
        constructor
        · intro h
          cases hs : greetingSalt inside g with
          | error e =>
            have hsafe := (safe_greeting hg (hshort g List.mem_cons_self)).mpr hfits
            cases e with
            | waits => exact absurd hs (greetingSalt_ne_waits g)
            | outside => exact absurd hs hsafe
          | ok salt =>
            have hanswer := (hsafe salt).mp (h salt hs)
            rwa [handshake_length] at hanswer
        · intro h salt _
          refine (hsafe salt).mpr ?_
          rwa [handshake_length]
      · rw [if_pos (not_not.mp hg)]
        exact iff_of_true (safe_ok _) fun h => absurd h hg

/-- **Parsing** never leaves a packet just if the packets fit, whatever bytes come. -/
theorem parse_inside (c : MyConn) (junk : Nat → Val) (user pass db sql : Bytes) :
    (Safe (mysqlConnectImpl inside c user pass db) ↔
      ConnectFits c.accepts (handshakeLength user db) c.cut.1) ∧
    (Safe (mysqlQueryImpl inside junk (some c) sql) ↔
      (c.isOpen = true → Sends c.accepts (sql.length + 1) = true → QueryFits c.cut.1 c.part)) :=
  ⟨safe_connect c user pass db, safe_query c junk sql⟩

/-- an OK packet of one byte: the first number is read behind it -/
theorem short_ok : ¬ ∀ (c : MyConn) (junk : Nat → Val) (user pass db sql : Bytes),
    Safe (mysqlConnectImpl inside c user pass db) ∧
      Safe (mysqlQueryImpl inside junk (some c) sql) := by
  intro h
  have hcut : (fresh [4, 2] [[1, 0, 0, 1, 0]]).cut = ([[0]], []) := by
    have hstep := @cut_frame UInt8 4 (value 3) [1, 0, 0, 1] [0] (by decide) rfl (by decide) []
    have hend : cut 4 (value 3) ([] : Bytes) = ([], []) := cut_part (by simp)
    rwa [hend] at hstep
  have hfits := (safe_query (fresh [4, 2] [[1, 0, 0, 1, 0]]) blank [113]).mp
    (h _ blank [] [] [] [113]).2 rfl (by decide)
  rw [hcut] at hfits
  obtain ⟨v, s, -, -, ⟨b, q, e, -⟩, -⟩ := hfits
  cases e

end

end Mysql
end HolyPhp
