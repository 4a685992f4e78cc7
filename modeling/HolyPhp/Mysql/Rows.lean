import HolyPhp.Mysql.Bounds

/-!
# Result sets

* `lencBytes`, `rowBytes`   integers and rows, as the protocol encodes them;
* `ResultSet`               a result set, with its packets;
* `Decodes`                 a query returns its rows.

**`rows_law`**: that holds **if and only if** nothing in it meets the two slips of the code (the mark
of NULL is looked for behind the byte that was already taken for a length, and all columns have one
name) or its tests for the end.
-/

set_option autoImplicit false
set_option linter.unusedVariables false

namespace HolyPhp
namespace Mysql
open Arr Framing HolyPhp.Std

/-! ## the protocol -/

/-- a length-encoded integer -/
def lencBytes (n : Nat) : Bytes :=
  if n < 251 then [UInt8.ofNat n]
  else if n < 2 ^ 16 then 0xfc :: digits 2 n
  else if n < 2 ^ 24 then 0xfd :: digits 3 n
  else 0xfe :: digits 8 n

/-- a cell; `none` is NULL -/
def cellBytes : Option Bytes → Bytes
  | none => [0xfb]
  | some b => lencBytes b.length ++ b

def rowBytes (row : List (Option Bytes)) : Bytes := row.flatMap cellBytes

/-- an EOF packet, or the OK packet in its place -/
def IsEnd (p : Bytes) : Prop := 5 ≤ p.length ∧ p.length < 0xffffff ∧ p.head? = some 0xfe

structure ResultSet where
  ncols : Nat
  defs : List Bytes
  /-- behind the definitions -/
  eof : Option Bytes
  rows : List (List (Option Bytes))
  last : Bytes
  ncols_pos : 1 ≤ ncols
  defs_length : defs.length = ncols
  eof_end : ∀ p ∈ eof, IsEnd p
  rows_length : ∀ row ∈ rows, row.length = ncols
  rows_short : ∀ row ∈ rows, (rowBytes row).length < 2 ^ 24 - 1
  last_end : IsEnd last

/-- behind the definitions and their EOF packet -/
def ResultSet.body (R : ResultSet) : List Bytes := R.rows.map rowBytes ++ [R.last]

def ResultSet.packets (R : ResultSet) : List Bytes :=
  lencBytes R.ncols :: (R.defs ++ (R.eof.toList ++ R.body))

/-! ## what a query returns -/

def cellVal : Option Bytes → Val
  | none => .null
  | some b => .str (some b)

/-- the values of a row, in order -/
def rowVals (row : Harr) : List Val := row.entries.map Prod.snd

/-- the rows, in order, with their values -/
def Decodes (x : Except Stop (Reply × Option MyConn)) (rows : List (List (Option Bytes))) : Prop :=
  ∃ hs c, x = .ok (.rows hs, c) ∧ hs.map rowVals = rows.map fun row => row.map cellVal

/-! ## integers -/

section
variable {n : Nat} {p s : Bytes}

theorem lencBytes_lenc (h : n < 2 ^ 64) (s : Bytes) : Lenc (lencBytes n ++ s) n s := by
  have hdigits : ∀ w, n < 256 ^ w → w ≤ (digits w n ++ s).length ∧ n = value w (digits w n ++ s) ∧
      s = (digits w n ++ s).drop w := by
    intro w hw
    refine ⟨?_, (value_digits_lt hw s).symm, (List.drop_left' (length_digits w n)).symm⟩
    rw [List.length_append, length_digits]
    omega
  unfold lencBytes
  split
  · next h1 =>
    have hb : (UInt8.ofNat n).toNat = n := by
      rw [UInt8.toNat_ofNat']
      omega
    have hlt : UInt8.ofNat n < 0xfb := by
      show (UInt8.ofNat n).toNat < 251
      rwa [hb]
    have hw := lencWidth_small hlt
    refine ⟨UInt8.ofNat n, s, rfl, ?_, ?_, ?_⟩
    · rw [hw]
      exact Nat.zero_le _
    · rw [lencValue, if_pos hlt, hb]
    · rw [hw]
      rfl
  · split
    · exact ⟨0xfc, digits 2 n ++ s, rfl, hdigits 2 (by omega)⟩
    · split
      · exact ⟨0xfd, digits 3 n ++ s, rfl, hdigits 3 (by omega)⟩
      · exact ⟨0xfe, digits 8 n ++ s, rfl, hdigits 8 h⟩

/-- the lead byte of an integer -/
theorem lencBytes_cons (n : Nat) : ∃ b t, lencBytes n = b :: t ∧ b ≠ 0xfb ∧ b ≠ 0xff ∧
    (b = 0 ↔ n = 0) ∧ (b = 0xfe ↔ 2 ^ 24 ≤ n) := by
  unfold lencBytes
  split
  · next h1 =>
    have hb : (UInt8.ofNat n).toNat = n := by
      rw [UInt8.toNat_ofNat']
      omega
    refine ⟨_, _, rfl, ?_⟩
    simp only [ne_eq, ← UInt8.toNat_inj, hb]
    show ¬ n = 251 ∧ ¬ n = 255 ∧ (n = 0 ↔ n = 0) ∧ (n = 254 ↔ 2 ^ 24 ≤ n)
    omega
  · split
    · exact ⟨_, _, rfl, by decide, by decide, by simp; omega, by simp; omega⟩
    · split
      · exact ⟨_, _, rfl, by decide, by decide, by simp; omega, by simp; omega⟩
      · exact ⟨_, _, rfl, by decide, by decide, by simp; omega, by simp; omega⟩

end

/-! ## the rows of one column -/

/-- what the code makes of a cell that is the only one of its row -/
def seen : Option Bytes → Bytes
  | none => []
  | some b => b

section
variable {v : Option Bytes} {b p r : Bytes} {c c' : MyConn} {junk : Nat → Val} {n : Nat}
  {rows : List (Option Bytes)} {acc hs : List Harr} {mem : Bytes → Bytes} {ps : List Bytes}

theorem buffer_cons (b : UInt8) (p : Bytes) : buffer (b :: p) = b :: (p ++ [0]) :=
  if_neg (List.cons_ne_nil b p)

/-- the first byte of a row -/
theorem cellBytes_cons (h : (cellBytes v).length < 2 ^ 24 - 1) :
    ∃ b t, cellBytes v = b :: t ∧ b ≠ 0xfe ∧ (b = 0 ↔ v = some []) := by
  cases v with
  | none => exact ⟨0xfb, [], rfl, by decide, by simp⟩
  | some d =>
    obtain ⟨b, t, hb, -, -, h0, hfe⟩ := lencBytes_cons d.length
    rw [cellBytes, List.length_append] at h
    refine ⟨b, t ++ d, ?_, ?_, ?_⟩
    · rw [cellBytes, hb]
      rfl
    · rw [ne_eq, hfe]
      omega
    · rw [h0, List.length_eq_zero_iff, Option.some.injEq]

/-- **The only cell** of a row: NULL is read as the empty text. -/
theorem cell_only (h : (cellBytes v).length < 2 ^ 24 - 1) :
    ∃ t, cell (cellBytes v ++ [0]) = .ok (.str (some (seen v)), t) := by
  have hzero : ∀ m : Bytes, Lenc m 0 [0] → cell m = .ok (.str (some []), [0]) := by
    intro m hm
    rw [cell_zero hm]
    rfl
  cases v with
  | none => exact ⟨[0], hzero _ ⟨0xfb, [0], rfl, by decide, rfl, rfl⟩⟩
  | some d =>
    rw [cellBytes, List.length_append] at h
    have hl := lencBytes_lenc (show d.length < 2 ^ 64 by omega) (d ++ [0])
    rw [← List.append_assoc] at hl
    by_cases hd : d = []
    · subst hd
      exact ⟨[0], hzero _ hl⟩
    · refine ⟨[0], ?_⟩
      rw [cellBytes, cell_value hl (by simpa using hd), if_pos (by simp), List.take_left,
        List.drop_left]
      rfl

theorem rowCells_only (junk : Nat → Val) (h : (cellBytes v).length < 2 ^ 24 - 1) :
    ∃ row, rowCells 1 (emptyMap junk) (buffer (cellBytes v)) = .ok row ∧
      rowVals row = [.str (some (seen v))] := by
  obtain ⟨b, t, hb, -⟩ := cellBytes_cons h
  obtain ⟨s, hcell⟩ := cell_only h
  obtain ⟨row, hrow, -, hentries⟩ := (RowOk.empty junk).set (.str (some (seen v)))
  have hbuffer : buffer (cellBytes v) = cellBytes v ++ [0] := by
    rw [hb, buffer_cons]
    rfl
  refine ⟨row, ?_, ?_⟩
  · rw [hbuffer, rowCells_step hcell hrow]
    rfl
  · rw [rowVals, hentries]
    rfl

/-- the loop only adds rows, with one entry at most -/
theorem rowLoop_adds (hc : c.cut = (ps, r)) (h : rowLoop mem junk n c acc = .ok (hs, c')) :
    ∃ new, hs = acc ++ new ∧ ∀ row ∈ new, RowOk row := by
  induction ps generalizing c acc with
  | nil =>
    rcases mysqlReadPacket_nil hc with ⟨-, hr⟩ | ⟨-, q, hr⟩
    · rw [rowLoop_error hr] at h
      cases h
    · rw [rowLoop_fail hr] at h
      cases h
      exact ⟨[], (List.append_nil _).symm, by simp⟩
  | cons p ps ih =>
    obtain ⟨fs, q, hcut, hr, -⟩ := mysqlReadPacket_cons hc
    rw [rowLoop_packet hr] at h
    split at h
    · cases h
      exact ⟨[], (List.append_nil _).symm, by simp⟩
    · split at h
      · cases ho : okInts (mem p).tail with
        | error e =>
          rw [ho] at h
          cases h
        | ok a =>
          rw [ho] at h
          cases h
          exact ⟨[], (List.append_nil _).symm, by simp⟩
      · rcases rowCells_spec n (.empty junk) (mem p) with ⟨row, hrow, hok, -⟩ | ⟨hrow, -⟩
        · rw [hrow] at h
          obtain ⟨new, rfl, hnew⟩ := ih hcut h
          refine ⟨row :: new, ?_, ?_⟩
          · rw [List.append_assoc]
            rfl
          · exact List.forall_mem_cons.mpr ⟨hok, hnew⟩
        · rw [hrow] at h
          cases h

/-- neither NULL nor empty -/
def Full (v : Option Bytes) : Prop := ∃ b, v = some b ∧ b ≠ []

theorem rowBytes_singleton (v : Option Bytes) : rowBytes [v] = cellBytes v := List.append_nil _

variable (junk acc) in
/-- **The loop over rows of one column**: they are decoded just if every cell is full. -/
theorem rowLoop_column {last : Bytes} (hlast : IsEnd last)
    (hshort : ∀ v ∈ rows, (cellBytes v).length < 2 ^ 24 - 1)
    (hc : c.cut = (rows.map (fun v => cellBytes v) ++ [last], r)) :
    (∃ hs c', rowLoop buffer junk 1 c acc = .ok (hs, c') ∧
      hs.map rowVals = acc.map rowVals ++ rows.map fun v => [cellVal v]) ↔ ∀ v ∈ rows, Full v := by
  induction rows generalizing c acc with
  | nil =>
    obtain ⟨fs, q, hcut, hr, -⟩ := mysqlReadPacket_cons hc
    refine iff_of_true ?_ (by simp)
    rw [rowLoop_packet hr, if_pos ⟨hlast.1, hlast.2.2⟩]
    exact ⟨acc, _, rfl, (List.append_nil _).symm⟩
  | cons v rows ih =>
    obtain ⟨fs, q, hcut, hr, -⟩ := mysqlReadPacket_cons hc
    have hv := hshort v List.mem_cons_self
    obtain ⟨b, t, hb, hfe, h0⟩ := cellBytes_cons hv
    obtain ⟨row, hrow, hvals⟩ := rowCells_only junk hv
    have hnot : ¬ (5 ≤ (cellBytes v).length ∧ (cellBytes v).head? = some 0xfe) := by
      rw [hb]
      simp [hfe]
    rw [rowLoop_packet hr, if_neg hnot, hrow, List.forall_mem_cons]
    by_cases hempty : v = some []
    · -- the row is taken for an OK packet, whose second number is behind the memory
      have hhead : (cellBytes v).head? = some 0 := by
        rw [hb, h0.mpr hempty]
        rfl
      subst hempty
      have hout : okInts (buffer (cellBytes (some []))).tail = .error .outside := rfl
      rw [if_pos hhead, hout]
      refine iff_of_false ?_ ?_
      · rintro ⟨hs, c', h, -⟩
        cases h
      · rintro ⟨⟨d, hd, hne⟩, -⟩
        exact hne (Option.some.inj hd).symm
    · have hhead : ¬ (cellBytes v).head? = some 0 := by
        rw [hb]
        simpa [h0] using hempty
      rw [if_neg hhead]
      have hrest := @ih { c with seq := q, inbound := fs } (acc ++ [row])
        (fun w hw => hshort w (List.mem_cons_of_mem v hw)) hcut
      show (∃ hs c', rowLoop buffer junk 1 _ (acc ++ [row]) = .ok (hs, c') ∧ _) ↔ _
      cases v with
      | none =>
        refine iff_of_false ?_ ?_
        · rintro ⟨hs, c', h, heq⟩
          obtain ⟨new, rfl, -⟩ := rowLoop_adds hcut h
          rw [List.append_assoc, List.map_append] at heq
          have hhd := List.append_cancel_left heq
          rw [List.singleton_append, List.map_cons, List.map_cons, hvals] at hhd
          cases (List.cons.inj hhd).1
        · rintro ⟨⟨d, hd, -⟩, -⟩
          cases hd
      | some d =>
        have hfull : Full (some d) := ⟨d, rfl, fun e => hempty (by rw [e])⟩
        rw [and_iff_right hfull, ← hrest, List.map_append, List.map_singleton, hvals]
        simp only [List.append_assoc]
        rfl

end

/-! ## result sets -/

section
variable {v : Option Bytes} {e last p r : Bytes} {c c' : MyConn} {junk : Nat → Val} {n : Nat}
  {rows : List (Option Bytes)} {hs : List Harr} {mem : Bytes → Bytes} {ps : List Bytes}

theorem IsEnd.isEof (h : IsEnd e) : isEof e = true := by
  obtain ⟨h1, h2, h3⟩ := h
  simp [Mysql.isEof, h1, h2, h3]

variable (junk n mem) in
/-- an EOF packet behind the definitions -/
theorem resultSet_eof (hc : c.cut = (e :: ps, r)) (he : IsEnd e) :
    ∃ d, d.cut = (ps, r) ∧ d.closed = c.closed ∧
      resultSet mem junk n c = rowLoop mem junk n d [] := by
  obtain ⟨fs, q, hcut, hr, -⟩ := mysqlReadPacket_cons hc
  refine ⟨_, hcut, rfl, ?_⟩
  rw [resultSet_read hr, he.isEof]
  rfl

variable (junk n mem) in
/-- a row behind the definitions -/
theorem resultSet_row (hc : c.cut = (p :: ps, r)) (hp : p ≠ []) (hfe : p.head? ≠ some 0xfe) :
    ∃ d, d.cut = (ps, r) ∧ resultSet mem junk n c =
      (rowCells n (emptyMap junk) (mem p)).bind fun row => rowLoop mem junk n d [row] := by
  obtain ⟨fs, q, hcut, hr, -⟩ := mysqlReadPacket_cons hc
  have hno : isEof p = false := by simp [isEof, hfe]
  refine ⟨_, hcut, ?_⟩
  rw [resultSet_read hr, hno, if_neg (by simpa using hp)]

/-- a row has one entry at most -/
theorem resultSet_rowOk (h : resultSet mem junk n c = .ok (hs, c')) : ∀ row ∈ hs, RowOk row := by
  have hloop : ∀ {d : MyConn} {acc : List Harr}, (∀ row ∈ acc, RowOk row) →
      rowLoop mem junk n d acc = .ok (hs, c') → ∀ row ∈ hs, RowOk row := by
    intro d acc hacc hd
    obtain ⟨new, rfl, hnew⟩ := rowLoop_adds (Prod.ext rfl rfl : d.cut = (d.cut.1, d.cut.2)) hd
    intro row hrow
    rcases List.mem_append.mp hrow with hrow | hrow
    · exact hacc row hrow
    · exact hnew row hrow
  unfold resultSet at h
  cases hr : mysqlReadPacket c with
  | error e =>
    rw [hr] at h
    cases h
  | ok a =>
    rw [hr] at h
    change (if _ then _ else _) = _ at h
    split at h
    · exact hloop (by simp) h
    · rcases rowCells_spec n (.empty junk) (mem a.2.1) with ⟨row, hrow, hok, -⟩ | ⟨hrow, -⟩
      · rw [hrow] at h
        exact hloop (by simpa using hok) h
      · rw [hrow] at h
        cases h

/-- the end of a result set without rows; where no EOF packet is in front of it, it is taken for
that, and one more packet is awaited -/
theorem rowLoop_end (hc : c.cut = ([], [])) :
    (∃ hs c', rowLoop mem junk n c [] = .ok (hs, c') ∧ hs.map rowVals = []) ↔
      c.closed = true := by
  rcases mysqlReadPacket_nil hc with ⟨hcl, hr⟩ | ⟨hcl, q, hr⟩
  · rw [rowLoop_error hr, hcl]
    refine iff_of_false ?_ Bool.false_ne_true
    rintro ⟨hs, c', h, -⟩
    cases h
  · rw [rowLoop_fail hr]
    exact iff_of_true ⟨[], _, rfl, rfl⟩ hcl

/-- **No rows** -/
theorem resultSet_none {eof : Option Bytes} (heof : ∀ e ∈ eof, IsEnd e) (hlast : IsEnd last)
    (hc : c.cut = (eof.toList ++ [last], [])) :
    (∃ hs c', resultSet mem junk n c = .ok (hs, c') ∧ hs.map rowVals = []) ↔
      (eof.isSome = true ∨ c.closed = true) := by
  cases eof with
  | none =>
    obtain ⟨d, hd, hcl, hset⟩ := resultSet_eof junk n mem hc hlast
    rw [hset, rowLoop_end hd, hcl]
    simp
  | some e =>
    obtain ⟨d, hd, -, hset⟩ := resultSet_eof junk n mem hc
      (heof e rfl)
    obtain ⟨fs, q, hcut, hr, -⟩ := mysqlReadPacket_cons hd
    rw [hset, rowLoop_packet hr, if_pos ⟨hlast.1, hlast.2.2⟩]
    exact iff_of_true ⟨[], _, rfl, rfl⟩ (Or.inl rfl)

/-- **One column**, with an EOF packet behind the definitions. -/
theorem resultSet_column_eof (he : IsEnd e) (hlast : IsEnd last)
    (hshort : ∀ v ∈ rows, (cellBytes v).length < 2 ^ 24 - 1)
    (hc : c.cut = (e :: (rows.map (fun v => cellBytes v) ++ [last]), [])) :
    (∃ hs c', resultSet buffer junk 1 c = .ok (hs, c') ∧
      hs.map rowVals = rows.map fun v => [cellVal v]) ↔ ∀ v ∈ rows, Full v := by
  obtain ⟨d, hd, -, hset⟩ := resultSet_eof junk 1 buffer hc he
  rw [hset]
  exact rowLoop_column junk _ hlast hshort hd

/-- **One column**, without an EOF packet: the first row is not tested for an end. -/
theorem resultSet_column (hlast : IsEnd last)
    (hshort : ∀ w ∈ v :: rows, (cellBytes w).length < 2 ^ 24 - 1)
    (hc : c.cut = (cellBytes v :: (rows.map (fun v => cellBytes v) ++ [last]), [])) :
    (∃ hs c', resultSet buffer junk 1 c = .ok (hs, c') ∧
      hs.map rowVals = [cellVal v] :: rows.map fun v => [cellVal v]) ↔
      (v ≠ none ∧ ∀ w ∈ rows, Full w) := by
  have hv := hshort v List.mem_cons_self
  obtain ⟨b, t, hb, hfe, -⟩ := cellBytes_cons hv
  obtain ⟨row, hrow, hvals⟩ := rowCells_only junk hv
  obtain ⟨d, hd, hset⟩ := resultSet_row junk 1 buffer hc
    (by rw [hb]; exact List.cons_ne_nil b t) (by rw [hb]; simpa using hfe)
  have hrest := rowLoop_column junk [row] hlast
    (fun w hw => hshort w (List.mem_cons_of_mem v hw)) hd
  rw [hset, hrow]
  show (∃ hs c', rowLoop buffer junk 1 d [row] = .ok (hs, c') ∧ _) ↔ _
  cases v with
  | none =>
    refine iff_of_false ?_ (fun h => h.1 rfl)
    rintro ⟨hs, c', h, heq⟩
    obtain ⟨new, rfl, -⟩ := rowLoop_adds hd h
    rw [List.singleton_append, List.map_cons, hvals] at heq
    cases (List.cons.inj heq).1
  | some w =>
    rw [and_iff_right (by simp), ← hrest, List.map_singleton, hvals]
    rfl

end

/-! ## queries -/

/-- the result sets that are decoded: without rows, or of one column whose cells are neither NULL
nor empty; a first row that follows the definitions at once may be empty -/
def ResultSet.Simple (R : ResultSet) (closed : Bool) : Prop :=
  R.ncols < 2 ^ 24 ∧
    if R.rows = [] then R.eof.isSome = true ∨ closed = true
    else R.ncols = 1 ∧ ∀ i row, R.rows[i]? = some row → ∀ v ∈ row,
      v ≠ none ∧ (v = some [] → i = 0 ∧ R.eof = none)

section
variable {R : ResultSet} {c d : MyConn} {junk : Nat → Val} {sql : Bytes}
  {rows : List (List (Option Bytes))}

theorem reply_count {mem : Bytes → Bytes} {b : UInt8} {t : Bytes}
    (hr : mysqlReadPacket c = .ok (true, b :: t, d)) (hff : b ≠ 0xff) (h0 : b ≠ 0)
    (hfe : b ≠ 0xfe) : reply mem junk c = (myLencInt (mem (b :: t))).bind fun n =>
      (skipDefs n.1.toNat d).bind fun d =>
        if !d.1 then .ok (.fail, d.2)
        else (resultSet mem junk n.1.toNat d.2).map fun s => (.rows s.1, s.2) := by
  rw [reply, hr]
  show (if b = 0xff then _ else if b = 0 ∨ b = 0xfe then _ else _) = _
  rw [if_neg hff, if_neg (by simp [h0, hfe])]

variable (junk) in
/-- **The reply** to a command: the rows, or the number of rows of a command without any. -/
theorem query_resultSet (hopen : c.isOpen = true) (hsent : Sends c.accepts (sql.length + 1) = true)
    (hc : c.cut = (R.packets, [])) (hn : R.ncols < 2 ^ 24) :
    ∃ d, d.cut = (R.eof.toList ++ R.body, []) ∧ d.closed = c.closed ∧
      mysqlQueryImpl buffer junk (some c) sql =
        (resultSet buffer junk R.ncols d).map fun s => (.rows s.1, some s.2) := by
  obtain ⟨d0, hcut, hcl, hd0⟩ := query_reply buffer junk hopen hsent
  rw [hc] at hcut
  obtain ⟨fs, q, hcut1, hr, -⟩ := mysqlReadPacket_cons hcut
  obtain ⟨b, t, hb, -, hff, h0, hfe⟩ := lencBytes_cons R.ncols
  have hpos := R.ncols_pos
  have hlenc := lencBytes_lenc (show R.ncols < 2 ^ 64 by omega) [0]
  have hlen : R.ncols ≤ (R.defs ++ (R.eof.toList ++ R.body)).length := by
    rw [List.length_append, R.defs_length]
    omega
  have hbuffer : buffer (lencBytes R.ncols) = lencBytes R.ncols ++ [0] := by
    rw [hb]
    exact buffer_cons b t
  rcases skipDefs_spec R.ncols hcut1 with ⟨-, d, hd, hcut2, hcl2⟩ | ⟨hlt, -⟩
  · refine ⟨d, ?_, hcl2.trans hcl, ?_⟩
    · rw [hcut2, List.drop_left' R.defs_length]
    · rw [hb] at hr
      rw [hd0, reply_count hr hff (by rw [ne_eq, h0]; omega) (by rw [ne_eq, hfe]; omega), ← hb,
        hbuffer, hlenc.ok]
      show ((skipDefs (UInt64.ofNat R.ncols).toNat _).bind _).map _ = _
      rw [hlenc.toNat, hd]
      show ((resultSet buffer junk R.ncols d).map _).map _ = _
      cases resultSet buffer junk R.ncols d <;> rfl
  · omega

/-- a column count that is too wide is taken for an OK packet -/
theorem query_wide (hopen : c.isOpen = true) (hsent : Sends c.accepts (sql.length + 1) = true)
    (hc : c.cut = (R.packets, [])) (hn : 2 ^ 24 ≤ R.ncols) :
    ¬ Decodes (mysqlQueryImpl buffer junk (some c) sql) rows := by
  obtain ⟨d0, hcut, -, hd0⟩ := query_reply buffer junk hopen hsent
  rw [hc] at hcut
  obtain ⟨fs, q, -, hr, -⟩ := mysqlReadPacket_cons hcut
  obtain ⟨b, t, hb, -, -, -, hfe⟩ := lencBytes_cons R.ncols
  rw [hb, hfe.mpr hn] at hr
  rintro ⟨hs, c', h, -⟩
  rw [hd0, reply, hr] at h
  change ((okInts (buffer (0xfe :: t)).tail).map _).map _ = _ at h
  cases ho : okInts (buffer (0xfe :: t)).tail with
  | error e =>
    rw [ho] at h
    cases h
  | ok a =>
    rw [ho] at h
    cases h

/-! what a cell must be, at its place -/

/-- the cells of one column, of which only the first may be empty -/
def Cell1 (eof : Option Bytes) (i : Nat) (v : Option Bytes) : Prop :=
  v ≠ none ∧ (v = some [] → i = 0 ∧ eof = none)

theorem cell1_full {eof : Option Bytes} {i : Nat} {v : Option Bytes} (h : ¬ (i = 0 ∧ eof = none)) :
    Cell1 eof i v ↔ Full v := by
  unfold Cell1 Full
  cases v with
  | none => simp
  | some b => simp [h]

theorem singletons (h : ∀ row ∈ rows, row.length = 1) : ∃ vs : List (Option Bytes), rows = vs.map fun v => [v] := by
  induction rows with
  | nil => exact ⟨[], rfl⟩
  | cons row rows ih =>
    obtain ⟨vs, rfl⟩ := ih fun r hr => h r (List.mem_cons_of_mem row hr)
    obtain ⟨v, rfl⟩ := List.length_eq_one_iff.mp (h row List.mem_cons_self)
    exact ⟨v :: vs, rfl⟩

theorem forall_singletons {P : Nat → Option Bytes → Prop} {vs : List (Option Bytes)} :
    (∀ i row, (vs.map fun v => [v])[i]? = some row → ∀ v ∈ row, P i v) ↔
      ∀ i v, vs[i]? = some v → P i v := by
  constructor
  · intro h i v hv
    exact h i [v] (by simp [hv]) v List.mem_cons_self
  · intro h i row hrow v hv
    rw [List.getElem?_map, Option.map_eq_some_iff] at hrow
    obtain ⟨w, hw, rfl⟩ := hrow
    obtain rfl := List.mem_singleton.mp hv
    exact h i v hw

/-- **One column** -/
theorem resultSet_one {eof : Option Bytes} {last : Bytes} {vs : List (Option Bytes)}
    (heof : ∀ e ∈ eof, IsEnd e) (hlast : IsEnd last) (hvs : vs ≠ [])
    (hshort : ∀ v ∈ vs, (cellBytes v).length < 2 ^ 24 - 1)
    (hc : c.cut = (eof.toList ++ (vs.map (fun v => cellBytes v) ++ [last]), [])) :
    (∃ hs c', resultSet buffer junk 1 c = .ok (hs, c') ∧
      hs.map rowVals = vs.map fun v => [cellVal v]) ↔ ∀ i v, vs[i]? = some v → Cell1 eof i v := by
  cases eof with
  | some e =>
    rw [resultSet_column_eof (heof e rfl) hlast hshort hc]
    have hfull : ∀ i v, Cell1 (some e) i v ↔ Full v := fun i v => cell1_full (by simp)
    simp only [hfull]
    exact ⟨fun h i v hv => h v (List.mem_of_getElem? hv), fun h v hv => by
      obtain ⟨i, hi⟩ := List.mem_iff_getElem?.mp hv
      exact h i v hi⟩
  | none =>
    cases vs with
    | nil => exact absurd rfl hvs
    | cons v vs =>
      rw [List.map_cons, resultSet_column hlast hshort hc]
      constructor
      · rintro ⟨hv, hrest⟩ i w hw
        cases i with
        | zero =>
          obtain rfl : v = w := by simpa using hw
          exact ⟨hv, fun _ => ⟨rfl, rfl⟩⟩
        | succ i => exact (cell1_full (by simp)).mpr (hrest w (List.mem_of_getElem? hw))
      · intro h
        refine ⟨(h 0 v rfl).1, fun w hw => ?_⟩
        obtain ⟨i, hi⟩ := List.mem_iff_getElem?.mp hw
        exact (cell1_full (by simp)).mp (h (i + 1) w hi)

/-- **Result sets**: the rows are decoded just if the result set is simple. -/
theorem decodes_iff (R : ResultSet) (hopen : c.isOpen = true)
    (hsent : Sends c.accepts (sql.length + 1) = true) (hc : c.cut = (R.packets, [])) :
    Decodes (mysqlQueryImpl buffer junk (some c) sql) R.rows ↔ R.Simple c.closed := by
  unfold ResultSet.Simple
  by_cases hn : R.ncols < 2 ^ 24
  · obtain ⟨d, hd, hcl, hq⟩ := query_resultSet junk hopen hsent hc hn
    have hdec : Decodes (mysqlQueryImpl buffer junk (some c) sql) R.rows ↔
        ∃ hs c', resultSet buffer junk R.ncols d = .ok (hs, c') ∧
          hs.map rowVals = R.rows.map fun row => row.map cellVal := by
      rw [hq]
      cases resultSet buffer junk R.ncols d with
      | error e =>
        refine iff_of_false ?_ ?_
        · rintro ⟨hs, c', h, -⟩
          cases h
        · rintro ⟨hs, c', h, -⟩
          cases h
      | ok a =>
        constructor
        · rintro ⟨hs, c', h, heq⟩
          cases h
          exact ⟨_, _, rfl, heq⟩
        · rintro ⟨hs, c', h, heq⟩
          cases h
          exact ⟨_, _, rfl, heq⟩
    rw [hdec, and_iff_right hn]
    split
    · next h0 =>
      rw [ResultSet.body, h0] at hd
      rw [h0, ← hcl]
      exact resultSet_none R.eof_end R.last_end hd
    · next h0 =>
      by_cases h1 : R.ncols = 1
      · obtain ⟨vs, hvs⟩ := singletons fun row hr => (R.rows_length row hr).trans h1
        have hshort : ∀ v ∈ vs, (cellBytes v).length < 2 ^ 24 - 1 := by
          intro v hv
          have hrow := R.rows_short [v] (by rw [hvs]; exact List.mem_map_of_mem hv)
          rwa [rowBytes_singleton] at hrow
        have hbody : R.body = vs.map (fun v => cellBytes v) ++ [R.last] := by
          rw [ResultSet.body, hvs, List.map_map]
          simp only [Function.comp_def, rowBytes_singleton]
        rw [hbody] at hd
        rw [and_iff_right h1, h1, hvs, forall_singletons, List.map_map]
        rw [hvs] at h0
        exact resultSet_one R.eof_end R.last_end (by simpa using h0) hshort hd
      · refine iff_of_false ?_ fun h => h1 h.1
        rintro ⟨hs, c', h, heq⟩
        -- the names of the columns are one key: no row has two entries
        have hlen : ∀ row ∈ R.rows, row.length ≤ 1 := by
          intro row hrow
          have hmem : row.map cellVal ∈ hs.map rowVals := by
            rw [heq]
            exact List.mem_map_of_mem hrow
          obtain ⟨b, hb, hbe⟩ := List.mem_map.mp hmem
          have hl := congrArg List.length hbe
          rw [List.length_map, rowVals, List.length_map] at hl
          rcases (resultSet_rowOk h b hb).entries with e | ⟨v, e⟩ <;> rw [e] at hl <;>
            simp at hl <;> omega
        obtain ⟨row, hrow⟩ := List.exists_mem_of_ne_nil _ h0
        have hle := hlen row hrow
        rw [R.rows_length row hrow] at hle
        have := R.ncols_pos
        omega
  · exact iff_of_false (query_wide hopen hsent hc (Nat.le_of_not_lt hn)) fun h => hn h.1

/-- **Rows**: a query whose reply is the result set returns its rows, in order, with their values
and NULLs, just if the result set is simple. -/
theorem rows_law (R : ResultSet) (hopen : c.isOpen = true)
    (hsent : Sends c.accepts (sql.length + 1) = true) (hc : c.cut = (R.packets, [])) :
    Decodes (mysqlQueryImpl buffer junk (some c) sql) R.rows ↔ R.Simple c.closed :=
  decodes_iff R hopen hsent hc

/-- `SELECT` of one value -/
def oneCell (v : Option Bytes) (h : (rowBytes [v]).length < 2 ^ 24 - 1) : ResultSet where
  ncols := 1
  defs := [[1]]
  eof := some [0xfe, 0, 0, 2, 0]
  rows := [[v]]
  last := [0xfe, 0, 0, 2, 0]
  ncols_pos := Nat.le_refl 1
  defs_length := rfl
  eof_end := by simp [IsEnd]
  rows_length := by simp
  rows_short := by simpa using h
  last_end := by simp [IsEnd]

/-- the connection on which it comes, as one fragment -/
def oneConn (R : ResultSet) : MyConn := fresh [4, 2] [frames 1 R.packets]

theorem oneConn_cut {R : ResultSet} (h : ∀ p ∈ R.packets, p.length < 2 ^ 24) :
    (oneConn R).cut = (R.packets, []) := by
  have hflat : (oneConn R).inbound.flatten = frames 1 R.packets := List.append_nil _
  rw [MyConn.cut, hflat, cut_frames h]

/-- the text `a` -/
theorem rows_law_text :
    (oneConn (oneCell (some [97]) (by decide))).isOpen = true ∧
    Sends (oneConn (oneCell (some [97]) (by decide))).accepts 2 = true ∧
    (oneConn (oneCell (some [97]) (by decide))).cut =
      ((oneCell (some [97]) (by decide)).packets, []) ∧
    Decodes (mysqlQueryImpl buffer blank (some (oneConn (oneCell (some [97]) (by decide)))) [113])
      [[some [97]]] := by
  have hcut : (oneConn (oneCell (some [97]) (by decide))).cut =
      ((oneCell (some [97]) (by decide)).packets, []) := oneConn_cut (by decide)
  have hsent : Sends (oneConn (oneCell (some [97]) (by decide))).accepts 2 = true := by decide
  have hlaw := @rows_law (oneConn (oneCell (some [97]) (by decide))) blank [113]
    (oneCell (some [97]) (by decide)) rfl hsent hcut
  refine ⟨?_, ?_, ?_, hlaw.mpr ?_⟩
  · rfl
  · exact hsent
  · exact hcut
  have hne : ¬ (oneCell (some [97]) (by decide)).rows = [] := List.cons_ne_nil _ _
  rw [ResultSet.Simple, if_neg hne]
  refine ⟨?_, ?_, fun i row hrow v hv => ?_⟩
  · show 1 < 2 ^ 24
    decide
  · rfl
  obtain rfl := List.mem_singleton.mp (List.mem_of_getElem? hrow)
  obtain rfl := List.mem_singleton.mp hv
  simp

/-- NULL is returned as the empty text -/
theorem null_lost :
    ¬ ∀ (R : ResultSet) (c : MyConn) (junk : Nat → Val) (sql : Bytes), c.isOpen = true →
      Sends c.accepts (sql.length + 1) = true → c.cut = (R.packets, []) →
      Decodes (mysqlQueryImpl buffer junk (some c) sql) R.rows := by
  intro h
  have hcut : (oneConn (oneCell none (by decide))).cut =
      ((oneCell none (by decide)).packets, []) := oneConn_cut (by decide)
  have hsent : Sends (oneConn (oneCell none (by decide))).accepts 2 = true := by decide
  have hdec := h (oneCell none (by decide)) _ blank [113] rfl hsent hcut
  have hiff := @decodes_iff (oneConn (oneCell none (by decide))) blank [113]
    (oneCell none (by decide)) rfl hsent hcut
  have hcells := (hiff.mp hdec).2
  have hne : ¬ (oneCell none (by decide)).rows = [] := List.cons_ne_nil _ _
  rw [if_neg hne] at hcells
  exact (hcells.2 0 [none] rfl none List.mem_cons_self).1 rfl

end

end Mysql
end HolyPhp
