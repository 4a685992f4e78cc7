import HolyPhp.Json.Encode

/-!
# What `hpbi_json_encode` writes is JSON when ...

`scan` walks over a text, in and out of strings, and stops at a raw control character in a string.
It gets to the end of every text of the grammar (`scan_text`); so a value with such a character is
not written as JSON, also when the character is a NUL, which ends the text.
-/

set_option linter.unusedVariables false

namespace HolyPhp
namespace Std
open Arr hiding Key
open Str Json

/-! ## the scanner -/

/-- `none`: a control character in a string; else whether the text ends in a string.  A NUL outside
a string ends it. -/
def scan : Bool → Bytes → Option Bool
  | b, [] => some b
  | false, c :: cs =>
    if c = 0 then some false
    else if c = 34 then scan true cs
    else scan false cs
  | true, 92 :: e :: cs => scan true cs
  | true, c :: cs =>
    if c.toNat < 32 then none
    else if c = 34 then scan false cs
    else scan true cs

section
variable {l s rest : Bytes} {c : UInt8}

theorem scan_skip (hl : ∀ c ∈ l, c ≠ 0 ∧ c ≠ 34) : scan false (l ++ rest) = scan false rest := by
  induction l with
  | nil => rfl
  | cons c l ih =>
    obtain ⟨h0, h34⟩ := hl c List.mem_cons_self
    rw [List.cons_append, scan, if_neg h0, if_neg h34,
      ih fun d hd => hl d (List.mem_cons_of_mem c hd)]

theorem scan_raw (h34 : c ≠ 34) (h92 : c ≠ 92) :
    scan true (c :: rest) = if c.toNat < 32 then none else scan true rest := by
  rw [scan]
  · rw [if_neg h34]
  · exact fun e _ h => absurd h h92

theorem scan_plain (h32 : 32 ≤ c.toNat) (h34 : c ≠ 34) (h92 : c ≠ 92) :
    scan true (c :: rest) = scan true rest := by
  rw [scan_raw h34 h92, if_neg (Nat.not_lt.mpr h32)]

theorem hex_byte (d : Hex) : 32 ≤ d.byte.toNat ∧ d.byte ≠ 34 ∧ d.byte ≠ 92 := by
  obtain ⟨v, u⟩ := d
  revert v u
  decide

/-- an escape keeps the scanner in the string -/
theorem scan_seq {x : Ch} (hx : ∀ b, x ≠ .raw b) :
    scan true (x.text ++ rest) = scan true rest := by
  cases x with
  | raw b => exact absurd rfl (hx b)
  | esc e => rfl
  | hex a b c d =>
    obtain ⟨ha, ha34, ha92⟩ := hex_byte a
    obtain ⟨hb, hb34, hb92⟩ := hex_byte b
    obtain ⟨hc, hc34, hc92⟩ := hex_byte c
    obtain ⟨hd, hd34, hd92⟩ := hex_byte d
    show scan true (a.byte :: b.byte :: c.byte :: d.byte :: rest) = _
    rw [scan_plain ha ha34 ha92, scan_plain hb hb34 hb92, scan_plain hc hc34 hc92,
      scan_plain hd hd34 hd92]

/-- the raw characters of a string are no control characters -/
def NoControl (s : List Ch) : Prop := ∀ b, .raw b ∈ s → 32 ≤ b.toNat

/-- no raw quotes and backslashes -/
def NoQuote (s : List Ch) : Prop := ∀ b, .raw b ∈ s → b ≠ 34 ∧ b ≠ 92

theorem noControl_cons {x : Ch} {t : List Ch} :
    NoControl (x :: t) ↔ (∀ b, x = .raw b → 32 ≤ b.toNat) ∧ NoControl t := by
  simp only [NoControl, List.mem_cons, or_imp, forall_and]
  constructor
  · exact fun h => ⟨fun b hb => h.1 b hb.symm, h.2⟩
  · exact fun h => ⟨fun b hb => h.1 b hb.symm, h.2⟩

open Classical in
theorem scan_string {t : List Ch} (ht : NoQuote t) :
    scan false (string t ++ rest) = if NoControl t then scan false rest else none := by
  have key : scan true (chars t ++ 34 :: rest) = if NoControl t then scan false rest else none := by
    induction t with
    | nil =>
      have : NoControl [] := fun b hb => by cases hb
      rw [if_pos this]
      rfl
    | cons x t ih =>
      have ih := ih fun b hb => ht b (List.mem_cons_of_mem x hb)
      have hc : chars (x :: t) ++ 34 :: rest = x.text ++ (chars t ++ 34 :: rest) := by
        rw [← List.append_assoc]
        rfl
      rw [hc]
      by_cases hx : ∃ b, x = .raw b
      · obtain ⟨b, rfl⟩ := hx
        obtain ⟨h34, h92⟩ := ht b List.mem_cons_self
        refine (scan_raw h34 h92).trans ?_
        by_cases h32 : b.toNat < 32
        · have hn : ¬ NoControl (.raw b :: t) := fun h =>
            absurd (h b List.mem_cons_self) (Nat.not_le.mpr h32)
          rw [if_pos h32, if_neg hn]
        · rw [if_neg h32]
          refine ih.trans
            (if_congr (noControl_cons.trans (and_iff_right fun c hc => ?_)).symm rfl rfl)
          exact Ch.raw.inj hc ▸ Nat.not_lt.mp h32
      · rw [scan_seq fun b h => hx ⟨b, h⟩]
        refine ih.trans (if_congr (noControl_cons.trans (and_iff_right fun b h => ?_)).symm rfl rfl)
        exact absurd ⟨b, h⟩ hx
  rw [string, List.cons_append, List.append_assoc]
  exact key

/-- a text without its tail behind a NUL: a control character in a string is still there, or the
string does not end -/
theorem scan_takeWhile (b : Bool) (hs : scan b s = none) :
    scan b (s.takeWhile (· ≠ 0)) ≠ some false := by
  induction b, s using scan.induct with
  | case1 b => cases hs
  | case2 cs =>
    rw [scan, if_pos rfl] at hs
    cases hs
  | case3 cs h0 ih =>
    rw [scan, if_neg h0, if_pos rfl] at hs
    rw [List.takeWhile_cons_of_pos rfl, scan, if_neg h0, if_pos rfl]
    exact ih hs
  | case4 c cs h0 h34 ih =>
    rw [scan, if_neg h0, if_neg h34] at hs
    rw [List.takeWhile_cons_of_pos (by simpa using h0), scan, if_neg h0, if_neg h34]
    exact ih hs
  | case5 e cs ih =>
    rw [scan] at hs
    rw [List.takeWhile_cons_of_pos rfl]
    by_cases h0 : e = 0
    · rw [List.takeWhile_cons_of_neg (by simpa using h0)]
      decide
    · rw [List.takeWhile_cons_of_pos (by simpa using h0)]
      exact ih hs
  | case6 c cs h92 h32 =>
    by_cases h0 : c = 0
    · rw [List.takeWhile_cons_of_neg (by simpa using h0)]
      decide
    · have h34 : c ≠ 34 := fun h => absurd h32 (h ▸ by decide)
      have h92 : c ≠ 92 := fun h => absurd h32 (h ▸ by decide)
      rw [List.takeWhile_cons_of_pos (by simpa using h0), scan_raw h34 h92, if_pos h32]
      exact fun h => by cases h
  | case7 cs h92 h32 ih =>
    rw [List.takeWhile_cons_of_pos rfl]
    exact ih hs
  | case8 c cs h92 h32 h34 ih =>
    have h0 : c ≠ 0 := fun h => h32 (h ▸ by decide)
    by_cases hc : c = 92
    · -- a backslash at the very end
      cases cs with
      | nil =>
        rw [hc] at hs
        cases hs
      | cons e cs => exact absurd rfl (h92 e cs hc)
    · rw [scan_raw h34 hc, if_neg h32] at hs
      rw [List.takeWhile_cons_of_pos (by simpa using h0), scan_raw h34 hc, if_neg h32]
      exact ih hs

theorem ws_skip (w : List Ws) : ∀ c ∈ ws w, c ≠ 0 ∧ c ≠ 34 := by
  intro c hc
  obtain ⟨x, -, rfl⟩ := List.mem_map.mp hc
  cases x <;> decide

theorem scan_ws (w : List Ws) : scan false (ws w ++ rest) = scan false rest := scan_skip (ws_skip w)

theorem digits_skip (l : List (Fin 10)) : ∀ c ∈ digits l, c ≠ 0 ∧ c ≠ 34 := by
  have hd : ∀ d : Fin 10, UInt8.ofNat (48 + d.val) ≠ 0 ∧ UInt8.ofNat (48 + d.val) ≠ 34 := by decide
  intro c hc
  obtain ⟨d, -, rfl⟩ := List.mem_map.mp hc
  exact hd d

theorem exp_skip (e : Exp) : ∀ c ∈ e.text, c ≠ 0 ∧ c ≠ 34 := by
  intro c hc
  rcases List.mem_cons.mp hc with rfl | hc
  · cases e.upper <;> decide
  · rcases List.mem_append.mp hc with hc | hc
    · split at hc
      · cases hc
      · exact List.mem_singleton.mp hc ▸ by decide
      · exact List.mem_singleton.mp hc ▸ by decide
    · exact digits_skip _ c hc

theorem num_skip (n : Number) : ∀ c ∈ n.text, c ≠ 0 ∧ c ≠ 34 := by
  intro c hc
  rw [Number.text] at hc
  rcases List.mem_append.mp hc with hc | hc
  · rcases List.mem_append.mp hc with hc | hc
    · rcases List.mem_append.mp hc with hc | hc
      · split at hc
        · exact List.mem_singleton.mp hc ▸ by decide
        · cases hc
      · have := decimal_digits n.int c hc
        constructor
        · rintro rfl
          cases this
        · rintro rfl
          cases this
    · split at hc
      · cases hc
      · rcases List.mem_cons.mp hc with rfl | hc
        · decide
        · exact digits_skip _ c hc
  · split at hc
    · cases hc
    · exact exp_skip _ c hc

/-- the raw characters of all strings are no control characters -/
abbrev Quietly (t : Cst) : Prop := t.All NoControl (fun _ => True) fun _ => True

open Classical in
mutual

/-- the scanner on a text, from the outside of strings -/
theorem scan_text : ∀ (t : Cst), t.All NoQuote (fun _ => True) (fun _ => True) → ∀ rest,
    scan false (t.text ++ rest) = if Quietly t then scan false rest else none
  | .null, _, rest => (if_pos trivial).symm
  | .true, _, rest => (if_pos trivial).symm
  | .false, _, rest => (if_pos trivial).symm
  | .num n, _, rest => (scan_skip (num_skip n)).trans (if_pos trivial).symm
  | .str s, ht, rest => scan_string ht
  | .arrEmpty w, _, rest => by
    rw [Cst.text, List.cons_append, List.append_assoc]
    exact (scan_ws w).trans (if_pos trivial).symm
  | .arr xs, ht, rest => by
    rw [Cst.text, List.cons_append, List.append_assoc]
    exact scan_items xs ht (93 :: rest)
  | .objEmpty w, _, rest => by
    rw [Cst.text, List.cons_append, List.append_assoc]
    exact (scan_ws w).trans (if_pos trivial).symm
  | .obj ms, ht, rest => by
    rw [Cst.text, List.cons_append, List.append_assoc]
    exact (scan_members ms ht.2 (125 :: rest)).trans
      (if_congr (iff_of_eq (true_and _)).symm rfl rfl)

theorem scan_items : ∀ (xs : Items), xs.All NoQuote (fun _ => True) (fun _ => True) → ∀ rest,
    scan false (xs.text ++ rest) =
      if xs.All NoControl (fun _ => True) (fun _ => True) then scan false rest else none
  | .last w v w', hx, rest => by
    rw [Items.text, List.append_assoc, List.append_assoc, scan_ws, scan_text v hx, scan_ws]
    rfl
  | .cons w v w' xs, hx, rest => by
    rw [Items.text, List.append_assoc, List.append_assoc, List.append_assoc, scan_ws,
      scan_text v hx.1, scan_ws, List.cons_append]
    show (if Quietly v then scan false (xs.text ++ rest) else none) = _
    rw [scan_items xs hx.2, ← ite_and]
    exact if_congr Iff.rfl rfl rfl

theorem scan_members : ∀ (ms : Members), ms.All NoQuote (fun _ => True) (fun _ => True) → ∀ rest,
    scan false (ms.text ++ rest) =
      if ms.All NoControl (fun _ => True) (fun _ => True) then scan false rest else none
  | .last w k w₁ w₂ v w', hm, rest => by
    rw [Members.text]
    simp only [List.append_assoc, List.cons_append]
    rw [scan_ws, scan_string hm.1, scan_ws]
    show (if NoControl k then scan false (ws w₂ ++ _) else none) = _
    rw [scan_ws, scan_text v hm.2, scan_ws, ← ite_and]
    exact if_congr Iff.rfl rfl rfl
  | .cons w k w₁ w₂ v w' ms, hm, rest => by
    rw [Members.text]
    simp only [List.append_assoc, List.cons_append]
    rw [scan_ws, scan_string hm.1, scan_ws]
    show (if NoControl k then scan false (ws w₂ ++ _) else none) = _
    rw [scan_ws, scan_text v hm.2.1, scan_ws]
    show (if NoControl k then
      if Quietly v then scan false (ms.text ++ rest) else none else none) = _
    rw [scan_members ms hm.2.2, ← ite_and, ← ite_and]
    exact if_congr and_assoc rfl rfl

end

end

/-! ## strings and keys -/

/-- valid UTF-8 -/
def Utf8 (s : Bytes) : Prop := ∃ cs : List Char, s = cs.flatMap String.utf8EncodeChar

/-- no control characters other than those with an escape of their own -/
def Visible (s : Bytes) : Prop := ∀ c ∈ s, 32 ≤ c.toNat ∨ c = 10 ∨ c = 9

/-- what is printed is a string of the grammar -/
def KeyOk (k : Key) : Prop := ∃ s, StrOk s ∧ printKey (keyBytes k) = string s ++ [58]

section
variable {c : Char} {s : Bytes} {cs : List Char}

theorem noControl_zero {t : List Ch} (h : NoControl t) : 0 ∉ chars t := by
  rw [chars, List.mem_flatMap]
  rintro ⟨x, hx, h0⟩
  cases x with
  | raw b => exact absurd (h b hx) (List.mem_singleton.mp h0 ▸ by decide)
  | esc e => cases e <;> revert h0 <;> decide
  | hex a b c d =>
    have hne : ∀ d : Hex, 0 ≠ d.byte := fun d h => absurd (hex_byte d).1 (h ▸ by decide)
    simp [Ch.text, hne] at h0

/-- the characters that `hbuf_json_r` escapes -/
theorem escCh_of_mem (hc : c = '"' ∨ c = '\\' ∨ c = '\n' ∨ c = '\t') :
    ∃ e, (String.utf8EncodeChar c).map escCh = [.esc e] := by
  rcases hc with rfl | rfl | rfl | rfl
  · exact ⟨.quote, rfl⟩
  · exact ⟨.backslash, rfl⟩
  · exact ⟨.n, rfl⟩
  · exact ⟨.t, rfl⟩

/-- the other ones are put as they are -/
theorem escCh_of_visible (h32 : 32 ≤ c.toNat) (hq : c ≠ '"') (hb : c ≠ '\\') :
    (String.utf8EncodeChar c).map escCh = (String.utf8EncodeChar c).map Ch.raw := by
  refine List.map_congr_left fun b hb' => ?_
  obtain ⟨h, h34, h92⟩ := utf8_plain h32 hq hb hb'
  have h10 : b ≠ 10 := fun h' => absurd h (h' ▸ by decide)
  have h9 : b ≠ 9 := fun h' => absurd h (h' ▸ by decide)
  rw [escCh, if_neg h34, if_neg h92, if_neg h10, if_neg h9]

/-- a character below 128 is its own byte -/
theorem mem_utf8 (h : c.toNat < 128) : UInt8.ofNat c.toNat ∈ String.utf8EncodeChar c := by
  have h' : c.val.toNat ≤ 127 := Nat.le_of_lt_succ h
  unfold String.utf8EncodeChar
  dsimp only
  rw [if_pos h']
  exact List.mem_singleton.mpr rfl

theorem strOk_escCh (hu : Utf8 s) (hv : Visible s) : StrOk (s.map escCh) := by
  obtain ⟨cs, rfl⟩ := hu
  induction cs with
  | nil => exact .nil
  | cons c cs ih =>
    rw [List.flatMap_cons] at hv ⊢
    have ih := ih fun b hb => hv b (List.mem_append_right _ hb)
    rw [List.map_append]
    by_cases hc : c = '"' ∨ c = '\\' ∨ c = '\n' ∨ c = '\t'
    · obtain ⟨e, he⟩ := escCh_of_mem hc
      rw [he]
      exact .esc ih
    · simp only [not_or] at hc
      obtain ⟨hq, hb, hn, ht⟩ := hc
      have h32 : 32 ≤ c.toNat := by
        by_contra hlt
        have hval : (UInt8.ofNat c.toNat).toNat = c.toNat := by
          rw [UInt8.toNat_ofNat', Nat.mod_eq_of_lt (by omega)]
        have hmem := List.mem_append_left (cs.flatMap String.utf8EncodeChar)
          (mem_utf8 (c := c) (by omega))
        rcases hv _ hmem with h | h | h
        · omega
        · exact hn (Char.toNat_inj.mp (hval.symm.trans (congrArg UInt8.toNat h)))
        · exact ht (Char.toNat_inj.mp (hval.symm.trans (congrArg UInt8.toNat h)))
      rw [escCh_of_visible h32 hq hb]
      exact .char h32 hq hb ih

/-- a key as far as its NUL -/
theorem strOk_raw (hu : Utf8 s) (hv : ∀ b ∈ s.takeWhile (· ≠ 0), 32 ≤ b.toNat ∧ b ≠ 34 ∧ b ≠ 92) :
    StrOk ((s.takeWhile (· ≠ 0)).map Ch.raw) := by
  obtain ⟨cs, rfl⟩ := hu
  induction cs with
  | nil => exact .nil
  | cons c cs ih =>
    rw [List.flatMap_cons] at hv ⊢
    by_cases h0 : c.toNat = 0
    · have hc : c = '\x00' := Char.toNat_inj.mp h0
      rw [hc]
      exact .nil
    · have hne : ∀ b ∈ String.utf8EncodeChar c, b ≠ 0 := by
        rintro b hb rfl
        have hz : (0 : UInt8).toNat = 0 := rfl
        rcases utf8_byte hb with h | ⟨-, h⟩ <;> omega
      rw [List.takeWhile_append_of_pos fun b hb => by simpa using hne b hb] at hv ⊢
      rw [List.map_append]
      have hval : c.toNat < 128 →
          32 ≤ c.toNat ∧ UInt8.ofNat c.toNat ≠ 34 ∧ UInt8.ofNat c.toNat ≠ 92 := by
        intro h
        have hb := hv _ (List.mem_append_left _ (mem_utf8 h))
        rwa [UInt8.toNat_ofNat', Nat.mod_eq_of_lt (by omega)] at hb
      refine .char ?_ ?_ ?_ (ih fun b hb => hv b (List.mem_append_right _ hb))
      · by_cases h : c.toNat < 128
        · exact (hval h).1
        · omega
      · rintro rfl
        exact (hval (by decide)).2.1 rfl
      · rintro rfl
        exact (hval (by decide)).2.2 rfl

/-- the other direction for the values -/
theorem visible_of_noControl (h : NoControl (s.map escCh)) : Visible s := by
  intro c hc
  by_contra hn
  simp only [not_or] at hn
  obtain ⟨h32, h10, h9⟩ := hn
  have h34 : c ≠ 34 := fun h => h32 (h ▸ by decide)
  have h92 : c ≠ 92 := fun h => h32 (h ▸ by decide)
  have : escCh c = .raw c := by
    rw [escCh, if_neg h34, if_neg h92, if_neg h10, if_neg h9]
  exact h32 (h c (this ▸ List.mem_map_of_mem hc))

end

/-! ## texts -/

def WellFormed (s : Bytes) : Prop :=
  ∃ (t : Cst) (w w' : List Ws), t.Rfc ∧ s = ws w ++ t.text ++ ws w'

/-- the scanner gets through a text of the grammar -/
theorem scan_wellFormed {s : Bytes} (h : WellFormed s) : scan false s = some false := by
  obtain ⟨t, w, w', ht, rfl⟩ := h
  have hq : t.All NoQuote (fun _ => True) fun _ => True :=
    Cst.All.and (fun s h _ b hb => (h.raw_plain hb).2) (fun _ _ h => h) (fun _ _ h => h) t ht ht
  have hc : Quietly t :=
    Cst.All.and (fun s h _ b hb => (h.raw_plain hb).1) (fun _ _ h => h) (fun _ _ h => h) t ht ht
  rw [List.append_assoc, scan_ws, scan_text t hq, if_pos hc, ← List.append_nil (ws w'), scan_ws]
  rfl

section
variable {percentG fromDouble : Double → Bytes} {h : Heap} {lo : Nat} {v : Val} {j : Value}

/-- valid UTF-8 in strings and keys -/
def Utf8Value (j : Value) : Prop := j.Each Utf8 fun ks => ∀ s, .str s ∈ ks → Utf8 s

def Escaped (j : Value) : Prop := j.Each Visible fun ks => ∀ k ∈ ks, KeyOk k

/-- keys without quotes and backslashes, which print in an `int` -/
def PlainKeys (j : Value) : Prop := j.Each (fun _ => True) fun ks =>
  ∀ s, .str s ∈ ks → 34 ∉ s ∧ 92 ∉ s ∧ s.length + 3 < 2 ^ 31

variable (percentG fromDouble) in
/-- `hpbi_json_encode` returns a text of the grammar -/
def EncodesJson (h : Heap) (v : Val) : Prop :=
  ∃ n s, (∀ fuel, n ≤ fuel → hpbiJsonEncode percentG fromDouble fuel h v = some (.str (some s))) ∧
    WellFormed s

/-- the encoder's result, when `K` says how the keys are printed -/
theorem encode_eq {K : Key → List Ch} {S : Bytes → Prop} (hr : Rep h lo v j)
    (hk : j.Each S (Prints K)) {fuel : Nat} (hd : depth j + 1 ≤ fuel) :
    hpbiJsonEncode percentG fromDouble fuel h v =
      some (.str (some ((cst K j).text.takeWhile (· ≠ 0)))) := by
  obtain ⟨fuel, rfl⟩ := Nat.exists_eq_add_of_le' (Nat.le_trans (Nat.le_add_left 1 _) hd)
  rw [hpbiJsonEncode, hbufJsonR_text hr hk (Nat.le_of_succ_le_succ hd), Option.map_some]

open Classical in
/-- the string that a key is printed as, if there is one -/
noncomputable def keyString (k : Key) : List Ch := if hk : KeyOk k then hk.choose else []

theorem keyString_spec {k : Key} (hk : KeyOk k) :
    StrOk (keyString k) ∧ printKey (keyBytes k) = string (keyString k) ++ [58] := by
  rw [keyString, dif_pos hk]
  exact hk.choose_spec

theorem encodesJson_of_escaped (hr : Rep h lo v j) (hu : Utf8Value j) (he : Escaped j) :
    EncodesJson percentG fromDouble h v := by
  have hboth : j.Each (fun s => Utf8 s ∧ Visible s) fun ks => ∀ k ∈ ks, KeyOk k :=
    hu.and (fun _ h h' => ⟨h, h'⟩) (fun _ _ h => h) he
  have hk : j.Each Visible (Prints keyString) :=
    he.and (fun _ h _ => h) (fun _ h _ k hk => (keyString_spec (h k hk)).2) he
  have hok : (cst keyString j).Rfc :=
    cst_all (fun s h => strOk_escCh h.1 h.2) (fun _ => trivial)
      (fun ks h k hk => (keyString_spec (h k hk)).1) (fun _ _ _ _ _ => trivial) hboth
  have hzero : 0 ∉ (cst keyString j).text := by
    refine Cst.zero_text (M := fun _ => True) _ ?_
    refine cst_all (fun s h => noControl_zero fun b hb => ((strOk_escCh h.1 h.2).raw_plain hb).1)
      hpStrFromInt_zero (fun ks h k hk => noControl_zero fun b hb => ?_)
      (fun _ _ _ _ _ => trivial) hboth
    exact ((keyString_spec (h k hk)).1.raw_plain hb).1
  refine ⟨depth j + 1, _, fun fuel hf => encode_eq hr hk hf, cst keyString j, [], [], hok, ?_⟩
  rw [Substr.takeWhile_ne_iff.mpr hzero]
  simp [ws]

/-- a key as far as it is printed -/
def cutKey (k : Key) : List Ch := (keyText (keyBytes k)).map Ch.raw

/-- what is needed of a key without quotes and backslashes -/
structure CutKey (k : Key) : Prop where
  prints : printKey (keyBytes k) = string (cutKey k) ++ [58]
  noQuote : NoQuote (cutKey k)
  ok : (∀ s, k = .str s → Utf8 s) → NoControl (cutKey k) → KeyOk k

theorem isNumByte_plain {c : UInt8} (h : isNumByte c = true) :
    32 ≤ c.toNat ∧ c.toNat < 128 ∧ c ≠ 34 ∧ c ≠ 92 := by
  simp only [isNumByte, isFloatMark, Bool.or_eq_true, beq_iff_eq] at h
  rcases h with ((((rfl | rfl) | rfl) | hd) | rfl) | rfl
  · decide
  · decide
  · decide
  · exact isDigit_plain hd
  · decide
  · decide

theorem cutKey_int (i : Int64) : CutKey (.int i) := by
  have hbytes : ∀ b ∈ keyText (hpStrFromInt i),
      32 ≤ b.toNat ∧ b.toNat < 128 ∧ b ≠ 34 ∧ b ≠ 92 := by
    intro b hb
    have hsub := (List.takeWhile_sublist _).subset hb
    have hmem : b ∈ hpStrFromInt i := by
      split at hsub
      · exact hsub
      · exact List.mem_of_mem_take hsub
    rw [← numOf_text] at hmem
    exact isNumByte_plain (text_bytes (numOf_int64 i) b hmem).1
  have hlen : (hpStrFromInt i).length + 3 < 2 ^ 31 := by
    have := length_text (numOf_int64 i)
    rw [numOf_text] at this
    omega
  have hraw : ∀ b, .raw b ∈ cutKey (.int i) → b ∈ keyText (hpStrFromInt i) := by
    intro b hb
    obtain ⟨c, hc, h⟩ := List.mem_map.mp hb
    exact Ch.raw.inj h ▸ hc
  exact ⟨printKey_eq hlen, fun b hb => (hbytes b (hraw b hb)).2.2,
    fun _ _ => ⟨cutKey (.int i), .of_raw hbytes, printKey_eq hlen⟩⟩

theorem cutKey_str {s : Bytes} (hq : 34 ∉ s) (hb : 92 ∉ s) (hlen : s.length + 3 < 2 ^ 31) :
    CutKey (.str s) := by
  have hraw : ∀ b, .raw b ∈ cutKey (.str s) → b ∈ s.takeWhile (· ≠ 0) := by
    intro b hb
    rw [← keyText_eq hlen]
    obtain ⟨c, hc, h⟩ := List.mem_map.mp hb
    exact Ch.raw.inj h ▸ hc
  have hno : ∀ b ∈ s.takeWhile (· ≠ 0), b ≠ 34 ∧ b ≠ 92 := by
    intro b hb'
    have := (List.takeWhile_sublist _).subset hb'
    exact ⟨fun h => hq (h ▸ this), fun h => hb (h ▸ this)⟩
  refine ⟨printKey_eq hlen, fun b hb => hno b (hraw b hb), fun hu hc => ?_⟩
  refine ⟨cutKey (.str s), ?_, printKey_eq hlen⟩
  have hcut : cutKey (.str s) = (s.takeWhile (· ≠ 0)).map Ch.raw := by
    rw [← keyText_eq hlen]
    rfl
  rw [hcut] at hc ⊢
  exact strOk_raw (hu s rfl) fun b hb => ⟨hc b (List.mem_map_of_mem hb), hno b hb⟩

theorem escaped_of_encodesJson (hr : Rep h lo v j) (hu : Utf8Value j) (hp : PlainKeys j)
    (he : EncodesJson percentG fromDouble h v) : Escaped j := by
  have hcut : j.Each (fun _ => True) fun ks => ∀ k ∈ ks, CutKey k := by
    refine hp.and (fun _ h _ => h) (fun ks h _ k hk => ?_) hp
    cases k with
    | int i => exact cutKey_int i
    | str s =>
      obtain ⟨hq, hb, hlen⟩ := h s hk
      exact cutKey_str hq hb hlen
  have hk : j.Each (fun _ => True) (Prints cutKey) :=
    hcut.and (fun _ h _ => h) (fun _ h _ k hk => (h k hk).prints) hcut
  have hq : (cst cutKey j).All NoQuote (fun _ => True) fun _ => True :=
    cst_all (fun s _ b hb => escCh_lax s _ hb) (fun _ => trivial)
      (fun ks h k hk => (h k hk).noQuote) (fun _ _ _ _ _ => trivial) hcut
  obtain ⟨n, s, hrun, hwf⟩ := he
  have htext : s = (cst cutKey j).text.takeWhile (· ≠ 0) := by
    have h1 := hrun (max n (depth j + 1)) (Nat.le_max_left ..)
    rw [encode_eq hr hk (Nat.le_max_right ..)] at h1
    exact (Option.some.inj (HVal.str.inj (Option.some.inj h1))).symm
  have hquiet : Quietly (cst cutKey j) := by
    by_contra hn
    have hscan := scan_text (cst cutKey j) hq []
    rw [if_neg hn, List.append_nil] at hscan
    exact scan_takeWhile false hscan (htext ▸ scan_wellFormed hwf)
  have heach := each_of_all hquiet
  have h1 : j.Each Utf8 fun ks => ∀ k ∈ ks, NoControl (cutKey k) → KeyOk k := by
    refine hu.and (fun _ h _ => h) (fun ks h h' k hk => ?_) hcut
    exact (h' k hk).ok fun s hs => h s (hs ▸ hk)
  exact h1.and (fun s _ h => visible_of_noControl h) (fun ks h h' k hk => h k hk (h' k hk)) heach

/-- **The encoder writes JSON** if no string has a control character but newline and tab, and the
keys need no escape; where no key has a quote or a backslash, only then. -/
theorem json_encode_wellFormed (hr : Rep h lo v j) (hu : Utf8Value j) :
    (Escaped j → EncodesJson percentG fromDouble h v) ∧
    (PlainKeys j → EncodesJson percentG fromDouble h v → Escaped j) :=
  ⟨encodesJson_of_escaped hr hu, escaped_of_encodesJson hr hu⟩

/-- `"é\n"` -/
theorem json_encode_wellFormed_line :
    EncodesJson (fun _ => []) (fun _ => []) [] (.str (some [195, 169, 10])) := by
  have hr : Rep [] 0 (.str (some [195, 169, 10])) (.str [195, 169, 10]) := .str _
  refine (json_encode_wellFormed hr (.str ⟨['é', '\n'], rfl⟩)).1 (.str fun c hc => ?_)
  rcases List.mem_cons.mp hc with rfl | hc
  · exact .inl (by decide)
  · rcases List.mem_cons.mp hc with rfl | hc
    · exact .inl (by decide)
    · exact .inr (.inl (List.mem_singleton.mp hc))

/-- a string with a carriage return, and a key with a quote -/
theorem json_encode_fails :
    (Rep [] 0 (.str (some [13])) (.str [13]) ∧ Utf8Value (.str [13]) ∧
      ¬ EncodesJson (fun _ => []) (fun _ => []) [] (.str (some [13]))) ∧
    (Rep [quoteMap] 0 (.arr (some 0)) (.map [(.str [34], .null)]) ∧
      Utf8Value (.map [(.str [34], .null)]) ∧
      ¬ EncodesJson (fun _ => []) (fun _ => []) [quoteMap] (.arr (some 0))) := by
  refine ⟨⟨.str [13], .str ⟨['\r'], rfl⟩, ?_⟩, quoteMap_rep, ?_, ?_⟩
  · rintro ⟨n, s, hrun, hwf⟩
    have ht : hpbiJsonEncode (fun _ => []) (fun _ => []) (n + 1) [] (.str (some [13])) =
        some (.str (some [34, 13, 34])) := rfl
    have he := ht.symm.trans (hrun (n + 1) (Nat.le_succ n))
    obtain rfl := Option.some.inj (HVal.str.inj (Option.some.inj he))
    cases scan_wellFormed hwf
  · refine .map (fun s hs => ?_) fun kv hkv => List.mem_singleton.mp hkv ▸ .null
    obtain rfl := Key.str.inj (List.mem_singleton.mp hs)
    exact ⟨['"'], rfl⟩
  · rintro ⟨n, s, hrun, hwf⟩
    have he := (quoteMap_text _ _ n).symm.trans (hrun (n + 2) (Nat.le_add_right n 2))
    obtain rfl := Option.some.inj (HVal.str.inj (Option.some.inj he))
    cases scan_wellFormed hwf

end

end Std
end HolyPhp
