import HolyPhp.Lib.JsonTokens
import HolyPhp.Package.Registry

/-!
# When the registry is JSON

`jsonArray_lines`: with names of packages and versions without quotes and backslashes, **the file is
a JSON array of objects if and only if a comma stands behind all entries but the last and every
version is the inside of a JSON string.**
-/

namespace HolyPhp
namespace Package
open Json hiding Bytes

/-! ## arrays of objects -/

def ObjArray.isObj : Cst → Prop
  | .objEmpty _ => True
  | .obj _ => True
  | _ => False

def ObjArray.items : Items → Prop
  | .last _ v _ => isObj v
  | .cons _ v _ xs => isObj v ∧ items xs

/-- an array of objects -/
def ObjArray : Cst → Prop
  | .arrEmpty _ => True
  | .arr xs => ObjArray.items xs
  | _ => False

/-- the text of an array of objects -/
def JsonArray (s : Bytes) : Prop :=
  ∃ (t : Cst) (w w' : List Ws), t.Rfc ∧ ObjArray t ∧ s = ws w ++ t.text ++ ws w'

/-- the inside of a JSON string without escapes -/
def Plain (v : Bytes) : Prop := 92 ∉ v ∧ ∃ t, StrOk t ∧ chars t = v

/-- commas stand behind all entries but the last -/
def Commas : List (InstalledPkg × Bool) → Prop
  | [] => True
  | [p] => p.2 = false
  | p :: q :: ls => p.2 = true ∧ Commas (q :: ls)

/-! ## tokens -/

/-- the tokens of a line -/
def lineToks (e : InstalledPkg) (comma : Bool) : List Tok :=
  [.byte 123, .str nameKey, .byte 58, .str e.name, .byte 44, .str versionKey, .byte 58,
    .str e.version, .byte 125] ++ if comma then [.byte 44] else []

section
variable {e : InstalledPkg} {ls : List (InstalledPkg × Bool)} {b : Bool} {rest : Bytes}

theorem lexes_line (hn : pkgNameOk e.name = true) (hv : 34 ∉ e.version ∧ 92 ∉ e.version)
    (b : Bool) : Lexes (line e b) (lineToks e b) := by
  intro rest
  have hname : ∀ c ∈ e.name, c ≠ 34 ∧ c ≠ 92 := fun c hc =>
    ⟨(name_plain hn hc).1, (name_plain hn hc).2.1⟩
  have hversion : ∀ c ∈ e.version, c ≠ 34 ∧ c ≠ 92 := fun c hc =>
    ⟨fun h => hv.1 (h ▸ hc), fun h => hv.2 (h ▸ hc)⟩
  have h1 : lex none (line e b ++ rest) = .byte 123 :: .str nameKey :: .byte 58 ::
      lex (some []) ((e.name ++ 34 :: versionText e b) ++ rest) := rfl
  have h2 : lex (some e.name) (34 :: (versionText e b ++ rest)) = .str e.name :: .byte 44 ::
      .str versionKey :: .byte 58 ::
      lex (some []) ((e.version ++ 34 :: (125 :: (sepText b ++ ascii "\n"))) ++ rest) := rfl
  have h3 : lex (some e.version) (34 :: (125 :: (sepText b ++ ascii "\n") ++ rest)) =
      .str e.version :: .byte 125 :: ((if b then [.byte 44] else []) ++ lex none rest) := by
    cases b <;> rfl
  rw [h1, List.append_assoc, lex_plain hname, List.nil_append, List.cons_append, h2,
    List.append_assoc, lex_plain hversion, List.nil_append, List.cons_append, h3]
  rfl

theorem lexes_lines (hok : ∀ p ∈ ls, pkgNameOk p.1.name = true)
    (hv : ∀ p ∈ ls, 34 ∉ p.1.version ∧ 92 ∉ p.1.version) :
    Lexes (lines ls) (ls.flatMap fun p => lineToks p.1 p.2) := by
  induction ls with
  | nil => exact Lexes.nil
  | cons p ls ih =>
    exact (lexes_line (hok p List.mem_cons_self) (hv p List.mem_cons_self) p.2).append
      (ih (fun q hq => hok q (List.mem_cons_of_mem p hq))
        fun q hq => hv q (List.mem_cons_of_mem p hq))

/-- in a chain of tokens the commas are right -/
theorem commas_of_chain
    (h : List.IsChain Next ((ls.flatMap fun p => lineToks p.1 p.2) ++ [.byte 93])) :
    Commas ls := by
  induction ls with
  | nil => exact trivial
  | cons p ls ih =>
    rw [List.flatMap_cons, List.append_assoc] at h
    obtain ⟨_, hrest, hnext⟩ := List.isChain_append.1 h
    cases ls with
    | nil =>
      cases hb : p.2 with
      | false => exact hb
      | true =>
        rw [hb] at hnext
        exact absurd rfl ((hnext (.byte 44) rfl (.byte 93) rfl).2 rfl)
    | cons q ls =>
      refine ⟨?_, ih hrest⟩
      cases hb : p.2 with
      | true => rfl
      | false =>
        rw [hb] at hnext
        exact absurd rfl ((hnext (.byte 125) rfl (.byte 123) rfl).1 rfl)

/-! ## the text of an array -/

theorem nameByte_ascii {c : UInt8} (h : isNameByte c = true) :
    32 ≤ c.toNat ∧ c.toNat < 128 ∧ c ≠ 34 ∧ c ≠ 92 := by
  have hplain := nameByte_plain h
  simp only [isNameByte, Bool.or_eq_true, Bool.and_eq_true, decide_eq_true_eq,
    UInt8.le_iff_toNat_le] at h
  have h97 : (97 : UInt8).toNat = 97 := rfl
  have h122 : (122 : UInt8).toNat = 122 := rfl
  have h48 : (48 : UInt8).toNat = 48 := rfl
  have h57 : (57 : UInt8).toNat = 57 := rfl
  have hbounds : 32 ≤ c.toNat ∧ c.toNat < 128 := by
    rcases h with h | h | rfl
    · omega
    · omega
    · decide
  exact ⟨hbounds.1, hbounds.2, hplain.1, hplain.2.1⟩

theorem name_ok (hn : pkgNameOk e.name = true) : StrOk (e.name.map Ch.raw) := by
  rw [pkgNameOk, Bool.and_eq_true] at hn
  exact StrOk.of_raw fun c hc => nameByte_ascii (List.all_eq_true.1 hn.2 c hc)

theorem chars_raw (s : Bytes) : chars (s.map Ch.raw) = s := by
  rw [chars, List.flatMap_map]
  exact List.flatMap_singleton' s

/-- the object of an entry -/
def objOf (e : InstalledPkg) (t : List Ch) : Cst :=
  .obj (.cons [] (nameKey.map Ch.raw) [] [.space] (.str (e.name.map Ch.raw)) []
    (.last [.space] (versionKey.map Ch.raw) [] [.space] (.str t) []))

theorem objOf_text (e : InstalledPkg) (t : List Ch) : (objOf e t).text =
    123 :: (string (nameKey.map Ch.raw) ++ 58 :: 32 :: (string (e.name.map Ch.raw) ++
      44 :: 32 :: (string (versionKey.map Ch.raw) ++ 58 :: 32 :: (string t ++ [125])))) := by
  simp [objOf, Cst.text, Members.text, ws, Ws.byte]

theorem line_eq {t : List Ch} (ht : chars t = e.version) (b : Bool) :
    line e b = 32 :: 32 :: ((objOf e t).text ++ (sepText b ++ [10])) := by
  have hname : string (e.name.map Ch.raw) = 34 :: (e.name ++ [34]) := by
    rw [Json.string, chars_raw]
  have hversion : string t = 34 :: (e.version ++ [34]) := by rw [Json.string, ht]
  have hline : line e b = 32 :: 32 :: 123 :: (string (nameKey.map Ch.raw) ++ 58 :: 32 :: 34 ::
      (e.name ++ 34 :: 44 :: 32 :: (string (versionKey.map Ch.raw) ++ 58 :: 32 :: 34 ::
        (e.version ++ 34 :: 125 :: (sepText b ++ [10]))))) := rfl
  rw [hline, objOf_text, hname, hversion]
  simp

theorem objOf_rfc {t : List Ch} (hn : pkgNameOk e.name = true) (ht : StrOk t) :
    (objOf e t).Rfc := by
  have hk : ∀ k : Bytes, pkgNameOk k = true → StrOk (k.map Ch.raw) := fun k hk =>
    name_ok (e := ⟨k, []⟩) hk
  exact ⟨trivial, hk nameKey (by decide), name_ok hn, hk versionKey (by decide), ht⟩

/-- the lines with right commas are the inside of an array -/
theorem items_of_lines (hne : ls ≠ []) (hok : ∀ p ∈ ls, pkgNameOk p.1.name = true)
    (hv : ∀ p ∈ ls, ∃ t, StrOk t ∧ chars t = p.1.version) (hc : Commas ls) :
    ∃ xs : Items, xs.All StrOk (fun _ => True) (fun _ => True) ∧ ObjArray.items xs ∧
      xs.text = 10 :: lines ls := by
  induction ls with
  | nil => exact absurd rfl hne
  | cons p ls ih =>
    have hp := hok p List.mem_cons_self
    obtain ⟨t, ht, hchars⟩ := hv p List.mem_cons_self
    cases ls with
    | nil =>
      refine ⟨.last [.lf, .space, .space] (objOf p.1 t) [.lf], objOf_rfc hp ht, trivial, ?_⟩
      have hb : p.2 = false := hc
      have hlines : lines [p] = line p.1 p.2 := List.flatMap_singleton _ _
      rw [hlines, line_eq hchars, hb]
      show (ws [.lf, .space, .space] ++ (objOf p.1 t).text) ++ ws [.lf] = _
      rw [List.append_assoc]
      rfl
    | cons q ls =>
      obtain ⟨xs, hxs, hobj, htext⟩ := ih (List.cons_ne_nil q ls)
        (fun r hr => hok r (List.mem_cons_of_mem p hr))
        (fun r hr => hv r (List.mem_cons_of_mem p hr)) hc.2
      refine ⟨.cons [.lf, .space, .space] (objOf p.1 t) [] xs, ⟨objOf_rfc hp ht, hxs⟩,
        ⟨trivial, hobj⟩, ?_⟩
      have hlines : lines (p :: q :: ls) = line p.1 p.2 ++ lines (q :: ls) :=
        List.flatMap_cons
      rw [hlines, line_eq hchars, hc.1]
      show ((ws [.lf, .space, .space] ++ (objOf p.1 t).text) ++ []) ++ 44 :: xs.text = _
      rw [htext, List.append_nil, List.append_assoc]
      show _ = 10 :: 32 :: 32 :: (((objOf p.1 t).text ++ [44, 10]) ++ lines (q :: ls))
      rw [List.append_assoc]
      rfl

end

section
variable {ls : List (InstalledPkg × Bool)}

theorem jsonArray_of (hok : ∀ p ∈ ls, pkgNameOk p.1.name = true)
    (hv : ∀ p ∈ ls, ∃ t, StrOk t ∧ chars t = p.1.version) (hc : Commas ls) :
    JsonArray (fileText ls) := by
  by_cases hne : ls = []
  · rw [hne]
    exact ⟨.arrEmpty [.lf], [], [.lf], trivial, trivial, rfl⟩
  · obtain ⟨xs, hxs, hobj, htext⟩ := items_of_lines hne hok hv hc
    refine ⟨.arr xs, [], [.lf], hxs, hobj, ?_⟩
    show 91 :: 10 :: lines ls ++ [93, 10] = 91 :: (xs.text ++ [93]) ++ [10]
    rw [htext, List.cons_append, List.cons_append, List.cons_append, List.append_assoc]
    rfl

/-- the file is JSON if and only if the commas and the versions are right -/
theorem jsonArray_lines (hok : ∀ p ∈ ls, pkgNameOk p.1.name = true)
    (hv : ∀ p ∈ ls, 34 ∉ p.1.version ∧ 92 ∉ p.1.version) :
    JsonArray (fileText ls) ↔ Commas ls ∧ ∀ p ∈ ls, Plain p.1.version := by
  refine ⟨fun h => ?_, fun h => jsonArray_of hok (fun p hp => (h.2 p hp).2) h.1⟩
  obtain ⟨t, w, w', ht, _, htext⟩ := h
  obtain ⟨l, hlex, hfine⟩ := FineText.ws w w' (lex_text t ht)
  rw [← htext] at hlex
  -- the tokens of the file, from the lines and from the grammar
  have hopen : Lexes (ascii "[\n") [.byte 91] := fun _ => rfl
  have hclose : Lexes (ascii "]\n") [.byte 93] := fun _ => rfl
  have hfile := (hopen.append (lexes_lines hok hv)).append hclose
  have heq := (hfile []).symm.trans (hlex [])
  rw [lex, List.append_nil, List.append_nil] at heq
  rw [← heq] at hfine
  refine ⟨commas_of_chain (List.isChain_cons.1 hfine.linked).2, fun p hp => ⟨(hv p hp).2, ?_⟩⟩
  apply hfine.strings
  rw [List.mem_append, List.mem_append]
  refine .inl (.inr (List.mem_flatMap.2 ⟨p, hp, ?_⟩))
  simp [lineToks]

end

end Package
end HolyPhp
