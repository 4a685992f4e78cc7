import HolyPhp.Runtime.StrFuns
import Mathlib.Data.List.TakeWhile

/-!
# The upgrade request

`wsRequestKey` looks for the `Sec-WebSocket-Key` of a request head, and the answer is
`wsUpgradeResponse` or `wsRejectResponse`.  The accept key, base64 of a SHA-1, only goes into the
text of the answer; here it is a function that is given.

A `Request` is a head that a client may send: a `GET` line, header fields, one of them the key.
Its bytes are `Request.code`, and

* `Request.strpos_code`  the blank line that ends it is the first one;
* `Request.key_ne`       a key is found in it.
-/

set_option linter.unusedVariables false

namespace HolyPhp
namespace Websocket
open HolyPhp.Std Substr

/-! ## what the library does -/

/-- `"\r\n\r\n"` -/
def blankLine : Bytes := [13, 10, 13, 10]

def keyName : Bytes := ascii "sec-websocket-key"

/-- the body of the loop of `ws_request_key`: the value, if the line has that name -/
def lineKey (line : Bytes) : Option Bytes :=
  (strpos (ascii ":") line).bind fun p =>
    if hpStrTolower (hpStrTrim (line.take p)) = keyName then some (hpStrTrim (line.drop (p + 1)))
    else none

/-- `ws_request_key` -/
def wsRequestKey (head : Bytes) : Bytes := ((explodeCrlf head).findSome? lineKey).getD []

/-- `ws_upgrade_response`, of the accept key -/
def wsUpgradeResponse (acceptKey : Bytes) : Bytes :=
  ascii "HTTP/1.1 101 Switching Protocols\r\n" ++ ascii "Upgrade: websocket\r\n" ++
    ascii "Connection: Upgrade\r\n" ++ ascii "Sec-WebSocket-Accept: " ++ acceptKey ++
    ascii "\r\n" ++ ascii "\r\n"

/-- `ws_reject_response` -/
def wsRejectResponse : Bytes :=
  ascii "HTTP/1.1 400 Bad Request\r\n" ++ ascii "Content-Type: text/plain\r\n" ++
    ascii "Connection: close\r\n" ++ ascii "Content-Length: 21\r\n" ++ ascii "\r\n" ++
    ascii "Not a websocket, bye\n"

/-! ## lines -/

def codeLines (ls : List Bytes) : Bytes := ls.flatMap fun l => l ++ [13, 10]

theorem codeLines_cons (l : Bytes) (ls : List Bytes) (s : Bytes) :
    codeLines (l :: ls) ++ s = l ++ 13 :: 10 :: (codeLines ls ++ s) := by
  show l ++ [13, 10] ++ codeLines ls ++ s = _
  rw [List.append_assoc, List.append_assoc]
  rfl

theorem explodeCrlf_codeLines {ls : List Bytes} (h : ∀ l ∈ ls, 13 ∉ l) (s : Bytes) :
    explodeCrlf (codeLines ls ++ s) = ls ++ explodeCrlf s := by
  induction ls with
  | nil => rfl
  | cons l ls ih =>
    rw [codeLines_cons, explodeCrlf_line (h l List.mem_cons_self),
      ih fun l' hl => h l' (List.mem_cons_of_mem l hl)]
    rfl

/-- a line that is not empty, or the end of the head, begins at the third byte -/
theorem strpos_crlf {s : Bytes} (h : ∀ t, s ≠ 13 :: 10 :: t) :
    strpos blankLine (13 :: 10 :: s) = (strpos blankLine s).map (· + 2) := by
  have h1 : ¬ blankLine <+: 13 :: 10 :: s := by
    intro hp
    obtain ⟨t, ht⟩ := (List.cons_prefix_cons.1 (List.cons_prefix_cons.1 hp).2).2
    exact h t ht.symm
  have h2 : ¬ blankLine <+: 10 :: s := by
    intro hp
    exact absurd (List.cons_prefix_cons.1 hp).1 (by decide)
  rw [strpos_next h1, strpos_next h2, Option.map_map]
  rfl

/-- **The first blank line** stands behind the lines. -/
theorem strpos_codeLines {ls : List Bytes} (hne : ls ≠ [])
    (h : ∀ l ∈ ls, l ≠ [] ∧ 13 ∉ l) (t : Bytes) :
    strpos blankLine (codeLines ls ++ 13 :: 10 :: t) = some ((codeLines ls).length - 2) := by
  induction ls with
  | nil => exact absurd rfl hne
  | cons l ls ih =>
    have hl := h l List.mem_cons_self
    have hlen : (codeLines (l :: ls)).length = l.length + 2 + (codeLines ls).length := by
      show (l ++ [13, 10] ++ codeLines ls).length = _
      rw [List.length_append, List.length_append]
      rfl
    rw [codeLines_cons, hlen]
    show strpos (13 :: [10, 13, 10]) _ = _
    rw [strpos_skip hl.2]
    cases ls with
    | nil =>
      show (strpos blankLine (13 :: 10 :: 13 :: 10 :: t)).map _ = _
      rw [strpos_here ⟨t, rfl⟩]
      show some (0 + l.length) = some (l.length + 2 + 0 - 2)
      rw [Nat.zero_add]
      rfl
    | cons l' ls =>
      have hl' := h l' (List.mem_cons_of_mem l List.mem_cons_self)
      have hstart : ∀ u, codeLines (l' :: ls) ++ 13 :: 10 :: t ≠ 13 :: 10 :: u := by
        intro u hu
        rw [codeLines_cons] at hu
        obtain ⟨c, l'', hc⟩ := List.exists_cons_of_ne_nil hl'.1
        rw [hc] at hu
        have hc13 : c = 13 := (List.cons.inj hu).1
        rw [hc, hc13] at hl'
        exact hl'.2 List.mem_cons_self
      have h2 : 2 ≤ (codeLines (l' :: ls)).length := by
        show 2 ≤ (l' ++ [13, 10] ++ codeLines ls).length
        rw [List.length_append, List.length_append]
        show 2 ≤ l'.length + 2 + _
        omega
      have hi := ih (List.cons_ne_nil l' ls) fun l'' hm => h l'' (List.mem_cons_of_mem l hm)
      show (strpos blankLine _).map _ = _
      rw [strpos_crlf hstart, hi]
      show some ((codeLines (l' :: ls)).length - 2 + 2 + l.length) = _
      congr 1
      omega

/-! ## white space -/

theorem hpStrTrim_self {s : Bytes} (h : ∀ c ∈ s, isWs c = false) : hpStrTrim s = s := by
  have hall : ∀ l : Bytes, (∀ c ∈ l, isWs c = false) → l.dropWhile isWs = l := by
    intro l hl
    cases l with
    | nil => rfl
    | cons c l => exact List.dropWhile_cons_of_neg (by simp [hl c List.mem_cons_self])
  rw [hpStrTrim, hall s h, hall s.reverse fun c hc => h c (List.mem_reverse.1 hc),
    List.reverse_reverse]

theorem hpStrTrim_head {c : UInt8} (h : isWs c = false) (s : Bytes) :
    ∃ u, hpStrTrim (c :: s) = c :: u := by
  have hd : (c :: s).dropWhile isWs = c :: s := List.dropWhile_cons_of_neg (by simp [h])
  have hd1 : [c].dropWhile isWs = [c] := List.dropWhile_cons_of_neg (by simp [h])
  rw [hpStrTrim, hd, List.reverse_cons, List.dropWhile_append]
  split
  · rw [hd1]
    exact ⟨[], rfl⟩
  · rw [List.reverse_append]
    exact ⟨_, rfl⟩

theorem hpStrTrim_ne {s : Bytes} (h : ∃ c ∈ s, isWs c = false) : hpStrTrim s ≠ [] := by
  obtain ⟨c, hc, hw⟩ := h
  have hmem : c ∈ s.dropWhile isWs := by
    rw [← List.takeWhile_append_dropWhile (p := isWs) (l := s)] at hc
    rcases List.mem_append.1 hc with hm | hm
    · rw [List.mem_takeWhile_imp hm] at hw
      cases hw
    · exact hm
  intro he
  have hnil := List.dropWhile_eq_nil_iff.1 (List.reverse_eq_nil_iff.1 he) c
    (List.mem_reverse.2 hmem)
  rw [hw] at hnil
  cases hnil

/-! ## requests -/

structure Field where
  name : Bytes
  value : Bytes

def Field.line (f : Field) : Bytes := f.name ++ 58 :: f.value

def Field.isKey (f : Field) : Prop := hpStrTolower f.name = keyName

instance (f : Field) : Decidable f.isKey := inferInstanceAs (Decidable (_ = _))

/-- a request head that asks for the upgrade -/
structure Request where
  /-- behind `GET ` -/
  target : Bytes
  fields : List Field
  target_line : 13 ∉ target
  field_line : ∀ f ∈ fields, 13 ∉ f.value
  /-- no colon, no white space -/
  field_name : ∀ f ∈ fields, 58 ∉ f.name ∧ ∀ c ∈ f.name, isWs c = false
  has_key : ∃ f ∈ fields, f.isKey
  /-- no key is blank -/
  key_value : ∀ f ∈ fields, f.isKey → ∃ c ∈ f.value, isWs c = false

namespace Request
variable (r : Request)

def lines : List Bytes := (ascii "GET " ++ r.target) :: r.fields.map Field.line

def code : Bytes := codeLines r.lines ++ [13, 10]

theorem lines_ok {l : Bytes} (h : l ∈ r.lines) : l ≠ [] ∧ 13 ∉ l := by
  rcases List.mem_cons.1 h with rfl | h
  · refine ⟨List.cons_ne_nil _ _, fun hm => ?_⟩
    rcases List.mem_append.1 hm with hm | hm
    · exact absurd hm (by decide)
    · exact r.target_line hm
  · obtain ⟨f, hf, rfl⟩ := List.mem_map.1 h
    refine ⟨fun he => ?_, fun hm => ?_⟩
    · exact absurd (List.append_eq_nil_iff.1 he).2 (List.cons_ne_nil _ _)
    · rcases List.mem_append.1 hm with hm | hm
      · exact absurd ((r.field_name f hf).2 13 hm) (by decide)
      · rcases List.mem_cons.1 hm with hm | hm
        · exact absurd hm (by decide)
        · exact r.field_line f hf hm

theorem four_le : 4 ≤ r.code.length := by
  show 4 ≤ (ascii "GET " ++ r.target ++ [13, 10] ++ codeLines _ ++ [13, 10]).length
  rw [List.length_append, List.length_append, List.length_append, List.length_append]
  show 4 ≤ 4 + _ + 2 + _ + 2
  omega

/-- **The end of the head.** -/
theorem strpos_code (t : Bytes) :
    strpos blankLine (r.code ++ t) = some (r.code.length - 4) := by
  have hs := strpos_codeLines (List.cons_ne_nil _ _) (fun l hl => r.lines_ok hl) t
  have hlen : r.code.length = (codeLines r.lines).length + 2 := List.length_append
  rw [code, List.append_assoc]
  show strpos blankLine (codeLines r.lines ++ 13 :: 10 :: t) = _
  rw [← code, hlen]
  exact hs

/-- the request line names nothing -/
theorem lineKey_target (t : Bytes) : lineKey (ascii "GET " ++ t) = none := by
  unfold lineKey
  show (strpos (58 :: []) (ascii "GET " ++ t)).bind _ = none
  rw [strpos_skip (by decide)]
  cases strpos (58 :: []) t with
  | none => rfl
  | some p =>
    have htake : (ascii "GET " ++ t).take (p + 4) = ascii "GET " ++ t.take p := by
      show List.take (p + 4) (71 :: 69 :: 84 :: 32 :: t) = _
      rfl
    obtain ⟨u, hu⟩ := hpStrTrim_head (c := 71) rfl (69 :: 84 :: 32 :: t.take p)
    show (if hpStrTolower (hpStrTrim ((ascii "GET " ++ t).take (p + 4))) = keyName then _ else _)
      = none
    rw [htake, if_neg]
    intro he
    have hg : hpStrTolower (hpStrTrim (71 :: 69 :: 84 :: 32 :: t.take p)) = keyName := he
    rw [hu] at hg
    exact absurd (List.cons.inj hg).1 (by decide)

theorem lineKey_field {f : Field} (hn : 58 ∉ f.name ∧ ∀ c ∈ f.name, isWs c = false) :
    lineKey f.line = if f.isKey then some (hpStrTrim f.value) else none := by
  have hpos : strpos (ascii ":") f.line = some f.name.length := by
    show strpos (58 :: []) (f.name ++ 58 :: f.value) = _
    rw [strpos_skip hn.1, strpos_here ⟨f.value, rfl⟩]
    show some (0 + f.name.length) = _
    rw [Nat.zero_add]
  have htake : f.line.take f.name.length = f.name := List.take_left
  have hdrop : f.line.drop (f.name.length + 1) = f.value := by
    rw [← List.drop_drop, Field.line, List.drop_left]
    rfl
  rw [lineKey, hpos, Option.bind_some, htake, hdrop, hpStrTrim_self hn.2]
  rfl

/-- the first field that names the key -/
theorem findSome_field {fs : List Field} (hfs : ∀ f ∈ fs, f ∈ r.fields)
    (hex : ∃ f ∈ fs, f.isKey) (rest : List Bytes) :
    ∃ v, (fs.map Field.line ++ rest).findSome? lineKey = some v ∧ v ≠ [] := by
  induction fs with
  | nil =>
    obtain ⟨f, hf, -⟩ := hex
    cases hf
  | cons f fs ih =>
    have hf := hfs f List.mem_cons_self
    have hline := lineKey_field (r.field_name f hf)
    rw [List.map_cons, List.cons_append, List.findSome?_cons, hline]
    by_cases hk : f.isKey
    · rw [if_pos hk]
      exact ⟨hpStrTrim f.value, rfl, hpStrTrim_ne (r.key_value f hf hk)⟩
    · rw [if_neg hk]
      apply ih fun g hg => hfs g (List.mem_cons_of_mem f hg)
      obtain ⟨g, hg, hgk⟩ := hex
      rcases List.mem_cons.1 hg with rfl | hg
      · exact absurd hgk hk
      · exact ⟨g, hg, hgk⟩

/-- **A request has a key.** -/
theorem key_ne : wsRequestKey r.code ≠ [] := by
  have hlines : explodeCrlf r.code = r.lines ++ [[], []] :=
    explodeCrlf_codeLines (fun l hl => (r.lines_ok hl).2) [13, 10]
  obtain ⟨v, hv, hne⟩ := r.findSome_field (fun f hf => hf) r.has_key [[], []]
  rw [wsRequestKey, hlines, lines, List.cons_append, List.findSome?_cons, lineKey_target]
  show (List.findSome? lineKey (r.fields.map Field.line ++ [[], []])).getD [] ≠ []
  rw [hv]
  exact hne

end Request
end Websocket
end HolyPhp
