import HolyPhp.Package.ArchiveRun
import HolyPhp.Websocket.Handshake

/-!
# The HTTP client of the package commands

* `urlParse`, `requestHead`, `requestText`  what is sent;
* `recvAll`       the buffer of `recv_all`, for the pieces that `recv` gives;
* `httpResponse`  status and body of what has come; the C strings of `strstr` end at a NUL;
* `pkgnetGet`     the bytes that the caller of `pkgnet_get` gets: as far as `strlen` counts.

A registry has an `Address`; the results are about requests to it and answers with such a head.
-/

set_option linter.unusedVariables false
set_option autoImplicit false

namespace HolyPhp
namespace Package
open Json (decimal)
open HolyPhp.Std Substr Websocket

/-! ## `pkgnet.c` -/

/-- a C string -/
def cstr (s : Bytes) : Bytes := s.takeWhile fun c => c ≠ 0

structure UrlParts where
  host : Bytes
  port : Bytes
  path : Bytes

def urlParse (url : Bytes) : Option UrlParts :=
  if !(ascii "http://").isPrefixOf url then none
  else
    let url := url.drop 7
    let slash := url.idxOf? 47
    let colon := url.idxOf? 58
    let hl := match slash, colon with
      | some s, some c => if c < s then c else s
      | some s, none => s
      | none, _ => url.length
    let port := match slash, colon with
      | some s, some c => if c < s then ((url.drop (c + 1)).take (s - c - 1)).take 15 else ascii "80"
      | none, some c => (url.drop (c + 1)).take 15
      | _, none => ascii "80"
    let path := match slash with
      | some s => (url.drop s).take 1023
      | none => ascii "/"
    if 256 ≤ hl then none else if hl = 0 then none else some ⟨url.take hl, port, path⟩

/-- `hdr`, for a body of `n` bytes or without one -/
def requestHead (method : Bytes) (u : UrlParts) (ctype : Option Bytes) : Option Nat → Bytes
  | some n =>
    (method ++ ascii " " ++ u.path ++ ascii " HTTP/1.1\r\nHost: " ++ u.host ++ ascii ":" ++ u.port ++
      ascii "\r\nConnection: close\r\nContent-Type: " ++
      ctype.getD (ascii "application/octet-stream") ++ ascii "\r\nContent-Length: " ++ decimal n ++
      ascii "\r\nUser-Agent: hphp/1.0\r\n\r\n").take 2047
  | none =>
    (method ++ ascii " " ++ u.path ++ ascii " HTTP/1.1\r\nHost: " ++ u.host ++ ascii ":" ++ u.port ++
      ascii "\r\nConnection: close\r\n" ++ ascii "Content-Length: 0\r\n" ++
      ascii "User-Agent: hphp/1.0\r\nAccept: */*\r\n\r\n").take 2047

/-- what `send(s, body, (int)body_len, 0)` sends; with a negative length nothing -/
def sentPart (body : Bytes) : Bytes := body.take (Int.bmod body.length (2 ^ 32)).toNat

/-- the bytes that `http_request` sends -/
def requestText (method url : Bytes) (ctype body : Option Bytes) : Option Bytes :=
  (urlParse url).map fun u =>
    requestHead method u ctype (body.map List.length) ++ sentPart (body.getD [])

/-- the capacity for the next `recv` -/
def grown (cap len : Nat) : Nat := if cap < len + 4096 then cap * 2 else cap

/-- `recv_all`: `cap` and `buf` at the head of the loop, and what each `recv` gives; none of them
gives more than there is room for -/
def recvAll (cap : Nat) (buf : Bytes) : List Bytes → Option Bytes
  | [] => some buf
  | r :: rs =>
    if r.length ≤ grown cap buf.length - buf.length - 1 then
      recvAll (grown cap buf.length) (buf ++ r) rs
    else none

/-- `atoi` -/
def atoi (s : Bytes) : Int := (strtoll s).toInt.bmod (2 ^ 32)

/-- where the body begins -/
def bodyStart (raw : Bytes) : Option Nat :=
  match strpos blankLine (cstr raw) with
  | some i => some (i + 4)
  | none => (strpos (ascii "\n\n") (cstr raw)).map (· + 2)

/-- `cl` -/
def contentLengthAt (raw : Bytes) : Option Nat :=
  match strpos (ascii "ontent-Length:") (cstr raw) with
  | some i => some i
  | none => strpos (ascii "ONTENT-LENGTH:") (cstr raw)

/-- status and body -/
def httpResponse (raw : Bytes) : Option (Int × Bytes) :=
  if !(ascii "HTTP/").isPrefixOf (cstr raw) then none
  else (bodyStart raw).map fun b =>
    let total := raw.length - b
    let total := match contentLengthAt raw with
      | some cl => if cl < b then min (strtoull (raw.drop (cl + 15))) total else total
      | none => total
    (atoi (raw.drop 9), (raw.drop b).take total)

/-- status and the first `*out_len` bytes of the body -/
def pkgnetGet (raw : Bytes) : Option (Int × Bytes) := (httpResponse raw).map fun r => (r.1, cstr r.2)

/-! ## addresses -/

/-- the registry `http://host` or `http://host:port` -/
structure Address where
  host : Bytes
  port : Option Bytes
  host_ne : host ≠ []
  host_fits : host.length < 256
  host_clean : ∀ c ∈ host, c ≠ 0 ∧ c ≠ 13 ∧ c ≠ 47 ∧ c ≠ 58
  port_fits : ∀ p, port = some p → p.length < 16
  port_clean : ∀ p, port = some p → ∀ c ∈ p, c ≠ 0 ∧ c ≠ 13 ∧ c ≠ 47 ∧ c ≠ 58

namespace Address
variable (a : Address)

def base : Bytes := ascii "http://" ++ a.host ++ match a.port with
  | some p => 58 :: p
  | none => []

def portText : Bytes := a.port.getD (ascii "80")

end Address

section
variable {s t : Bytes} {n : Nat}

theorem idxOf_skip {c : UInt8} {l r : Bytes} (h : c ∉ l) :
    (l ++ c :: r).idxOf? c = some l.length := by
  induction l with
  | nil => simp [List.idxOf?_cons]
  | cons d l ih =>
    rw [List.mem_cons, not_or] at h
    rw [List.cons_append, List.idxOf?_cons, ih h.2]
    have hne : (d == c) = false := beq_false_of_ne fun e => h.1 e.symm
    rw [hne]
    rfl

theorem idxOf_none {c : UInt8} {l : Bytes} (h : c ∉ l) : l.idxOf? c = none :=
  List.idxOf?_eq_none_iff.mpr h

namespace Address
variable (a : Address)

theorem not_mem_host (c : UInt8) (h : c = 0 ∨ c = 13 ∨ c = 47 ∨ c = 58) : c ∉ a.host := by
  intro hc
  obtain ⟨h0, h1, h2, h3⟩ := a.host_clean c hc
  rcases h with h | h | h | h
  exacts [h0 h, h1 h, h2 h, h3 h]

theorem not_mem_port {p : Bytes} (hp : a.port = some p) (c : UInt8)
    (h : c = 0 ∨ c = 13 ∨ c = 47 ∨ c = 58) : c ∉ p := by
  intro hc
  obtain ⟨h0, h1, h2, h3⟩ := a.port_clean p hp c hc
  rcases h with h | h | h | h
  exacts [h0 h, h1 h, h2 h, h3 h]

theorem urlParse_base (path : Bytes) (hc : 58 ∉ path) :
    urlParse (a.base ++ 47 :: path) = some ⟨a.host, a.portText, (47 :: path).take 1023⟩ := by
  have hpre : (ascii "http://").isPrefixOf (a.base ++ 47 :: path) = true := by
    rw [List.isPrefixOf_iff_prefix, base, List.append_assoc, List.append_assoc]
    exact List.prefix_append _ _
  have hlen : ¬ 256 ≤ a.host.length := by
    have := a.host_fits
    omega
  have hne : ¬ a.host.length = 0 := fun h => a.host_ne (List.length_eq_zero_iff.mp h)
  unfold urlParse
  rw [hpre]
  simp only [Bool.not_true, Bool.false_eq_true, if_false]
  cases hp : a.port with
  | some p =>
    have hdrop : (a.base ++ 47 :: path).drop 7 = a.host ++ 58 :: (p ++ 47 :: path) := by
      rw [base, hp, List.append_assoc, List.append_assoc]
      rfl
    have hslash : (a.host ++ 58 :: (p ++ 47 :: path)).idxOf? 47 =
        some (a.host.length + 1 + p.length) := by
      have hni : (47 : UInt8) ∉ a.host ++ 58 :: p := by
        rw [List.mem_append, List.mem_cons]
        rintro (h | h | h)
        · exact a.not_mem_host 47 (by simp) h
        · exact absurd h (by decide)
        · exact a.not_mem_port hp 47 (by simp) h
      have h := idxOf_skip (r := path) hni
      rw [List.append_assoc, List.cons_append, List.length_append, List.length_cons] at h
      rw [h]
      congr 1
      omega
    have hcolon := idxOf_skip (r := p ++ 47 :: path) (a.not_mem_host 58 (by simp))
    have hlt : a.host.length < a.host.length + 1 + p.length := by omega
    have hport : ((a.host ++ 58 :: (p ++ 47 :: path)).drop (a.host.length + 1)).take
        (a.host.length + 1 + p.length - a.host.length - 1) = p := by
      rw [← List.drop_drop, List.drop_left]
      show (p ++ 47 :: path).take _ = p
      rw [show a.host.length + 1 + p.length - a.host.length - 1 = p.length by omega, List.take_left]
    have hpath : (a.host ++ 58 :: (p ++ 47 :: path)).drop (a.host.length + 1 + p.length) =
        47 :: path := by
      rw [← List.drop_drop, ← List.drop_drop, List.drop_left]
      exact List.drop_left
    have h15 := a.port_fits p hp
    simp only [hdrop, hslash, hcolon, if_pos hlt, hport, hpath, if_neg hlen, if_neg hne,
      List.take_left]
    rw [List.take_of_length_le (show p.length ≤ 15 by omega), portText, hp]
    rfl
  | none =>
    have hdrop : (a.base ++ 47 :: path).drop 7 = a.host ++ 47 :: path := by
      rw [base, hp, List.append_nil, List.append_assoc]
      rfl
    have hslash := idxOf_skip (r := path) (a.not_mem_host 47 (by simp))
    have hcolon : (a.host ++ 47 :: path).idxOf? 58 = none := by
      apply idxOf_none
      rw [List.mem_append, List.mem_cons]
      rintro (h | h | h)
      · exact a.not_mem_host 58 (by simp) h
      · exact absurd h (by decide)
      · exact hc h
    simp only [hdrop, hslash, hcolon, if_neg hlen, if_neg hne, List.take_left, List.drop_left]
    rw [portText, hp]
    rfl

theorem portText_clean (c : UInt8) (h : c = 0 ∨ c = 13) : c ∉ a.portText := by
  unfold portText
  cases hp : a.port with
  | none => rcases h with rfl | rfl <;> decide
  | some p => exact a.not_mem_port hp c (by rcases h with h | h <;> simp [h])

theorem portText_fits : a.portText.length < 16 := by
  unfold portText
  cases hp : a.port with
  | none => decide
  | some p => exact a.port_fits p hp

end Address

/-! ## requests -/

/-- a head without a limit -/
def headOf (lines : List Bytes) : Bytes := codeLines lines ++ [13, 10]

/-- the lines of a request with a body of `n` bytes -/
def postLines (a : Address) (path : Bytes) (n : Nat) : List Bytes :=
  [ascii "POST " ++ path ++ ascii " HTTP/1.1", ascii "Host: " ++ a.host ++ ascii ":" ++ a.portText,
    ascii "Connection: close", ascii "Content-Type: application/octet-stream",
    ascii "Content-Length: " ++ decimal n, ascii "User-Agent: hphp/1.0"]

def getLines (a : Address) (path : Bytes) : List Bytes :=
  [ascii "GET " ++ path ++ ascii " HTTP/1.1", ascii "Host: " ++ a.host ++ ascii ":" ++ a.portText,
    ascii "Connection: close", ascii "Content-Length: 0", ascii "User-Agent: hphp/1.0",
    ascii "Accept: */*"]

theorem length_ascii (s : String) : (ascii s).length = s.length := by
  rw [ascii, List.length_map, String.length_toList]

theorem length_decimal {n : Nat} (h : n < 2 ^ 64) : (decimal n).length ≤ 20 := by
  rw [decimal, List.length_map, Nat.length_toDigits_le_iff (by decide) (by decide)]
  exact Nat.lt_of_lt_of_le h (by decide)

variable (a : Address) {path : Bytes}

variable (path) in
theorem requestHead_post (hp : path.length ≤ 1023) (hn : n < 2 ^ 64) :
    requestHead (ascii "POST") ⟨a.host, a.portText, path⟩
        (some (ascii "application/octet-stream")) (some n) = headOf (postLines a path n) := by
  have hd := length_decimal hn
  have hh := a.host_fits
  have ht := a.portText_fits
  have h1 : ascii " HTTP/1.1\r\nHost: " = ascii " HTTP/1.1" ++ ([13, 10] ++ ascii "Host: ") := rfl
  have h2 : ascii "\r\nConnection: close\r\nContent-Type: " =
      [13, 10] ++ (ascii "Connection: close" ++ ([13, 10] ++ ascii "Content-Type: ")) := rfl
  have h3 : ascii "\r\nContent-Length: " = [13, 10] ++ ascii "Content-Length: " := rfl
  have h4 : ascii "\r\nUser-Agent: hphp/1.0\r\n\r\n" =
      [13, 10] ++ (ascii "User-Agent: hphp/1.0" ++ ([13, 10] ++ [13, 10])) := rfl
  have h5 : ascii "Content-Type: application/octet-stream" =
      ascii "Content-Type: " ++ ascii "application/octet-stream" := rfl
  have h6 : ascii "POST " = ascii "POST" ++ ascii " " := rfl
  rw [requestHead, List.take_of_length_le]
  · rw [headOf, postLines, h1, h2, h3, h4, h5, h6]
    simp only [codeLines, List.flatMap_cons, List.flatMap_nil, Option.getD_some, List.append_assoc,
      List.append_nil]
  · simp only [List.length_append, length_ascii, Option.getD_some]
    show 4 + 1 + path.length + 17 + a.host.length + 1 + a.portText.length + 35 + 24 + 18 +
      (decimal n).length + 26 ≤ 2047
    omega

theorem postLines_ok (hp : 13 ∉ path) {l : Bytes} (h : l ∈ postLines a path n) :
    l ≠ [] ∧ 13 ∉ l := by
  have hh := a.not_mem_host 13 (by simp)
  have ht := a.portText_clean 13 (by simp)
  have hd : 13 ∉ decimal n := fun h => absurd (decimal_digits n _ h) (by decide)
  simp only [postLines, List.mem_cons, List.not_mem_nil, or_false] at h
  rcases h with rfl | rfl | rfl | rfl | rfl | rfl
  · simp [ascii, hp]
  · simp [ascii, hh, ht]
  · decide
  · decide
  · simp [ascii, hd]
  · decide

theorem getLines_ok (hp : 13 ∉ path) {l : Bytes} (h : l ∈ getLines a path) : l ≠ [] ∧ 13 ∉ l := by
  have hh := a.not_mem_host 13 (by simp)
  have ht := a.portText_clean 13 (by simp)
  simp only [getLines, List.mem_cons, List.not_mem_nil, or_false] at h
  rcases h with rfl | rfl | rfl | rfl | rfl | rfl
  · simp [ascii, hp]
  · simp [ascii, hh, ht]
  · decide
  · decide
  · decide
  · decide

variable (path) in
theorem requestHead_get (hp : path.length ≤ 1023) :
    requestHead (ascii "GET") ⟨a.host, a.portText, path⟩ none none = headOf (getLines a path) := by
  have hh := a.host_fits
  have ht := a.portText_fits
  have h1 : ascii " HTTP/1.1\r\nHost: " = ascii " HTTP/1.1" ++ ([13, 10] ++ ascii "Host: ") := rfl
  have h2 : ascii "\r\nConnection: close\r\n" =
      [13, 10] ++ (ascii "Connection: close" ++ [13, 10]) := rfl
  have h3 : ascii "Content-Length: 0\r\n" = ascii "Content-Length: 0" ++ [13, 10] := rfl
  have h4 : ascii "User-Agent: hphp/1.0\r\nAccept: */*\r\n\r\n" =
      ascii "User-Agent: hphp/1.0" ++ ([13, 10] ++ (ascii "Accept: */*" ++ ([13, 10] ++ [13, 10]))) :=
    rfl
  have h5 : ascii "GET " = ascii "GET" ++ ascii " " := rfl
  rw [requestHead, List.take_of_length_le]
  · rw [headOf, getLines, h1, h2, h3, h4, h5]
    simp only [codeLines, List.flatMap_cons, List.flatMap_nil, List.append_assoc, List.append_nil]
  · simp only [List.length_append, length_ascii]
    show 3 + 1 + path.length + 17 + a.host.length + 1 + a.portText.length + 21 + 19 + 37 ≤ 2047
    omega

end

end Package
end HolyPhp
