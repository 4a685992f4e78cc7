import HolyPhp.Package.Http
import HolyPhp.Runtime.Clone

/-!
# The registry

`registry/server.hphp`, for the requests that publish and fetch archives.

* `readRequest`    the loop that reads a request, for the pieces that `stream_recv` gives;
* `route`          what is done with it;
* `Store`          the archives in the folder `store`, each under its file name;
* `handlePublish`  checks an archive and stores it under two names;
* `sendPackage`    the answer to `GET /pkg/<name>`.

`$safe` is an `Hstr` that was built byte by byte, so that `$safe . ".hpx"` may be appended in
place; what is made of `$safe` behind that (the metadata, the texts of two answers) is not here.
-/

set_option linter.unusedVariables false
set_option autoImplicit false

namespace HolyPhp
namespace Package
open Json (decimal)
open Arr hiding Key
open HolyPhp.Std Substr Websocket
open Str hiding hpValToStr

/-- `33554432` -/
def maxPackage : Nat := 33554432

/-! ## reading a request -/

/-- what a line makes of `$cl` or `$clen` -/
def contentLine (cl : Int) (hl : Bytes) : Int :=
  match strpos (ascii ":") hl with
  | none => cl
  | some colon =>
    if hpStrTolower (hpStrTrim (hl.take colon)) = ascii "content-length" then
      (strtoll (hpStrTrim (hl.drop (colon + 1)))).toInt
    else cl

/-- the last `Content-Length` among the lines, or else `cl` -/
def contentLength (cl : Int) (text : Bytes) : Int := (explodeCrlf text).foldl contentLine cl

/-- the loop stops behind a chunk; the lines are those of the whole request, body included -/
def complete (req : Bytes) : Bool :=
  match strpos blankLine req with
  | none => false
  | some headEnd =>
    if req.take 4 ≠ ascii "POST" then true
    else decide (contentLength 0 req ≤ (req.length : Int) - (headEnd + 4))

/-- `$req`, for the chunks that come; `none` waits for another -/
def readRequest (req : Bytes) : List Bytes → Option Bytes
  | [] => if req.length < maxPackage then none else some req
  | chunk :: rest =>
    if req.length < maxPackage then
      if complete (req ++ chunk) then some (req ++ chunk) else readRequest (req ++ chunk) rest
    else some req

/-- `s` comes in pieces of at most `limit` bytes -/
structure Fragments (limit : Nat) (frs : List Bytes) (s : Bytes) : Prop where
  flat : frs.flatten = s
  piece : ∀ f ∈ frs, f ≠ [] ∧ f.length ≤ limit

section
variable {p s r : Bytes} {frs : List Bytes}

/-- nothing stops the loop before the end -/
theorem readRequest_all (hp : p ++ frs.flatten = s) (hne : frs ≠ []) (hf : ∀ f ∈ frs, f ≠ [])
    (hsize : s.length ≤ maxPackage) (hend : complete s = true ∨ s.length = maxPackage)
    (hopen : ∀ q, q <+: s → q ≠ s → complete q = false) : readRequest p frs = some s := by
  induction frs generalizing p with
  | nil => exact absurd rfl hne
  | cons f rest ih =>
    have hf0 := List.length_pos_iff.mpr (hf f List.mem_cons_self)
    have hlen : (p ++ (f ++ rest.flatten)).length = s.length := congrArg List.length hp
    rw [List.length_append, List.length_append] at hlen
    rw [readRequest, if_pos (by omega)]
    rw [List.flatten_cons, ← List.append_assoc] at hp
    by_cases hall : p ++ f = s
    · rw [hall]
      split
      · rfl
      · next hc =>
        have hmax := hend.resolve_left hc
        cases rest with
        | nil =>
          rw [readRequest, if_neg]
          omega
        | cons g rest =>
          have hg := List.length_pos_iff.mpr (hf g (List.mem_cons_of_mem f List.mem_cons_self))
          have hl : (p ++ f ++ (g ++ rest.flatten)).length = s.length := congrArg List.length hp
          rw [hall, List.length_append, List.length_append] at hl
          omega
    · rw [hopen (p ++ f) ⟨_, hp⟩ hall, if_neg Bool.false_ne_true]
      apply ih hp
      · rintro rfl
        rw [List.flatten_nil, List.append_nil] at hp
        exact hall hp
      · intro g hg
        exact hf g (List.mem_cons_of_mem f hg)

/-- one byte after the other -/
def bytewise (s : Bytes) : List Bytes := s.map fun c => [c]

theorem fragments_bytewise (limit : Nat) (h : 0 < limit) (s : Bytes) :
    Fragments limit (bytewise s) s where
  flat := by
    induction s with
    | nil => rfl
    | cons c s ih => exact congrArg (List.cons c) ih
  piece f hf := by
    obtain ⟨c, -, rfl⟩ := List.mem_map.mp hf
    exact ⟨List.cons_ne_nil c [], h⟩

/-- **The loop stops at the first chance** when the bytes come one by one. -/
theorem readRequest_bytewise {l : Bytes} (h : readRequest p (bytewise l) = some r)
    (hp : p.length ≤ maxPackage) : ∃ l₁ l₂, l = l₁ ++ l₂ ∧ r = p ++ l₁ ∧ r.length ≤ maxPackage ∧
      (complete r = true ∨ r.length = maxPackage) ∧
      ∀ t, t <+: l₁ → t ≠ [] → t ≠ l₁ → complete (p ++ t) = false := by
  induction l generalizing p with
  | nil =>
    rw [bytewise, List.map_nil, readRequest] at h
    split at h
    · cases h
    · next hlt =>
      cases h
      refine ⟨[], [], rfl, (List.append_nil r).symm, hp, .inr (by omega), ?_⟩
      intro t ht h0
      exact absurd (List.prefix_nil.mp ht) h0
  | cons c l ih =>
    rw [bytewise, List.map_cons, readRequest] at h
    split at h
    · next hlt =>
      split at h
      · next hc =>
        cases h
        refine ⟨[c], l, rfl, rfl, ?_, .inl hc, ?_⟩
        · rw [List.length_append]
          exact hlt
        · intro t ht h0 h1
          rcases t with _ | ⟨d, t⟩
          · exact absurd rfl h0
          · obtain ⟨he, hn⟩ := List.cons_prefix_cons.mp ht
            rw [he, List.prefix_nil.mp hn] at h1
            exact absurd rfl h1
      · next hc =>
        obtain ⟨l₁, l₂, rfl, rfl, hr, hend, hopen⟩ := ih h (by rw [List.length_append]; exact hlt)
        refine ⟨c :: l₁, l₂, rfl, List.append_assoc p [c] l₁, hr, hend, ?_⟩
        intro t ht h0 h1
        rcases t with _ | ⟨d, t⟩
        · exact absurd rfl h0
        · obtain ⟨rfl, htl⟩ := List.cons_prefix_cons.mp ht
          by_cases ht0 : t = []
          · rw [ht0]
            exact Bool.eq_false_iff.mpr hc
          · have := hopen t htl ht0 fun e => h1 (e ▸ rfl)
            rwa [List.append_assoc] at this
    · next hlt =>
      cases h
      refine ⟨[], c :: l, rfl, (List.append_nil r).symm, hp, .inr (by omega), ?_⟩
      intro t ht h0
      exact absurd (List.prefix_nil.mp ht) h0

end

/-! ## what is done with it -/

inductive Route where
  /-- no answer -/
  | closed
  | index
  | search (target : Bytes)
  | pkg (name : Bytes)
  | publish (body : Bytes)
  | unknown

/-- from `$parts` on -/
def routeLine (reqLine head body : Bytes) : Route :=
  match reqLine.splitOn 32 with
  | method :: target :: _ =>
    let body :=
      if method = ascii "POST" then hpbiSubstr body 0 (some (contentLength 0 head)) else body
    if method = ascii "GET" ∧ (target = ascii "/" ∨ target = ascii "/index") then .index
    else if method = ascii "GET" ∧ strpos (ascii "/search") target = some 0 then .search target
    else if method = ascii "GET" ∧ strpos (ascii "/pkg/") target = some 0 then .pkg (target.drop 5)
    else if method = ascii "POST" ∧ target = ascii "/publish" then .publish body
    else .unknown
  | _ => .closed

def reqLine (head : Bytes) : Bytes :=
  match strpos [13, 10] head with
  | some lineEnd => head.take lineEnd
  | none => head

def route (req : Bytes) : Route :=
  match strpos blankLine req with
  | none => .closed
  | some headEnd =>
    routeLine (reqLine (req.take headEnd)) (req.take headEnd) (req.drop (headEnd + 4))

def sendResponse (code : Nat) (status ctype body : Bytes) : Bytes :=
  ascii "HTTP/1.1 " ++ decimal code ++ ascii " " ++ status ++ ascii "\r\n" ++
    ascii "Content-Type: " ++ ctype ++ ascii "\r\n" ++ ascii "Content-Length: " ++
    decimal body.length ++ ascii "\r\n" ++ ascii "Connection: close\r\n\r\n" ++ body

/-! ## names -/

/-- `$s . $t` -/
def dot (s : Hstr) (t : Bytes) : Hstr := if s.hasRoom t.length then s.push t else s.join (hpStrNew t)

/-- `$s` behind `$s . $t` -/
def afterDot (s : Hstr) (t : Bytes) : Hstr := if s.hasRoom t.length then s.push t else s

def isSafeByte (c : UInt8) : Bool :=
  (97 ≤ c && c ≤ 122) || ((48 ≤ c && c ≤ 57) || (c = 95 || c = 45))

/-- the loop of `sanitize_name` -/
def safeLoop (safe : Hstr) : Bytes → Option Hstr
  | [] => some safe
  | c :: cs => if isSafeByte c then safeLoop (dot safe [c]) cs else none

def sanitizeName (name : Bytes) : Option Hstr :=
  (safeLoop (hpStrNew []) name).bind fun safe => if safe.bytes = [] then none else some safe

/-! ## the store -/

/-- the archives in the folder, by file name -/
structure Store where
  file : Bytes → Option Bytes
  fits : ∀ name c, file name = some c → c.length ≤ maxPackage

def Store.empty : Store := ⟨fun _ => none, fun _ _ h => nomatch h⟩

/-- `file_put_contents($store . "/" . $name, $c)`: the path ends at a NUL, and there are no folders
in the folder -/
def Store.put (st : Store) (name c : Bytes) (hc : c.length ≤ maxPackage) : Store :=
  if 47 ∈ cstr name then st
  else
    { file := fun n => if n = cstr name then some c else st.file n
      fits := fun n c' h => by
        split at h
        · exact Option.some.inj h ▸ hc
        · exact st.fits n c' h }

def hpx : Bytes := ascii ".hpx"

def sendPackage (st : Store) (name : Bytes) : Bytes :=
  match sanitizeName name with
  | none => sendResponse 400 (ascii "Bad Request") (ascii "text/plain") (ascii "bad package name\n")
  | some safe =>
    match st.file (dot safe hpx).bytes with
    | none => sendResponse 404 (ascii "Not Found") (ascii "text/plain")
        (ascii "package not found: " ++ (afterDot safe hpx).bytes ++ ascii "\n")
    | some c => sendResponse 200 (ascii "OK") (ascii "application/octet-stream") c

/-! ## publishing -/

/-- `strpos` with an offset -/
def strposFrom (pat s : Bytes) (o : Int) : Option Nat :=
  (strpos pat (s.drop (min o.toNat s.length))).map (· + min o.toNat s.length)

/-- the loop of `hpx_files`; `none` does not return -/
def hpxFiles (text : Bytes) : Nat → Int → Harr → Option Harr
  | 0, _, _ => none
  | fuel + 1, pos, files =>
    if (text.length : Int) ≤ pos then some files
    else match strposFrom [10] text pos with
      | none => some files
      | some nl =>
        let hdr := hpStrTrim (hpbiSubstr text pos (some (nl - pos)))
        let pos : Int := nl + 1
        if hdr = ascii "HPHX1" then some files
        else match strpos [32] hdr with
          | none => some files
          | some sp =>
            let flen := (strtoll (hdr.drop (sp + 1))).toInt
            (hpArrSet files (.str (some (hdr.take sp)))
              (.str (some (hpbiSubstr text pos (some flen))))).bind
              (hpxFiles text fuel (wrap64 (pos + flen)))

/-- `isset($m[$k])` -/
def issetVal (h : Std.Heap) (m : Val) (k : Bytes) : Option Bool :=
  match m with
  | .arr (some p) => h[p]?.bind fun a => hpArrHas a (.str (some k))
  | _ => some false

/-- `$m[$k]`, of an array -/
def elementVal (h : Std.Heap) (m : Val) (k : Bytes) : Option Val :=
  match m with
  | .arr (some p) => h[p]?.bind fun a => hpArrGet a (.str (some k))
  | _ => some .null

section
variable (strtod : Bytes → Double) (junk : Nat → Val) (fromDouble : Double → Bytes)

/-- the checks of `handle_publish`: the two file names, or `none` where it refuses; the outer
`none` does not return -/
def archiveNames (fuel : Nat) (text : Bytes) : Option (Option (Bytes × Bytes)) :=
  (hpxFiles text fuel 0 (hpArrNew junk)).bind fun files =>
  (hpArrHas files (.str (some (ascii "hphp.json")))).bind fun has =>
  if !has then some none else
  (hpArrGet files (.str (some (ascii "hphp.json")))).bind fun json =>
  (hpbiJsonDecode strtod junk fromDouble fuel [] json).bind fun (m, h, _) =>
  if Clone.hpValEq strtod h m .null then some none else
  (issetVal h m (ascii "name")).bind fun hasName =>
  if !hasName then some none else
  (issetVal h m (ascii "version")).bind fun hasVersion =>
  if !hasVersion then some none else
  (elementVal h m (ascii "name")).bind fun name =>
  match sanitizeName (hpValToStr fromDouble name) with
  | none => some none
  | some safe => (elementVal h m (ascii "version")).map fun version =>
      some (safe.bytes ++ ascii "-" ++ hpValToStr fromDouble version ++ hpx, (dot safe hpx).bytes)

/-- the store and the status of the answer -/
def handlePublish (fuel : Nat) (st : Store) (text : Bytes) : Option (Store × Nat) :=
  if h : maxPackage < text.length then some (st, 413)
  else (archiveNames strtod junk fromDouble fuel text).map fun names => match names with
    | none => (st, 400)
    | some (versioned, latest) =>
      ((st.put versioned text (Nat.le_of_not_lt h)).put latest text (Nat.le_of_not_lt h), 200)

end

/-! ## names that are safe -/

def SafeName (name : Bytes) : Prop := name ≠ [] ∧ ∀ c ∈ name, isSafeByte c = true

section
variable {s safe : Hstr} {t name : Bytes} {c : UInt8}

theorem dot_bytes (s : Hstr) (t : Bytes) : (dot s t).bytes = s.bytes ++ t := by
  unfold dot
  split
  · next h => exact (Hstr.push_of_room h).1
  · rfl

theorem safeLoop_all (h : ∀ c ∈ t, isSafeByte c = true) :
    ∃ r, safeLoop s t = some r ∧ r.bytes = s.bytes ++ t := by
  induction t generalizing s with
  | nil => exact ⟨s, rfl, (List.append_nil _).symm⟩
  | cons c t ih =>
    obtain ⟨r, hr, hb⟩ := ih (s := dot s [c]) fun d hd => h d (List.mem_cons_of_mem c hd)
    refine ⟨r, ?_, ?_⟩
    · rw [safeLoop, if_pos (h c List.mem_cons_self), hr]
    · rw [hb, dot_bytes, List.append_assoc]
      rfl

theorem of_safeLoop (h : safeLoop s t = some safe) :
    (∀ c ∈ t, isSafeByte c = true) ∧ safe.bytes = s.bytes ++ t := by
  induction t generalizing s with
  | nil =>
    cases h
    exact ⟨fun c hc => absurd hc List.not_mem_nil, (List.append_nil _).symm⟩
  | cons c t ih =>
    rw [safeLoop] at h
    split at h
    · next hc =>
      obtain ⟨hall, hb⟩ := ih h
      refine ⟨?_, ?_⟩
      · intro d hd
        rcases List.mem_cons.mp hd with rfl | hd
        · exact hc
        · exact hall d hd
      · rw [hb, dot_bytes, List.append_assoc]
        rfl
    · cases h

theorem sanitizeName_of (h : SafeName name) :
    ∃ safe, sanitizeName name = some safe ∧ safe.bytes = name := by
  obtain ⟨r, hr, hb⟩ := safeLoop_all (s := hpStrNew []) h.2
  have hb' : r.bytes = name := hb
  refine ⟨r, ?_, hb'⟩
  rw [sanitizeName, hr, Option.bind_some, hb', if_neg h.1]

theorem of_sanitizeName (h : sanitizeName name = some safe) : SafeName name ∧ safe.bytes = name := by
  obtain ⟨r, hr, he⟩ := Option.bind_eq_some_iff.mp h
  obtain ⟨hall, hb⟩ := of_safeLoop hr
  have hb' : r.bytes = name := hb
  split at he
  · cases he
  · next hne =>
    cases he
    exact ⟨⟨hb' ▸ hne, hall⟩, hb'⟩

theorem safe_clean (h : isSafeByte c = true) : c ≠ 0 ∧ c ≠ 13 ∧ c ≠ 32 ∧ c ≠ 47 ∧ c ≠ 58 := by
  refine ⟨?_, ?_, ?_, ?_, ?_⟩ <;> (rintro rfl; cases h)

theorem cstr_eq_self : cstr t = t ↔ 0 ∉ t := takeWhile_ne_iff

theorem SafeName.clean (h : SafeName name) (b : UInt8)
    (hb : b = 0 ∨ b = 13 ∨ b = 32 ∨ b = 47 ∨ b = 58) : b ∉ name := by
  intro hm
  obtain ⟨h0, h13, h32, h47, h58⟩ := safe_clean (h.2 b hm)
  rcases hb with hb | hb | hb | hb | hb
  exacts [h0 hb, h13 hb, h32 hb, h47 hb, h58 hb]

theorem SafeName.cstr_hpx (h : SafeName name) :
    cstr (name ++ hpx) = name ++ hpx ∧ 47 ∉ cstr (name ++ hpx) := by
  have h0 : cstr (name ++ hpx) = name ++ hpx := by
    apply cstr_eq_self.mpr
    rw [List.mem_append, not_or]
    exact ⟨h.clean 0 (by simp), by decide⟩
  rw [h0, List.mem_append, not_or]
  exact ⟨rfl, h.clean 47 (by simp), by decide⟩

end

/-! ## what is stored -/

section
variable {st st' : Store} {name n c c' text : Bytes} {hc : c.length ≤ maxPackage}

variable (st hc) in
theorem put_self (h : 47 ∉ cstr name) : (st.put name c hc).file (cstr name) = some c := by
  rw [Store.put, if_neg h]
  exact if_pos rfl

theorem of_put (h : (st.put name c hc).file n = some c') : c' = c ∨ st.file n = some c' := by
  rw [Store.put] at h
  split at h
  · exact .inr h
  · dsimp only at h
    split at h
    · exact .inl (Option.some.inj h).symm
    · exact .inr h

variable {strtod : Bytes → Double} {junk : Nat → Val} {fromDouble : Double → Bytes} {fuel code : Nat}

/-- the second name of an archive -/
theorem latest_name {v l : Bytes}
    (h : archiveNames strtod junk fromDouble fuel text = some (some (v, l))) :
    ∃ name, SafeName name ∧ l = name ++ hpx := by
  unfold archiveNames at h
  obtain ⟨files, -, h⟩ := Option.bind_eq_some_iff.mp h
  obtain ⟨has, -, h⟩ := Option.bind_eq_some_iff.mp h
  split at h
  · cases h
  obtain ⟨json, -, h⟩ := Option.bind_eq_some_iff.mp h
  obtain ⟨⟨m, heap, rest⟩, -, h⟩ := Option.bind_eq_some_iff.mp h
  dsimp only at h
  split at h
  · cases h
  obtain ⟨hasName, -, h⟩ := Option.bind_eq_some_iff.mp h
  split at h
  · cases h
  obtain ⟨hasVersion, -, h⟩ := Option.bind_eq_some_iff.mp h
  split at h
  · cases h
  obtain ⟨x, -, h⟩ := Option.bind_eq_some_iff.mp h
  split at h
  · cases h
  · next safe hs =>
    obtain ⟨version, -, he⟩ := Option.map_eq_some_iff.mp h
    obtain ⟨hn, hb⟩ := of_sanitizeName hs
    refine ⟨_, hn, ?_⟩
    rw [← hb, ← dot_bytes]
    exact (Prod.mk.inj (Option.some.inj he)).2.symm

/-- **Only the archive is stored**, and what was there stays or makes place for it. -/
theorem handlePublish_only (h : handlePublish strtod junk fromDouble fuel st text = some (st', code))
    (hf : st'.file n = some c) : c = text ∨ st.file n = some c := by
  unfold handlePublish at h
  split at h
  · cases h
    exact .inr hf
  · obtain ⟨names, -, he⟩ := Option.map_eq_some_iff.mp h
    rcases names with _ | ⟨v, l⟩
    · cases he
      exact .inr hf
    · cases he
      rcases of_put hf with h | h
      · exact .inl h
      · exact of_put h

/-- **An archive that passes the checks is stored** under its second name. -/
theorem handlePublish_stores {v l : Bytes} (hsmall : text.length ≤ maxPackage)
    (hn : archiveNames strtod junk fromDouble fuel text = some (some (v, l))) (st : Store) :
    ∃ st', handlePublish strtod junk fromDouble fuel st text = some (st', 200) ∧
      st'.file l = some text := by
  obtain ⟨name, hs, rfl⟩ := latest_name hn
  obtain ⟨he, h47⟩ := hs.cstr_hpx
  refine ⟨(st.put v text hsmall).put (name ++ hpx) text hsmall, ?_, ?_⟩
  · rw [handlePublish, dif_neg (Nat.not_lt.mpr hsmall), hn]
    rfl
  · have hp := put_self (st.put v text hsmall) hsmall h47
    rwa [he] at hp

end

end Package
end HolyPhp
