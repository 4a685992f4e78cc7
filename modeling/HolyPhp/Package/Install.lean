import HolyPhp.Package.Publish

/-!
# Installing an archive

* `installRequest_eq`  the request asks for the name as far as the buffer of the path goes;
* `cacheFile_ok`       of the answer of the registry, the cache gets what stands before a NUL;
* `transfer_iff`       **what is published and what is installed**, and when it is the archive.
-/

set_option linter.unusedVariables false
set_option autoImplicit false

namespace HolyPhp
namespace Package
open Json (decimal)
open Arr hiding Key
open HolyPhp.Std Substr Websocket
open Str hiding hpValToStr

/-! ## installing -/

/-- what `pkgnet_get` sends for `pkg_install_registry` -/
def installRequest (a : Address) (name : Bytes) : Option Bytes :=
  requestText (ascii "GET") (a.base ++ ascii "/pkg/" ++ name) none none

/-- what `pkg_install_registry` writes to the cache, if it writes -/
def cacheFile (raw : Bytes) : Option Bytes :=
  (pkgnetGet raw).bind fun r => if r.1 = 200 then some r.2 else none

section
variable {cap : Nat} {buf raw s : Bytes} {rs : List Bytes}

theorem recvAll_flatten (h : recvAll cap buf rs = some raw) : raw = buf ++ rs.flatten := by
  induction rs generalizing cap buf with
  | nil =>
    cases h
    exact (List.append_nil _).symm
  | cons r rs ih =>
    rw [recvAll] at h
    split at h
    · rw [ih h, List.append_assoc]
      rfl
    · cases h

/-- there is always room for a byte -/
theorem recvAll_bytewise (h : buf.length + 1 < cap) :
    recvAll cap buf (bytewise s) = some (buf ++ s) := by
  induction s generalizing cap buf with
  | nil =>
    rw [List.append_nil]
    rfl
  | cons c s ih =>
    rw [bytewise, List.map_cons, recvAll]
    have hcap : buf.length + 2 < grown cap buf.length := by
      unfold grown
      split
      · omega
      · omega
    have hlen : (buf ++ [c]).length + 1 < grown cap buf.length := by
      rw [List.length_append]
      exact hcap
    rw [if_pos (by show 1 ≤ _; omega)]
    show recvAll _ _ (bytewise s) = _
    rw [ih hlen, List.append_assoc]
    rfl

end

section
variable (a : Address) {name content t : Bytes}

def installHead (name : Bytes) : Bytes := headOf (getLines a (ascii "/pkg/" ++ name))

theorem installLines_ok (h : 13 ∉ name) :
    ∀ l ∈ getLines a (ascii "/pkg/" ++ name), l ≠ [] ∧ 13 ∉ l := by
  intro l hl
  apply getLines_ok a _ hl
  rw [List.mem_append, not_or]
  exact ⟨by decide, h⟩

/-- the path is cut -/
theorem installRequest_eq (h : 58 ∉ name) :
    installRequest a name = some (installHead a (name.take 1018)) := by
  have hpath : 58 ∉ ascii "pkg/" ++ name := by
    rw [List.mem_append, not_or]
    exact ⟨by decide, h⟩
  have hu := a.urlParse_base _ hpath
  have hcut : (47 :: (ascii "pkg/" ++ name)).take 1023 = ascii "/pkg/" ++ name.take 1018 := rfl
  have hh := requestHead_get a (ascii "/pkg/" ++ name.take 1018) (by
    rw [List.length_append, List.length_take]
    show 5 + _ ≤ _
    omega)
  rw [installRequest, requestText, List.append_assoc]
  show (urlParse (a.base ++ 47 :: (ascii "pkg/" ++ name))).map _ = _
  rw [hu, Option.map_some, hcut]
  show some (requestHead (ascii "GET") _ none none ++ []) = _
  rw [hh, List.append_nil]
  rfl

theorem route_install (h13 : 13 ∉ name) (h32 : 32 ∉ name) :
    route (installHead a name) = .pkg name := by
  obtain ⟨head, -, hr⟩ := route_headOf [_, _, _, _] (installLines_ok a h13) []
  have hr' : route (installHead a name ++ []) =
      routeLine (ascii "GET " ++ (ascii "/pkg/" ++ name) ++ ascii " HTTP/1.1") head [] := hr
  have hparts : (ascii "GET " ++ (ascii "/pkg/" ++ name) ++ ascii " HTTP/1.1").splitOn 32 =
      [ascii "GET", ascii "/pkg/" ++ name, ascii "HTTP/1.1"] := by
    have h1 : (32 : UInt8) ∉ ascii "GET" := by decide
    have h2 : 32 ∉ ascii "/pkg/" ++ name := by
      rw [List.mem_append, not_or]
      exact ⟨by decide, h32⟩
    show (ascii "GET" ++ 32 :: (ascii "/pkg/" ++ name) ++ 32 :: ascii "HTTP/1.1").splitOn 32 = _
    rw [List.append_assoc, List.cons_append, List.splitOn_append_cons_self_of_not_mem h1,
      List.splitOn_append_cons_self_of_not_mem h2, List.splitOn_eq_singleton (by decide)]
  have h1 : ¬ (ascii "GET" = ascii "GET" ∧
      (ascii "/pkg/" ++ name = ascii "/" ∨ ascii "/pkg/" ++ name = ascii "/index")) := by
    rintro ⟨-, h | h⟩
    · have := congrArg (List.take 2) h
      exact absurd this (by show ¬ ascii "/p" = ascii "/"; decide)
    · have := congrArg (List.take 2) h
      exact absurd this (by show ¬ ascii "/p" = ascii "/i"; decide)
  have h2 : strpos (ascii "/search") (ascii "/pkg/" ++ name) ≠ some 0 := by
    intro h
    have hne : ¬ ascii "/search" <+: 47 :: (ascii "pkg/" ++ name) := by
      intro hp
      exact absurd (List.cons_prefix_cons.mp (List.cons_prefix_cons.mp hp).2).1 (by decide)
    have hs : strpos (ascii "/search") (ascii "/pkg/" ++ name) = _ := strpos_next hne
    rw [hs] at h
    obtain ⟨i, -, hi⟩ := Option.map_eq_some_iff.mp h
    cases hi
  have h3 : strpos (ascii "/pkg/") (ascii "/pkg/" ++ name) = some 0 := strpos_here ⟨name, rfl⟩
  rw [List.append_nil] at hr'
  rw [hr', routeLine, hparts]
  show (if _ then _ else _) = _
  rw [if_neg h1, if_neg fun h => h2 h.2, if_pos ⟨rfl, h3⟩]
  rfl

/-- the registry reads the request of an installation -/
theorem readRequest_install {frs : List Bytes} (h13 : 13 ∉ name) (hlen : name.length ≤ 1018)
    (hfrs : Fragments 65536 frs (installHead a name)) :
    readRequest [] frs = some (installHead a name) := by
  have hok := installLines_ok a h13
  have hlines : getLines a (ascii "/pkg/" ++ name) ≠ [] := List.cons_ne_nil _ _
  have h4 : 4 ≤ (installHead a name).length := by
    rw [installHead, length_headOf]
    have := two_le_codeLines hlines
    omega
  apply readRequest_all hfrs.flat
  · rintro rfl
    have := congrArg List.length hfrs.flat
    exact absurd this (by show ¬ 0 = _; omega)
  · intro f hf
    exact (hfrs.piece f hf).1
  · have hh := a.host_fits
    have ht := a.portText_fits
    rw [installHead, headOf, getLines]
    simp only [codeLines, List.flatMap_cons, List.flatMap_nil, List.length_append, length_ascii]
    show 4 + (5 + name.length) + 9 + 2 + (6 + a.host.length + 1 + a.portText.length + 2 + (17 + 2 +
      (17 + 2 + (20 + 2 + (11 + 2 + 0))))) + 2 ≤ 33554432
    omega
  · left
    have hs := strpos_headOf hlines hok []
    rw [List.append_nil] at hs
    have hs' : strpos blankLine (installHead a name) = _ := hs
    have hget : (installHead a name).take 4 = ascii "GET " := rfl
    rw [complete, hs']
    show (if (installHead a name).take 4 ≠ ascii "POST" then true else _) = _
    rw [hget]
    rfl
  · intro q hq hne
    have hq' : q <+: headOf (getLines a (ascii "/pkg/" ++ name)) ++ [] := by
      rw [List.append_nil]
      exact hq
    have hlt : q.length < (headOf (getLines a (ascii "/pkg/" ++ name))).length :=
      Nat.lt_of_le_of_ne hq.length_le fun he => hne (hq.eq_of_length he)
    rw [complete, strpos_head_part hlines hok hq' hlt]

/-- `$c`, of at most `2^64` bytes, in an answer -/
def okLines (n : Nat) : List Bytes :=
  [ascii "HTTP/1.1 200 OK", ascii "Content-Type: application/octet-stream",
    ascii "Content-Length: " ++ decimal n, ascii "Connection: close"]

theorem okLines_ok {n : Nat} : ∀ l ∈ okLines n, l ≠ [] ∧ 13 ∉ l := by
  have hd : 13 ∉ decimal n := fun h => absurd (decimal_digits n _ h) (by decide)
  simp only [okLines, List.forall_mem_cons, List.not_mem_nil, false_implies, implies_true, and_true]
  refine ⟨by decide, by decide, ?_, by decide⟩
  simp [ascii, hd]

theorem sendResponse_ok (c : Bytes) :
    sendResponse 200 (ascii "OK") (ascii "application/octet-stream") c =
      headOf (okLines c.length) ++ c := by
  have h200 : ascii "HTTP/1.1 " ++ decimal 200 ++ ascii " " ++ ascii "OK" = ascii "HTTP/1.1 200 OK" := by
    decide
  have h1 : ascii "Connection: close\r\n\r\n" = ascii "Connection: close" ++ ([13, 10] ++ [13, 10]) :=
    rfl
  have h2 : ascii "Content-Type: application/octet-stream" =
      ascii "Content-Type: " ++ ascii "application/octet-stream" := rfl
  have h3 : ascii "\r\n" = [13, 10] := rfl
  rw [sendResponse, h200, h1, h3, headOf, okLines, h2]
  simp only [codeLines, List.flatMap_cons, List.flatMap_nil, List.append_assoc, List.append_nil]

theorem status_sendResponse (code : Nat) (h : code < 2 ^ 31) (status ctype body : Bytes) :
    atoi ((sendResponse code status ctype body).drop 9) = code := by
  obtain ⟨rest, hrest⟩ : ∃ rest, sendResponse code status ctype body =
      ascii "HTTP/1.1 " ++ (decimal code ++ (32 :: rest)) := by
    simp only [sendResponse, List.append_assoc]
    exact ⟨_, rfl⟩
  rw [hrest]
  exact atoi_decimal h (stops_cons (by decide) rest)

/-- the client finds the archive in the answer -/
theorem httpResponse_ok {c : Bytes} (hc : c.length < 2 ^ 64) :
    httpResponse (headOf (okLines c.length) ++ c) = some (200, c) := by
  have hhead : 0 ∉ headOf (okLines c.length) := by
    have hd : 0 ∉ decimal c.length := fun h => absurd (decimal_digits _ _ h) (by decide)
    simp [headOf, okLines, codeLines, ascii, hd]
  have hcstr : cstr (headOf (okLines c.length) ++ c) = headOf (okLines c.length) ++ cstr c := by
    apply List.takeWhile_append_of_pos
    intro b hb
    apply decide_eq_true
    rintro rfl
    exact hhead hb
  have hne : okLines c.length ≠ [] := List.cons_ne_nil _ _
  have h4 : 4 ≤ (headOf (okLines c.length)).length := by
    rw [length_headOf]
    have := two_le_codeLines hne
    omega
  have hbody : bodyStart (headOf (okLines c.length) ++ c) =
      some (headOf (okLines c.length)).length := by
    rw [bodyStart, hcstr, strpos_headOf hne okLines_ok]
    show some (_ - 4 + 4) = _
    rw [Nat.sub_add_cancel h4]
  have hsplit : ∀ t, headOf (okLines c.length) ++ t =
      ascii "HTTP/1.1 200 OK\r\nContent-Type: application/octet-stream\r\nContent-Length: " ++
        (decimal c.length ++ (13 :: (ascii "\nConnection: close\r\n\r\n" ++ t))) := by
    intro t
    simp [headOf, okLines, codeLines, ascii]
  have hcl : contentLengthAt (headOf (okLines c.length) ++ c) = some 58 := by
    rw [contentLengthAt, hcstr, hsplit]
    rfl
  have hwant : strtoull ((headOf (okLines c.length) ++ c).drop 73) = c.length := by
    rw [hsplit]
    exact strtoull_stop hc (stops_cons (by decide) _)
  have hstatus : atoi ((headOf (okLines c.length) ++ c).drop 9) = 200 := by
    rw [← sendResponse_ok]
    exact status_sendResponse 200 (by decide) _ _ _
  have hpre : (ascii "HTTP/").isPrefixOf (cstr (headOf (okLines c.length) ++ c)) = true := by
    rw [hcstr]
    rfl
  have hlt : 58 < (headOf (okLines c.length)).length := by
    have := congrArg List.length (hsplit [])
    simp only [List.append_nil, List.length_append, length_ascii] at this
    rw [this]
    exact Nat.lt_of_lt_of_le (by decide : 58 < 73) (Nat.le_add_right _ _)
  rw [httpResponse, hpre, hbody]
  simp only [Bool.not_true, Bool.false_eq_true, if_false, Option.map_some, hcl, if_pos hlt]
  rw [hwant, hstatus, List.drop_left, List.length_append, Nat.add_sub_cancel_left, Nat.min_self,
    List.take_length]

theorem cacheFile_ok {c : Bytes} (hc : c.length < 2 ^ 64) :
    cacheFile (headOf (okLines c.length) ++ c) = some (cstr c) := by
  rw [cacheFile, pkgnetGet, httpResponse_ok hc]
  rfl

theorem status_httpResponse {raw : Bytes} {r : Int × Bytes} (h : httpResponse raw = some r) :
    r.1 = atoi (raw.drop 9) := by
  rw [httpResponse] at h
  split at h
  · cases h
  · obtain ⟨b, -, rfl⟩ := Option.map_eq_some_iff.mp h
    rfl

/-- no other status writes to the cache -/
theorem cacheFile_missing (text : Bytes) :
    cacheFile (sendResponse 404 (ascii "Not Found") (ascii "text/plain") text) = none := by
  have hat := status_sendResponse 404 (by decide) (ascii "Not Found")
    (ascii "text/plain") text
  rw [cacheFile, Option.bind_eq_none_iff]
  intro r hr
  obtain ⟨r', hr', rfl⟩ := Option.map_eq_some_iff.mp hr
  have hne : r'.1 ≠ 200 := by
    rw [status_httpResponse hr', hat]
    decide
  exact if_neg hne

theorem sendPackage_file {st : Store} {c : Bytes} (hn : SafeName name)
    (h : st.file (name ++ hpx) = some c) : sendPackage st name = headOf (okLines c.length) ++ c := by
  obtain ⟨safe, hs, hb⟩ := sanitizeName_of hn
  rw [sendPackage, hs]
  dsimp only
  rw [dot_bytes, hb, h]
  exact sendResponse_ok c

theorem sendPackage_missing (st : Store) (hn : SafeName name) (h : st.file (name ++ hpx) = none) :
    ∃ text, sendPackage st name =
      sendResponse 404 (ascii "Not Found") (ascii "text/plain") text := by
  obtain ⟨safe, hs, hb⟩ := sanitizeName_of hn
  rw [sendPackage, hs]
  dsimp only
  rw [dot_bytes, hb, h]
  exact ⟨_, rfl⟩

/-! ## what is published and what is installed -/

/-- wherever the archive is stored under the name, the cache gets it, in whichever pieces the
request and the answer come -/
def Installed (name content : Bytes) : Prop :=
  ∀ st : Store, st.file (name ++ hpx) = some content → ∃ req, installRequest a name = some req ∧
    ∀ frs, Fragments 65536 frs req → ∃ r target, readRequest [] frs = some r ∧
      route r = .pkg target ∧ ∀ pieces raw, pieces.flatten = sendPackage st target →
        recvAll 8192 [] pieces = some raw → cacheFile raw = some content

theorem SafeName.take (h : SafeName name) : SafeName (name.take 1018) := by
  refine ⟨?_, fun c hc => h.2 c (List.mem_of_mem_take hc)⟩
  intro he
  exact h.1 ((List.take_eq_nil_iff.mp he).resolve_left (by decide))

/-- the store that has one archive -/
def Store.single (name content : Bytes) (h : content.length ≤ maxPackage) : Store where
  file n := if n = name then some content else none
  fits n c hc := by
    split at hc
    · exact Option.some.inj hc ▸ h
    · cases hc

theorem single_file {h : content.length ≤ maxPackage} :
    (Store.single name content h).file name = some content := if_pos rfl

theorem installed_of (hn : SafeName name) (h0 : 0 ∉ content) (hlen : name.length ≤ 1018) :
    Installed a name content := by
  intro st hst
  have h13 := hn.clean 13 (by simp)
  have hreq := installRequest_eq a (hn.clean 58 (by simp))
  rw [List.take_of_length_le hlen] at hreq
  refine ⟨_, hreq, ?_⟩
  intro frs hfrs
  refine ⟨_, name, readRequest_install a h13 hlen hfrs,
    route_install a h13 (hn.clean 32 (by simp)), ?_⟩
  intro pieces raw hp hr
  have hmax : maxPackage < 2 ^ 64 := by decide
  have hfits := st.fits _ _ hst
  rw [recvAll_flatten hr, List.nil_append, hp, sendPackage_file hn hst, cacheFile_ok (by omega),
    cstr_eq_self.mpr h0]

theorem of_installed (hn : SafeName name) (hc : content.length ≤ maxPackage)
    (h : Installed a name content) : 0 ∉ content ∧ name.length ≤ 1018 := by
  have ht := hn.take
  have h13 := ht.clean 13 (by simp)
  obtain ⟨req, hreq, hrun⟩ := h (Store.single (name ++ hpx) content hc) single_file
  rw [installRequest_eq a (hn.clean 58 (by simp)), Option.some.injEq] at hreq
  subst hreq
  obtain ⟨r, target, hread, hroute, hcache⟩ := hrun _ (fragments_bytewise _ (by decide) _)
  have hlen : (name.take 1018).length ≤ 1018 := by
    rw [List.length_take]
    omega
  rw [readRequest_install a h13 hlen (fragments_bytewise _ (by decide) _), Option.some.injEq] at hread
  rw [← hread, route_install a h13 (ht.clean 32 (by simp)), Route.pkg.injEq] at hroute
  subst hroute
  have hraw := hcache _ _ (fragments_bytewise 1 (by decide) _).flat
    (recvAll_bytewise (by show 1 < _; decide))
  rw [List.nil_append] at hraw
  by_cases hfit : name.length ≤ 1018
  · refine ⟨?_, hfit⟩
    have hmax : maxPackage < 2 ^ 64 := by decide
    rw [List.take_of_length_le hfit, sendPackage_file hn single_file,
      cacheFile_ok (by omega), Option.some.injEq] at hraw
    exact cstr_eq_self.mp hraw
  · -- the name is cut, and there is no such archive
    have hother : name.take 1018 ++ hpx ≠ name ++ hpx := by
      intro he
      have := congrArg List.length (List.append_cancel_right he)
      rw [List.length_take] at this
      omega
    obtain ⟨text, htext⟩ := sendPackage_missing (Store.single (name ++ hpx) content hc) ht
      (if_neg hother)
    rw [htext, cacheFile_missing] at hraw
    cases hraw

/-- **What is published is what is installed**: of a package directory, exactly an archive that is
publishable is stored byte for byte, and of what is stored, exactly an archive without a NUL, under
a name that fits the path of a request, is installed byte for byte. -/
theorem transfer_iff (strtod : Bytes → Double) (junk : Nat → Val) (fromDouble : Double → Bytes)
    (other : Bytes → List Bytes) (dir : Bytes) (es : List (Bytes × SrcNode)) :
    (Published a strtod junk fromDouble (pkgPackDir other dir es) ↔
      Publishable a strtod junk fromDouble (pkgPackDir other dir es)) ∧
    ∀ (st : Store) (name content : Bytes), SafeName name → st.file (name ++ hpx) = some content →
      (Installed a name content ↔ 0 ∉ content ∧ name.length ≤ 1018) := by
  refine ⟨published_iff a, ?_⟩
  intro st name content hn hst
  exact ⟨of_installed a hn (st.fits _ _ hst), fun h => installed_of a hn h.1 h.2⟩

end

/-- `http://h` -/
def localhost : Address where
  host := ascii "h"
  port := none
  host_ne := by decide
  host_fits := by decide
  host_clean c hc := by
    rw [List.mem_singleton.mp (show c ∈ [104] from hc)]
    decide
  port_fits p h := nomatch h
  port_clean p h := nomatch h

theorem transfer_iff_a :
    (Published localhost (fun _ => ⟨0⟩) blank (fun _ => []) (pkgPackDir (fun _ => []) [] []) ↔
      Publishable localhost (fun _ => ⟨0⟩) blank (fun _ => []) (pkgPackDir (fun _ => []) [] [])) ∧
    (Installed localhost (ascii "a") (ascii "b") ↔ 0 ∉ ascii "b" ∧ (ascii "a").length ≤ 1018) :=
  have h := transfer_iff localhost (fun _ => ⟨0⟩) blank (fun _ => []) (fun _ => []) [] []
  ⟨h.1, h.2 (Store.single (ascii "a" ++ hpx) (ascii "b") (by decide)) (ascii "a") (ascii "b")
    ⟨by decide, List.all_eq_true.mp (by decide)⟩ single_file⟩

/-- a manifest, and a file that is one NUL -/
def withNul : List (Bytes × SrcNode) :=
  [(ascii "hphp.json", .file (ascii "\x7b\"name\":\"a\",\"version\":\"1\"\x7d")),
    (ascii "a.bin", .file [0])]

theorem transfer_cuts : ¬ ∀ (a : Address) (strtod : Bytes → Double) (junk : Nat → Val)
    (fromDouble : Double → Bytes) (other : Bytes → List Bytes) (dir : Bytes)
    (es : List (Bytes × SrcNode)),
    Published a strtod junk fromDouble (pkgPackDir other dir es) ∧
    ∀ (st : Store) (name content : Bytes), SafeName name → st.file (name ++ hpx) = some content →
      Installed a name content := by
  intro h
  have hp := (h localhost (fun _ => ⟨0⟩) blank (fun _ => []) (fun _ => []) (ascii "p") withNul).1.1
  have h0 : 0 ∉ pkgPackDir (fun _ => []) (ascii "p") withNul := cstr_eq_self.mp hp
  exact h0 (by decide +kernel)

end Package
end HolyPhp
