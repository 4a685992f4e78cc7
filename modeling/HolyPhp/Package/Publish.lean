import HolyPhp.Package.Server

/-!
# Publishing an archive

* `strpos_headOf`, `route_headOf`  a head of lines (`headOf`) is read line by line;
* `complete_post`   behind the head, the loop that reads a request goes by the lines of the body,
                    so that it reads the whole if they agree (`readRequest_post`);
* `Published`         the registry stores the archive, in whichever pieces the request comes;
* `published_iff`     **that holds if and only if** the archive has no NUL, the request is not too
                      long, no `Content-Length` line in the archive speaks against its size
                      (`LinesAgree`), and the registry accepts it.
-/

set_option linter.unusedVariables false
set_option autoImplicit false

namespace HolyPhp
namespace Package
open Json (decimal)
open Arr hiding Key
open HolyPhp.Std Substr Websocket
open Str hiding hpValToStr

/-! ## heads -/

section
variable {l l' last name value s t : Bytes} {ls init : List Bytes} {cl : Int}

theorem codeLines_append (ls ls' : List Bytes) :
    codeLines (ls ++ ls') = codeLines ls ++ codeLines ls' := List.flatMap_append

theorem explodeCrlf_last (h : 13 ∉ l) : explodeCrlf l = [l] := by
  induction l with
  | nil => rfl
  | cons c l ih =>
    rw [List.mem_cons, not_or] at h
    rw [explodeCrlf_cons fun e => h.1 e.symm, ih h.2]
    rfl

theorem contentLine_none (h : 58 ∉ l) : contentLine cl l = cl := by
  have hs : strpos (ascii ":") l = none := by
    have hskip : strpos (58 :: []) (l ++ []) = _ := strpos_skip h
    rw [List.append_nil] at hskip
    exact hskip
  rw [contentLine, hs]

theorem contentLine_field (h58 : 58 ∉ name) (hws : name.all (fun c => !isWs c) = true) :
    contentLine cl (name ++ 58 :: value) =
      if hpStrTolower name = ascii "content-length" then (strtoll (hpStrTrim value)).toInt else cl := by
  have hs : strpos (ascii ":") (name ++ 58 :: value) = some name.length := by
    show strpos (58 :: []) (name ++ 58 :: value) = _
    rw [strpos_skip h58, strpos_here ⟨value, rfl⟩]
    show some (0 + name.length) = _
    rw [Nat.zero_add]
  have hdrop : (name ++ 58 :: value).drop (name.length + 1) = value := by
    rw [← List.drop_drop, List.drop_left]
    rfl
  rw [contentLine, hs]
  show (if hpStrTolower (hpStrTrim ((name ++ 58 :: value).take name.length)) = _ then _ else cl) = _
  rw [List.take_left, hdrop, hpStrTrim_self fun c hc => by simpa using List.all_eq_true.mp hws c hc]

theorem length_headOf (ls : List Bytes) : (headOf ls).length = (codeLines ls).length + 2 :=
  List.length_append

theorem two_le_codeLines (hne : ls ≠ []) : 2 ≤ (codeLines ls).length := by
  cases ls with
  | nil => exact absurd rfl hne
  | cons l ls =>
    show 2 ≤ (l ++ [13, 10] ++ codeLines ls).length
    rw [List.length_append, List.length_append]
    show 2 ≤ l.length + 2 + _
    omega

/-- what stands in front of the blank line -/
theorem take_headOf (init : List Bytes) (last t : Bytes) :
    (headOf (init ++ [last]) ++ t).take ((headOf (init ++ [last])).length - 4) =
      codeLines init ++ last := by
  have hsplit : headOf (init ++ [last]) = (codeLines init ++ last) ++ ([13, 10] ++ [13, 10]) := by
    rw [headOf, codeLines_append]
    simp [codeLines]
  have hlen : (headOf (init ++ [last])).length - 4 = (codeLines init ++ last).length := by
    rw [hsplit, List.length_append]
    rfl
  rw [hlen, hsplit, List.append_assoc, List.take_left]

theorem contentLength_headOf (hok : ∀ l ∈ ls, l ≠ [] ∧ 13 ∉ l) (t : Bytes) :
    contentLength cl (headOf ls ++ t) = contentLength (ls.foldl contentLine cl) t := by
  unfold contentLength
  rw [headOf, List.append_assoc, explodeCrlf_codeLines fun l hl => (hok l hl).2, List.foldl_append]
  rfl

theorem strpos_headOf (hne : ls ≠ []) (hok : ∀ l ∈ ls, l ≠ [] ∧ 13 ∉ l) (t : Bytes) :
    strpos blankLine (headOf ls ++ t) = some ((headOf ls).length - 4) := by
  have hlen := length_headOf ls
  have h2 := two_le_codeLines hne
  rw [show (headOf ls).length - 4 = (codeLines ls).length - 2 by omega, headOf, List.append_assoc]
  exact strpos_codeLines hne hok t

/-- the loop waits for the whole head -/
theorem strpos_head_part (hne : ls ≠ []) (hok : ∀ l ∈ ls, l ≠ [] ∧ 13 ∉ l) {q : Bytes}
    (hq : q <+: headOf ls ++ t) (hlt : q.length < (headOf ls).length) :
    strpos blankLine q = none := by
  obtain ⟨u, hu⟩ := hq
  have hs := strpos_headOf hne hok t
  rw [← hu] at hs
  have hq := strpos_of_append (by decide) hs
  have h2 := two_le_codeLines hne
  have hlen := length_headOf ls
  rwa [if_neg (by show ¬ _ + 4 ≤ _; omega)] at hq

variable (init) in
/-- what is done with a request is seen from its first line, its lines and its body -/
theorem route_headOf (hok : ∀ l ∈ l' :: (init ++ [last]), l ≠ [] ∧ 13 ∉ l) (t : Bytes) :
    ∃ head, contentLength 0 head = (l' :: (init ++ [last])).foldl contentLine 0 ∧
      route (headOf (l' :: (init ++ [last])) ++ t) = routeLine l' head t := by
  have hs := strpos_headOf (List.cons_ne_nil l' _) hok t
  have htake := take_headOf (l' :: init) last t
  have hlen := length_headOf (l' :: (init ++ [last]))
  have h2 := two_le_codeLines (List.cons_ne_nil l' (init ++ [last]))
  have h4 : (headOf (l' :: (init ++ [last]))).length - 4 + 4 =
      (headOf (l' :: (init ++ [last]))).length := by
    have : 2 ≤ (codeLines (init ++ [last])).length := two_le_codeLines (by simp)
    have : (codeLines (l' :: (init ++ [last]))).length =
        (l' ++ [13, 10] ++ codeLines (init ++ [last])).length := rfl
    rw [List.length_append] at this
    omega
  have hfirst : reqLine (codeLines (l' :: init) ++ last) = l' := by
    have hpos : strpos [13, 10] (codeLines (l' :: init) ++ last) = some l'.length := by
      rw [codeLines_cons, strpos_skip (hok l' List.mem_cons_self).2, strpos_here ⟨_, rfl⟩]
      exact congrArg some (Nat.zero_add _)
    rw [reqLine, hpos]
    show (codeLines (l' :: init) ++ last).take l'.length = l'
    rw [codeLines_cons, List.take_left]
  refine ⟨codeLines (l' :: init) ++ last, ?_, ?_⟩
  · have hcr : ∀ l ∈ l' :: init, 13 ∉ l := fun l hl => (hok l (by
      rw [← List.cons_append]
      exact List.mem_append_left _ hl)).2
    rw [contentLength, explodeCrlf_codeLines hcr, explodeCrlf_last (hok last (by simp)).2]
    rfl
  · rw [← List.cons_append] at *
    unfold route
    rw [hs]
    show routeLine (reqLine (List.take _ _)) (List.take _ _) (List.drop _ _) = _
    rw [htake, hfirst, h4, List.drop_left]

end

/-! ## reading a request with a head -/

section
variable {ls : List Bytes} {F : Bytes}

theorem four_le_headOf (hne : ls ≠ []) : 4 ≤ (headOf ls).length := by
  have := two_le_codeLines hne
  rw [length_headOf]
  omega

theorem complete_other (hne : ls ≠ []) (hok : ∀ l ∈ ls, l ≠ [] ∧ 13 ∉ l)
    (hpost : ¬ ascii "POST" <+: headOf ls) (t : Bytes) : complete (headOf ls ++ t) = true := by
  have hpre : (headOf ls ++ t).take 4 ≠ ascii "POST" := by
    intro h
    apply hpost
    have hp : ascii "POST" <+: headOf ls ++ t := h ▸ List.take_prefix 4 _
    exact List.prefix_of_prefix_length_le hp (List.prefix_append _ t) (four_le_headOf hne)
  rw [complete, strpos_headOf hne hok t]
  exact if_pos hpre

/-- behind the head the loop goes by the lines of the body -/
theorem complete_post (hne : ls ≠ []) (hok : ∀ l ∈ ls, l ≠ [] ∧ 13 ∉ l)
    (hpost : ascii "POST" <+: headOf ls) (t : Bytes) :
    complete (headOf ls ++ t) =
      decide (contentLength (ls.foldl contentLine 0) t ≤ t.length) := by
  have h4 := four_le_headOf hne
  have hpre : (headOf ls ++ t).take 4 = ascii "POST" :=
    (List.prefix_iff_eq_take.mp (hpost.trans (List.prefix_append _ t))).symm
  rw [complete, strpos_headOf hne hok t]
  show (if (headOf ls ++ t).take 4 ≠ ascii "POST" then true else _) = _
  rw [if_neg (not_not.mpr hpre), contentLength_headOf hok]
  apply decide_eq_decide.mpr
  rw [List.length_append]
  constructor <;> intro h <;> omega

/-- at every place in the body the last `Content-Length` line so far, or else that of the head, asks
for more, and at its end it does not; or the request has the size at which the loop ends -/
structure Agrees (total : Nat) (F : Bytes) : Prop where
  asks : ∀ k < F.length, (k : Int) < contentLength F.length (F.take k)
  enough : contentLength F.length F ≤ F.length ∨ total = maxPackage

variable (hne : ls ≠ []) (hok : ∀ l ∈ ls, l ≠ [] ∧ 13 ∉ l) (hpost : ascii "POST" <+: headOf ls)
  (hn : ls.foldl contentLine 0 = F.length)
include hne hok hpost hn

/-- one byte after the other is the hardest way -/
theorem agrees_of_bytewise
    (h : readRequest [] (bytewise (headOf ls ++ F)) = some (headOf ls ++ F)) :
    (headOf ls ++ F).length ≤ maxPackage ∧ Agrees (headOf ls ++ F).length F := by
  obtain ⟨r, rest, hsplit, hr, hsize, hend, hopen⟩ := readRequest_bytewise h (Nat.zero_le _)
  rw [List.nil_append] at hr
  subst hr
  refine ⟨hsize, ?_, ?_⟩
  · intro k hk
    have hp : headOf ls ++ F.take k <+: headOf ls ++ F :=
      (List.prefix_append_right_inj _).mpr (List.take_prefix k F)
    have hc := hopen _ hp ?_ ?_
    · rw [List.nil_append, complete_post hne hok hpost, hn, decide_eq_false_iff_not,
        List.length_take_of_le (by omega)] at hc
      omega
    · intro h0
      have := four_le_headOf hne
      rw [(List.append_eq_nil_iff.mp h0).1] at this
      exact absurd this (by decide)
    · intro he
      have := congrArg List.length (List.append_cancel_left he)
      rw [List.length_take_of_le (by omega)] at this
      omega
  · rw [complete_post hne hok hpost, hn, decide_eq_true_eq] at hend
    exact hend

/-- **The loop reads the whole request** in any pieces. -/
theorem readRequest_post {frs : List Bytes} {limit : Nat}
    (hfrs : Fragments limit frs (headOf ls ++ F)) (hfits : (headOf ls ++ F).length ≤ maxPackage)
    (h : Agrees (headOf ls ++ F).length F) : readRequest [] frs = some (headOf ls ++ F) := by
  apply readRequest_all hfrs.flat
  · rintro rfl
    have := congrArg List.length hfrs.flat
    have h4 := four_le_headOf hne
    rw [List.length_append] at this
    exact absurd this (by show ¬ 0 = _; omega)
  · intro f hf
    exact (hfrs.piece f hf).1
  · exact hfits
  · rw [complete_post hne hok hpost, hn, decide_eq_true_eq]
    exact h.enough
  · intro q hq hneq
    by_cases hlt : q.length < (headOf ls).length
    · rw [complete, strpos_head_part hne hok hq hlt]
    · obtain ⟨t, rfl⟩ := List.prefix_of_prefix_length_le (List.prefix_append _ F) hq
        (Nat.le_of_not_lt hlt)
      have ht : t <+: F := (List.prefix_append_right_inj _).mp hq
      have htake : F.take t.length = t := (List.prefix_iff_eq_take.mp ht).symm
      have hshort : t.length < F.length := by
        apply Nat.lt_of_le_of_ne ht.length_le
        intro he
        exact hneq (by rw [ht.eq_of_length he])
      have := h.asks t.length hshort
      rw [htake] at this
      rw [complete_post hne hok hpost, hn, decide_eq_false_iff_not]
      omega

end

/-! ## numbers in a head -/

section
variable {n : Nat} {s : Bytes}

/-- no digit comes next -/
def Stops (s : Bytes) : Prop := ∀ m, leadingNat m s = m

theorem stops_nil : Stops [] := fun _ => rfl

theorem stops_cons {c : UInt8} (h : isDigit c = false) (t : Bytes) : Stops (c :: t) := by
  intro m
  rw [leadingNat, h]
  rfl

theorem strtoull_stop (h : n < 2 ^ 64) (hs : Stops s) : strtoull (decimal n ++ s) = n := by
  obtain ⟨d, ds, hd, hdigit, hspace, hval⟩ := decimal_scan (n := n) hs
  rw [hd, strtoull, hspace]
  split
  · next h' =>
    cases h'
    cases hdigit
  · next h' =>
    cases h'
    cases hdigit
  · rw [hval]
    omega

theorem atoi_decimal (h : n < 2 ^ 31) (hs : Stops s) : atoi (decimal n ++ s) = n := by
  rw [atoi, strtoll_decimal (by omega) hs]
  exact Int.bmod_eq_of_le (by omega) (by omega)

end

/-! ## publishing -/

section
variable (a : Address) {n : Nat} {F t : Bytes}

/-- what `pkg_cmd_publish` reads of the archive, as far as `strlen` counts -/
def publishBody (F : Bytes) : Bytes := cstr F

/-- what `pkg_cmd_publish` sends -/
def publishRequest (F : Bytes) : Option Bytes :=
  requestText (ascii "POST") (a.base ++ ascii "/publish") (some (ascii "application/octet-stream"))
    (some (publishBody F))

def publishHead (n : Nat) : Bytes := headOf (postLines a (ascii "/publish") n)

theorem publishLines_ne : postLines a (ascii "/publish") n ≠ [] := List.cons_ne_nil _ _

theorem publishLines_ok : ∀ l ∈ postLines a (ascii "/publish") n, l ≠ [] ∧ 13 ∉ l :=
  fun l h => postLines_ok a (by decide) h

theorem digit_isWs {c : UInt8} (h : isDigit c = true) : isWs c = false := by
  rw [isDigit, Bool.and_eq_true, decide_eq_true_eq, decide_eq_true_eq, UInt8.le_iff_toNat_le,
    UInt8.le_iff_toNat_le] at h
  have h48 : 48 ≤ c.toNat := h.1
  have hne : ∀ d : UInt8, d.toNat < 48 → ¬ c = d := by
    rintro d hd rfl
    omega
  simp [isWs, hne]

/-- the lines of the head tell the length of the body -/
theorem contentLength_post (h : n < 2 ^ 63) :
    (postLines a (ascii "/publish") n).foldl contentLine 0 = n := by
  have h1 : ∀ cl, contentLine cl (ascii "POST " ++ ascii "/publish" ++ ascii " HTTP/1.1") = cl :=
    fun cl => contentLine_none (by decide)
  have h2 : ∀ cl, contentLine cl (ascii "Host: " ++ a.host ++ ascii ":" ++ a.portText) = cl := by
    intro cl
    show contentLine cl (ascii "Host" ++ 58 :: (32 :: a.host ++ ascii ":" ++ a.portText)) = cl
    rw [contentLine_field (by decide) (by decide), if_neg (by decide)]
  have h3 : ∀ cl, contentLine cl (ascii "Connection: close") = cl := fun cl => by
    show contentLine cl (ascii "Connection" ++ 58 :: ascii " close") = cl
    rw [contentLine_field (by decide) (by decide), if_neg (by decide)]
  have h4 : ∀ cl, contentLine cl (ascii "Content-Type: application/octet-stream") = cl := fun cl => by
    show contentLine cl (ascii "Content-Type" ++ 58 :: ascii " application/octet-stream") = cl
    rw [contentLine_field (by decide) (by decide), if_neg (by decide)]
  have h5 : ∀ cl, contentLine cl (ascii "Content-Length: " ++ decimal n) = n := by
    intro cl
    show contentLine cl (ascii "Content-Length" ++ 58 :: (32 :: decimal n)) = n
    have htrim : hpStrTrim (32 :: decimal n) = hpStrTrim (decimal n) := rfl
    rw [contentLine_field (by decide) (by decide), if_pos (by decide), htrim,
      hpStrTrim_self fun c hc => digit_isWs (decimal_digits n c hc)]
    have hv := strtoll_decimal h stops_nil
    rwa [List.append_nil] at hv
  have h6 : ∀ cl, contentLine cl (ascii "User-Agent: hphp/1.0") = cl := fun cl => by
    show contentLine cl (ascii "User-Agent" ++ 58 :: ascii " hphp/1.0") = cl
    rw [contentLine_field (by decide) (by decide), if_neg (by decide)]
  rw [postLines]
  simp only [List.foldl_cons, List.foldl_nil, h1, h2, h3, h4, h5, h6]

theorem post_publishHead : ascii "POST" <+: publishHead a n := ⟨_, rfl⟩

theorem route_publish (h : n < 2 ^ 63) (t : Bytes) :
    route (publishHead a n ++ t) = .publish (hpbiSubstr t 0 (some n)) := by
  obtain ⟨head, hcl, hr⟩ := route_headOf [_, _, _, _] (publishLines_ok a (n := n)) t
  have hcl' : contentLength 0 head = n := hcl.trans (contentLength_post a h)
  have hr' : route (publishHead a n ++ t) =
      routeLine (ascii "POST " ++ ascii "/publish" ++ ascii " HTTP/1.1") head t := hr
  have hparts : (ascii "POST " ++ ascii "/publish" ++ ascii " HTTP/1.1").splitOn 32 =
      [ascii "POST", ascii "/publish", ascii "HTTP/1.1"] := by decide
  rw [hr', routeLine, hparts]
  show (if _ then _ else _) = _
  rw [if_neg (by decide), if_neg (by decide), if_neg (by decide), if_pos (by decide),
    if_pos rfl, hcl']

theorem publishRequest_eq (h : (publishBody F).length < 2 ^ 31) :
    publishRequest a F = some (publishHead a (publishBody F).length ++ publishBody F) := by
  have hu := a.urlParse_base (ascii "publish") (by decide)
  have hs : sentPart (publishBody F) = publishBody F := by
    apply List.take_of_length_le
    rw [Int.bmod_eq_of_le (by omega) (by omega)]
    exact Nat.le_refl _
  have hh := requestHead_post a (ascii "/publish") (n := (publishBody F).length) (by decide)
    (by omega)
  rw [publishRequest, requestText]
  show (urlParse (a.base ++ 47 :: ascii "publish")).map _ = _
  rw [hu, Option.map_some]
  show some (requestHead _ ⟨a.host, a.portText, ascii "/publish"⟩ _ (some (publishBody F).length) ++
    sentPart (publishBody F)) = _
  rw [hh, hs]
  rfl

theorem length_substr (s : Bytes) (l : Int) : (hpbiSubstr s 0 (some l)).length ≤ s.length := by
  have hite : ∀ (p : Prop) [Decidable p] (u : Bytes), u.length ≤ s.length →
      (if p then [] else u).length ≤ s.length := by
    intro p _ u hu
    split
    · exact Nat.zero_le _
    · exact hu
  have hslice : ∀ x y, (hpStrSlice s x y).length ≤ s.length := by
    intro x y
    unfold hpStrSlice
    apply hite
    rw [List.length_take, List.length_drop]
    omega
  unfold hpbiSubstr
  apply hite
  exact hslice _ _

theorem length_route {r b : Bytes} (h : route r = .publish b) : b.length ≤ r.length := by
  have hline : ∀ line head body, routeLine line head body = .publish b → b.length ≤ body.length := by
    intro line head body h
    unfold routeLine at h
    split at h
    · dsimp only at h
      split at h
      · cases h
      split at h
      · cases h
      split at h
      · cases h
      split at h
      · cases h
        split
        · exact length_substr _ _
        · exact Nat.le_refl _
      · cases h
    · cases h
  unfold route at h
  split at h
  · cases h
  · apply Nat.le_trans (hline _ _ _ h)
    rw [List.length_drop]
    omega

section
variable (strtod : Bytes → Double) (junk : Nat → Val) (fromDouble : Double → Bytes)

/-- the checks of `handle_publish` pass -/
def Accepted (F : Bytes) : Prop :=
  ∃ fuel names, archiveNames strtod junk fromDouble fuel F = some (some names)

/-- `pkg_cmd_publish` sends the archive, and however its request comes in, the registry stores it
under its name -/
def Published (F : Bytes) : Prop :=
  publishBody F = F ∧ ∃ req fuel name, publishRequest a F = some req ∧
    ∀ frs st, Fragments 65536 frs req → ∃ r body st', readRequest [] frs = some r ∧
      route r = .publish body ∧
      handlePublish strtod junk fromDouble fuel st body = some (st', 200) ∧
      st'.file (name ++ hpx) = some F

/-- at every place in the body the last `Content-Length` line so far, or else that of the head, asks
for more, and at its end it does not; or the request has the size at which the loop ends -/
structure LinesAgree (F : Bytes) : Prop where
  asks : ∀ k < F.length, (k : Int) < contentLength F.length (F.take k)
  enough : contentLength F.length F ≤ F.length ∨
    (publishHead a F.length).length + F.length = maxPackage

/-- what can be published -/
structure Publishable (F : Bytes) : Prop where
  noNul : 0 ∉ F
  fits : (publishHead a F.length).length + F.length ≤ maxPackage
  lines : LinesAgree a F
  accepted : Accepted strtod junk fromDouble F

variable {strtod junk fromDouble}

theorem accepted_of {fuel : Nat} {st st' : Store}
    (h : handlePublish strtod junk fromDouble fuel st F = some (st', 200)) :
    Accepted strtod junk fromDouble F := by
  unfold handlePublish at h
  split at h
  · cases h
  · obtain ⟨names, hn, he⟩ := Option.map_eq_some_iff.mp h
    rcases names with _ | ⟨v, l⟩
    · cases he
    · exact ⟨fuel, (v, l), hn⟩

theorem publishable_of (h : Published a strtod junk fromDouble F) :
    Publishable a strtod junk fromDouble F := by
  obtain ⟨hbody, req, fuel, name, hreq, hrun⟩ := h
  obtain ⟨r, body, st', hread, hroute, hpub, hfile⟩ :=
    hrun (bytewise req) Store.empty (fragments_bytewise _ (by decide) req)
  obtain ⟨r', rest, hsplit, hr, hsize, hend, hopen⟩ := readRequest_bytewise hread (Nat.zero_le _)
  rw [List.nil_append] at hr
  subst hr
  have hF : F = body := (handlePublish_only hpub hfile).resolve_right (fun h => nomatch h)
  subst hF
  have hlen : F.length ≤ maxPackage := Nat.le_trans (length_route hroute) hsize
  have hmax : maxPackage < 2 ^ 31 := by decide
  have heq := publishRequest_eq a (F := F) (by rw [hbody]; omega)
  rw [hbody, hreq, Option.some.injEq] at heq
  have hn63 : F.length < 2 ^ 63 := by omega
  have hpre : r <+: publishHead a F.length ++ F := ⟨rest, by rw [← hsplit, heq]⟩
  -- the head is there, since the request has a route
  have hhead : (publishHead a F.length).length ≤ r.length := by
    by_contra hlt
    have hnone := strpos_head_part (publishLines_ne a) (publishLines_ok a (n := F.length)) hpre
      (Nat.lt_of_not_le hlt)
    rw [route, hnone] at hroute
    cases hroute
  obtain ⟨t, rfl⟩ := List.prefix_of_prefix_length_le (List.prefix_append _ F) hpre hhead
  rw [route_publish a hn63, Route.publish.injEq] at hroute
  have ht : t <+: F := (List.prefix_append_right_inj _).mp hpre
  have hle := length_substr t F.length
  rw [hroute] at hle
  obtain rfl : t = F := ht.eq_of_length_le hle
  obtain ⟨hfits, hlines⟩ := agrees_of_bytewise (publishLines_ne a) (publishLines_ok a)
    (post_publishHead a) (contentLength_post a hn63) (heq ▸ hread)
  have hlen : (headOf (postLines a (ascii "/publish") t.length) ++ t).length =
      (publishHead a t.length).length + t.length := List.length_append
  rw [hlen] at hfits hlines
  exact ⟨cstr_eq_self.mp hbody, hfits, ⟨hlines.asks, hlines.enough⟩, accepted_of hpub⟩

/-- **Published if and only if publishable.** -/
theorem published_iff : Published a strtod junk fromDouble F ↔
    Publishable a strtod junk fromDouble F := by
  refine ⟨publishable_of a, ?_⟩
  intro h
  have hbody : publishBody F = F := cstr_eq_self.mpr h.noNul
  have hmax : maxPackage < 2 ^ 31 := by decide
  have hfits := h.fits
  have hn63 : F.length < 2 ^ 63 := by omega
  have hreq := publishRequest_eq a (F := F) (by rw [hbody]; omega)
  rw [hbody] at hreq
  obtain ⟨fuel, ⟨v, l⟩, hnames⟩ := h.accepted
  obtain ⟨name, hname, rfl⟩ := latest_name hnames
  refine ⟨hbody, _, fuel, name, hreq, ?_⟩
  intro frs st hfrs
  obtain ⟨st', hpub, hfile⟩ := handlePublish_stores (by omega) hnames st
  refine ⟨publishHead a F.length ++ F, F, st', ?_, ?_, hpub, hfile⟩
  · have hlen : (headOf (postLines a (ascii "/publish") F.length) ++ F).length =
        (publishHead a F.length).length + F.length := List.length_append
    refine readRequest_post (publishLines_ne a) (publishLines_ok a) (post_publishHead a)
      (contentLength_post a hn63) hfrs (hlen ▸ hfits) ⟨h.lines.asks, ?_⟩
    rw [hlen]
    exact h.lines.enough
  · rw [route_publish a hn63, Route.publish.injEq]
    have := hpbiSubstr_take (s := F) (a := 0) (k := F.length) (by omega) (by omega)
    rw [List.drop_zero, List.take_length] at this
    exact this

end

end

end Package
end HolyPhp
