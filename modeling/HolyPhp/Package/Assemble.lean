import HolyPhp.Lib.Lines
import HolyPhp.Package.Publish

/-!
# A request in pieces

* `Request`      a request line, fields of which one is `Content-Length`, and a body of that length;
* `dispatch`     what is done for a method, a target and a body;
* `Exact`        in whichever pieces it comes, the whole request is read and handed on as it is;
* `exact_iff`    **that holds if and only if** the request is not too long and it is a `POST` on
                 whose body the loop does not stumble, or it has no body;
* `assembled`    what the loop is for: a `POST` with its body, and all else by the head alone.
-/

set_option linter.unusedVariables false
set_option autoImplicit false

namespace HolyPhp
namespace Package
open HolyPhp.Std Substr Websocket

/-- a line that the loops take for a `Content-Length` -/
def NamesLength (l : Bytes) : Prop :=
  ∃ name value, l = name ++ 58 :: value ∧ 58 ∉ name ∧
    hpStrTolower (hpStrTrim name) = ascii "content-length"

structure Request where
  method : Bytes
  target : Bytes
  before : List Bytes
  name : Bytes
  lead : Bytes
  digits : Bytes
  trail : Bytes
  after : List Bytes
  body : Bytes
  method_clean : 32 ∉ method ∧ 13 ∉ method
  target_clean : 32 ∉ target ∧ 13 ∉ target
  others : ∀ l ∈ before ++ after, l ≠ [] ∧ 13 ∉ l ∧ ¬ NamesLength l
  name_eq : hpStrTolower name = ascii "content-length"
  blanks : ∀ c ∈ lead ++ trail, c = 32 ∨ c = 9
  digits_ne : digits ≠ []
  digit : ∀ c ∈ digits, isDigit c = true
  counts : leadingNat 0 digits = body.length

namespace Request
variable (q : Request)

def requestLine : Bytes := q.method ++ 32 :: (q.target ++ 32 :: ascii "HTTP/1.1")

def lengthLine : Bytes := q.name ++ 58 :: (q.lead ++ q.digits ++ q.trail)

def fields : List Bytes := q.before ++ q.lengthLine :: q.after

def head : Bytes := headOf (q.requestLine :: q.fields)

/-- the byte stream -/
def text : Bytes := q.head ++ q.body

/-- the loop takes the method for `POST` -/
def Posts : Prop := ascii "POST" <+: q.method

end Request

/-- from `$method`, `$target` and `$body` on -/
def dispatch (method target body : Bytes) : Route :=
  if method = ascii "GET" ∧ (target = ascii "/" ∨ target = ascii "/index") then .index
  else if method = ascii "GET" ∧ strpos (ascii "/search") target = some 0 then .search target
  else if method = ascii "GET" ∧ strpos (ascii "/pkg/") target = some 0 then .pkg (target.drop 5)
  else if method = ascii "POST" ∧ target = ascii "/publish" then .publish body
  else .unknown

/-- in whichever pieces it comes, the loop reads all of the request, and its method, target and body
are handed on -/
def Exact (q : Request) : Prop :=
  ∀ frs, Fragments 65536 frs q.text →
    readRequest [] frs = some q.text ∧ route q.text = dispatch q.method q.target q.body

/-! ## blanks and digits -/

section
variable {s t u l : Bytes} {c : UInt8} {n : Nat} {cl : Int}

theorem hpStrTrim_around (hs : ∀ c ∈ s, isWs c = true) (ht : ∀ c ∈ t, isWs c = true)
    (hu : ∀ c ∈ u, isWs c = false) : hpStrTrim (s ++ u ++ t) = u := by
  have hskip : ∀ v w : Bytes, (∀ c ∈ v, isWs c = true) → (v ++ w).dropWhile isWs =
      w.dropWhile isWs := by
    intro v w hv
    rw [List.dropWhile_append, List.dropWhile_eq_nil_iff.mpr hv]
    rfl
  have hself : ∀ v : Bytes, (∀ c ∈ v, isWs c = false) → v.dropWhile isWs = v := by
    intro v hv
    cases v with
    | nil => rfl
    | cons c v => exact List.dropWhile_cons_of_neg (by simp [hv c List.mem_cons_self])
  cases u with
  | nil =>
    have hall : ∀ c ∈ s ++ t, isWs c = true := by
      intro c hc
      rcases List.mem_append.mp hc with hc | hc
      · exact hs c hc
      · exact ht c hc
    rw [hpStrTrim, List.append_nil, List.dropWhile_eq_nil_iff.mpr hall]
    rfl
  | cons d u =>
    have hd : (d :: u ++ t).dropWhile isWs = d :: u ++ t :=
      List.dropWhile_cons_of_neg (by simp [hu d List.mem_cons_self])
    rw [hpStrTrim, List.append_assoc, hskip _ _ hs, hd, List.reverse_append,
      hskip _ _ fun c hc => ht c (List.mem_reverse.mp hc),
      hself _ fun c hc => hu c (List.mem_reverse.mp hc), List.reverse_reverse]

theorem blank_isWs (h : c = 32 ∨ c = 9) : isWs c = true := by
  rcases h with rfl | rfl <;> rfl

theorem strtoll_digits (hne : t ≠ []) (hd : ∀ c ∈ t, isDigit c = true)
    (hn : leadingNat 0 t = n) (hlt : n < 2 ^ 63) : (strtoll t).toInt = n := by
  obtain ⟨c, s, rfl⟩ := List.exists_cons_of_ne_nil hne
  have hc := hd c List.mem_cons_self
  have hspace : (c :: s).dropWhile isSpace = c :: s :=
    List.dropWhile_cons_of_neg (by rw [isDigit_space hc]; exact Bool.false_ne_true)
  have hv : strtoll (c :: s) = Int64.ofInt n := by
    rw [strtoll, hspace]
    split
    · next h' =>
      cases h'
      cases hc
    · next h' =>
      cases h'
      cases hc
    · rw [hn, if_neg (by omega), if_neg (by omega)]
  rw [hv]
  exact Int64.toInt_ofInt_of_le (by omega) (by omega)

/-! ## the lines of a head -/

theorem contentLine_other (h : ¬ NamesLength l) : contentLine cl l = cl := by
  unfold contentLine
  split
  · rfl
  · next i hi =>
    obtain ⟨hfree, hcut, -⟩ := strpos_cut hi
    exact if_neg fun hn => h ⟨_, _, hcut, hfree, hn⟩

theorem foldl_contentLine {ls : List Bytes} (h : ∀ l ∈ ls, ¬ NamesLength l) :
    ls.foldl contentLine cl = cl := by
  induction ls generalizing cl with
  | nil => rfl
  | cons l ls ih =>
    rw [List.foldl_cons, contentLine_other (h l List.mem_cons_self),
      ih fun m hm => h m (List.mem_cons_of_mem l hm)]

/-- the letters of a name that is `Content-Length` but for their case -/
theorem length_name (h : hpStrTolower s = ascii "content-length") (hc : c ∈ s) :
    isWs c = false ∧ c ≠ 58 := by
  have hm : tolower c ∈ ascii "content-length" := h ▸ List.mem_map_of_mem hc
  constructor
  · rw [Bool.eq_false_iff]
    intro hw
    simp only [isWs, Bool.or_eq_true, decide_eq_true_eq] at hw
    rcases hw with rfl | rfl | rfl | rfl | rfl | rfl | rfl <;> exact absurd hm (by decide)
  · rintro rfl
    exact absurd hm (by decide)

end

namespace Request
variable {q : Request} {frs : List Bytes}

theorem lines_ok : ∀ l ∈ q.requestLine :: q.fields, l ≠ [] ∧ 13 ∉ l := by
  intro l hl
  rcases List.mem_cons.mp hl with rfl | hl
  · refine ⟨by simp [requestLine], ?_⟩
    rw [requestLine, List.mem_append, List.mem_cons, List.mem_append, List.mem_cons]
    rintro (h | h | h | h | h)
    · exact q.method_clean.2 h
    · exact absurd h (by decide)
    · exact q.target_clean.2 h
    · exact absurd h (by decide)
    · exact absurd h (by decide)
  · rcases List.mem_append.mp hl with hl | hl
    · obtain ⟨hne, h13, -⟩ := q.others l (List.mem_append_left _ hl)
      exact ⟨hne, h13⟩
    rcases List.mem_cons.mp hl with rfl | hl
    · refine ⟨by simp [lengthLine], ?_⟩
      have hlead : 13 ∉ q.lead ++ q.trail := by
        intro h
        rcases q.blanks 13 h with h | h <;> exact absurd h (by decide)
      rw [List.mem_append, not_or] at hlead
      rw [lengthLine, List.mem_append, List.mem_cons, List.mem_append, List.mem_append]
      rintro (h | h | (h | h) | h)
      · exact absurd (length_name q.name_eq h).1 (by decide)
      · exact absurd h (by decide)
      · exact hlead.1 h
      · exact absurd (q.digit 13 h) (by decide)
      · exact hlead.2 h
    · obtain ⟨hne, h13, -⟩ := q.others l (List.mem_append_right _ hl)
      exact ⟨hne, h13⟩

theorem contentLine_lengthLine {cl : Int} (h : q.body.length < 2 ^ 63) :
    contentLine cl q.lengthLine = q.body.length := by
  have h58 : 58 ∉ q.name := fun hc => (length_name q.name_eq hc).2 rfl
  have hws : q.name.all (fun c => !isWs c) = true :=
    List.all_eq_true.mpr fun c hc => by rw [(length_name q.name_eq hc).1]; rfl
  rw [lengthLine, contentLine_field h58 hws, if_pos q.name_eq, hpStrTrim_around
    (fun c hc => blank_isWs (q.blanks c (List.mem_append_left _ hc)))
    (fun c hc => blank_isWs (q.blanks c (List.mem_append_right _ hc)))
    fun c hc => digit_isWs (q.digit c hc)]
  exact strtoll_digits q.digits_ne q.digit q.counts h

theorem contentLength_fields {cl : Int} (h : q.body.length < 2 ^ 63) :
    q.fields.foldl contentLine cl = q.body.length := by
  rw [fields, List.foldl_append, List.foldl_cons, contentLine_lengthLine h,
    foldl_contentLine fun l hl => (q.others l (List.mem_append_right _ hl)).2.2]

/-- the last field, for `route_headOf` -/
theorem exists_fields (q : Request) : ∃ init last, q.fields = init ++ [last] := by
  refine ⟨q.fields.dropLast, q.fields.getLast ?_, (List.dropLast_append_getLast _).symm⟩
  simp [fields]

theorem posts_iff : ascii "POST" <+: q.head ↔ q.Posts := by
  have hl : q.head = q.method ++ (32 :: (q.target ++ 32 :: ascii "HTTP/1.1") ++ 13 :: 10 ::
      (codeLines q.fields ++ [13, 10])) := by
    rw [head, headOf, codeLines_cons, requestLine, List.append_assoc]
  rw [Posts, hl]
  constructor
  · intro h
    have hlen : 4 ≤ q.method.length := by
      by_contra hlt
      obtain ⟨t, ht⟩ := List.prefix_of_prefix_length_le (List.prefix_append q.method _) h
        (show q.method.length ≤ 4 by omega)
      -- the blank behind a shorter method would be one of the four letters
      cases t with
      | nil =>
        have := congrArg List.length ht
        rw [List.append_nil] at this
        exact hlt (Nat.le_of_eq this.symm)
      | cons d t =>
        rw [← ht, List.prefix_append_right_inj] at h
        obtain rfl := (List.cons_prefix_cons.mp h).1
        have hm : (32 : UInt8) ∈ ascii "POST" := ht ▸ List.mem_append_right _ List.mem_cons_self
        exact absurd hm (by decide)
    exact List.prefix_of_prefix_length_le h (List.prefix_append _ _) hlen
  · intro h
    exact h.trans (List.prefix_append _ _)

theorem foldl_lines (hp : q.Posts) (h : q.body.length < 2 ^ 63) :
    (q.requestLine :: q.fields).foldl contentLine 0 = q.body.length := by
  have hline : ¬ NamesLength q.requestLine := by
    rintro ⟨name, value, hl, h58, hn⟩
    -- the name begins with the letter `P`
    obtain ⟨m, hm⟩ := hp
    have hm' : q.method = 80 :: (ascii "OST" ++ m) := hm.symm
    cases name with
    | nil =>
      rw [requestLine, hm'] at hl
      exact absurd (List.cons.inj hl).1 (by decide)
    | cons c name =>
      rw [requestLine, hm'] at hl
      obtain rfl := (List.cons.inj hl).1
      obtain ⟨u, hu⟩ := hpStrTrim_head (c := 80) (by decide) name
      rw [hu] at hn
      exact absurd (List.cons.inj hn).1 (by decide)
  rw [List.foldl_cons, contentLength_fields h]

theorem parts (q : Request) :
    q.requestLine.splitOn 32 = [q.method, q.target, ascii "HTTP/1.1"] := by
  rw [requestLine, List.splitOn_append_cons_self_of_not_mem q.method_clean.1,
    List.splitOn_append_cons_self_of_not_mem q.target_clean.1]
  rfl

/-- what is done with a request whose head is there -/
theorem route_head (q : Request) (t : Bytes) : ∃ head, contentLength 0 head =
    (q.requestLine :: q.fields).foldl contentLine 0 ∧ route (q.head ++ t) =
      dispatch q.method q.target
        (if q.method = ascii "POST" then hpbiSubstr t 0 (some (contentLength 0 head)) else t) := by
  obtain ⟨init, last, hf⟩ := q.exists_fields
  have hok := q.lines_ok
  rw [hf] at hok
  obtain ⟨head, hcl, hr⟩ := route_headOf init hok t
  refine ⟨head, by rw [hcl, hf], ?_⟩
  rw [Request.head, hf, hr, routeLine, parts]
  rfl

/-- **The second reading of the head** cuts the body where it ends. -/
theorem route_text (h : q.body.length < 2 ^ 63) :
    route q.text = dispatch q.method q.target q.body := by
  obtain ⟨head, hcl, hr⟩ := q.route_head q.body
  rw [text, hr]
  congr 1
  split
  · next hm =>
    rw [hcl, foldl_lines ⟨[], by rw [hm]; rfl⟩ h]
    have := hpbiSubstr_take (s := q.body) (a := 0) (k := q.body.length) (by omega) (by omega)
    rwa [List.drop_zero, List.take_length] at this
  · rfl

/-- without a `POST` the body does not count -/
theorem route_other (hp : ¬ q.Posts) (t body : Bytes) :
    route (q.head ++ t) = dispatch q.method q.target body := by
  obtain ⟨head, -, hr⟩ := q.route_head t
  have hm : q.method ≠ ascii "POST" := fun hm => hp ⟨[], by rw [hm]; rfl⟩
  rw [hr, if_neg hm]
  simp only [dispatch, hm, false_and, if_false]

theorem complete_iff (hp : ¬ q.Posts) {t : Bytes} (ht : t <+: q.text) :
    complete t = true ↔ q.head.length ≤ t.length := by
  have hne : q.requestLine :: q.fields ≠ [] := List.cons_ne_nil _ _
  constructor
  · intro hc
    by_contra hlt
    rw [complete, strpos_head_part hne q.lines_ok ht (Nat.lt_of_not_le hlt)] at hc
    cases hc
  · intro hle
    obtain ⟨u, rfl⟩ := List.prefix_of_prefix_length_le (List.prefix_append _ _) ht hle
    exact complete_other hne q.lines_ok (fun h => hp (posts_iff.mp h)) u

end Request

/-! ## the loop -/

/-- the loop stops with the first piece behind which there are `m` bytes -/
theorem readRequest_first {p s : Bytes} {frs : List Bytes} {m : Nat} (hp : p ++ frs.flatten = s)
    (hc : ∀ t, t <+: s → (complete t = true ↔ m ≤ t.length)) (hmax : m ≤ maxPackage)
    (hm : m ≤ s.length) (hlt : p.length < m) :
    ∃ r, readRequest p frs = some r ∧ r <+: s ∧ m ≤ r.length := by
  induction frs generalizing p with
  | nil =>
    rw [List.flatten_nil, List.append_nil] at hp
    rw [hp] at hlt
    omega
  | cons f rest ih =>
    rw [List.flatten_cons, ← List.append_assoc] at hp
    have hpre : p ++ f <+: s := ⟨_, hp⟩
    rw [readRequest, if_pos (by omega)]
    by_cases hle : m ≤ (p ++ f).length
    · exact ⟨p ++ f, if_pos ((hc _ hpre).mpr hle), hpre, hle⟩
    · rw [if_neg fun h => hle ((hc _ hpre).mp h)]
      exact ih hp (Nat.lt_of_not_le hle)

section
variable {q : Request} {frs : List Bytes}

/-- without a `POST` the loop stops somewhere behind the head -/
theorem readRequest_other (hp : ¬ q.Posts) (hmax : q.head.length ≤ maxPackage)
    (h : Fragments 65536 frs q.text) :
    ∃ t, readRequest [] frs = some (q.head ++ t) ∧ t <+: q.body := by
  have h4 : 4 ≤ q.head.length := four_le_headOf (List.cons_ne_nil _ _)
  have hle : q.head.length ≤ q.text.length := by
    rw [Request.text, List.length_append]
    omega
  obtain ⟨r, hr, hpre, hm⟩ := readRequest_first (p := []) h.flat
    (fun t ht => Request.complete_iff hp ht) hmax hle (by show 0 < _; omega)
  obtain ⟨t, rfl⟩ := List.prefix_of_prefix_length_le (List.prefix_append _ _) hpre hm
  exact ⟨t, hr, (List.prefix_append_right_inj _).mp hpre⟩

theorem exact_iff : Exact q ↔ q.text.length ≤ maxPackage ∧
    (q.Posts ∧ Agrees q.text.length q.body ∨ ¬ q.Posts ∧ q.body = []) := by
  have hne : q.requestLine :: q.fields ≠ [] := List.cons_ne_nil _ _
  have hlen : q.text.length = q.head.length + q.body.length := List.length_append
  have hmax : maxPackage < 2 ^ 63 := by decide
  constructor
  · intro h
    obtain ⟨hread, -⟩ := h _ (fragments_bytewise _ (by decide) q.text)
    obtain ⟨r, rest, hsplit, hr, hsize, -, hopen⟩ := readRequest_bytewise hread (Nat.zero_le _)
    rw [List.nil_append] at hr
    subst hr
    by_cases hp : q.Posts
    · obtain ⟨hfits, hagrees⟩ := agrees_of_bytewise hne q.lines_ok (Request.posts_iff.mpr hp)
        (Request.foldl_lines hp (by omega)) hread
      exact ⟨hfits, .inl ⟨hp, hagrees⟩⟩
    · refine ⟨hsize, .inr ⟨hp, ?_⟩⟩
      by_contra hb
      have h4 : 4 ≤ q.head.length := four_le_headOf hne
      have hc := hopen q.head (List.prefix_append _ _) ?_ ?_
      · have hpre : q.head <+: q.text := List.prefix_append _ _
        rw [List.nil_append, (Request.complete_iff hp hpre).mpr (Nat.le_refl _)] at hc
        cases hc
      · intro h0
        rw [h0] at h4
        exact absurd h4 (by decide)
      · intro he
        have := congrArg List.length he
        have := List.length_pos_iff.mpr hb
        omega
  · rintro ⟨hfits, ⟨hp, ha⟩ | ⟨hp, hb⟩⟩ frs hfrs
    · exact ⟨readRequest_post hne q.lines_ok (Request.posts_iff.mpr hp)
        (Request.foldl_lines hp (by omega)) hfrs hfits ha, Request.route_text (by omega)⟩
    · obtain ⟨t, hr, ht⟩ := readRequest_other hp (by omega) hfrs
      rw [hb, List.prefix_nil] at ht
      refine ⟨?_, Request.route_text (by omega)⟩
      rw [hr, ht, Request.text, hb]

/-- a body that the registry does not wait for -/
def getOne : Request where
  method := ascii "GET"
  target := ascii "/pkg/a"
  before := []
  name := ascii "Content-Length"
  lead := [32]
  digits := [49]
  trail := []
  after := []
  body := [97]
  method_clean := by decide
  target_clean := by decide
  others := fun l hl => (nomatch hl)
  name_eq := by decide
  blanks := fun _ hc => .inl (List.mem_singleton.mp hc)
  digits_ne := by decide
  digit := fun _ hc => List.mem_singleton.mp hc ▸ rfl
  counts := by decide

/-- not every request is read to its end -/
theorem getOne_not_exact : getOne.body.length < maxPackage ∧ ¬ Exact getOne := by
  refine ⟨by decide, ?_⟩
  intro h
  rcases (exact_iff.mp h).2 with ⟨hp, -⟩ | ⟨-, hb⟩
  · exact absurd (show ascii "POST" <+: ascii "GET" from hp) (by decide)
  · cases hb

/-- **A `POST` is handed on with its body, and every other request by its head**, in whichever
pieces it comes. -/
theorem assembled (q : Request) (frs : List Bytes) (h : Fragments 65536 frs q.text) :
    (q.Posts → q.text.length ≤ maxPackage → Agrees q.text.length q.body →
      readRequest [] frs = some q.text ∧ route q.text = dispatch q.method q.target q.body) ∧
    (¬ q.Posts → q.head.length ≤ maxPackage →
      ∃ r, readRequest [] frs = some r ∧ ∀ body, route r = dispatch q.method q.target body) := by
  constructor
  · intro hp hfits ha
    exact exact_iff.mpr ⟨hfits, .inl ⟨hp, ha⟩⟩ frs h
  · intro hp hmax
    obtain ⟨t, hr, -⟩ := readRequest_other hp hmax h
    exact ⟨_, hr, Request.route_other hp t⟩

/-- an archive of one byte -/
def postOne : Request :=
  { getOne with method := ascii "POST", target := ascii "/publish", method_clean := by decide
                target_clean := by decide }

theorem assembled_one : readRequest [] (bytewise postOne.text) = some postOne.text ∧
    route postOne.text = .publish [97] ∧
    ∃ r, readRequest [] [getOne.head, [97]] = some r ∧ route r = .pkg (ascii "a") := by
  have hpost := (assembled postOne _ (fragments_bytewise _ (by decide) _)).1 ⟨[], rfl⟩ (by decide)
    ⟨by decide, .inl (by decide)⟩
  have hget := (assembled getOne [getOne.head, [97]] ⟨rfl, by decide⟩).2
    (show ¬ ascii "POST" <+: ascii "GET" by decide) (by decide)
  obtain ⟨r, hr, hroute⟩ := hget
  exact ⟨hpost.1, hpost.2, r, hr, hroute []⟩

end

end Package
end HolyPhp
