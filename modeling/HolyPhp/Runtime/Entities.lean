import HolyPhp.Lib.Escape
import HolyPhp.Runtime.Explode

/-!
# HTML entities

`htmlentities` and `html_entity_decode` are chains of `hp_str_replace` over literals.  The first
step of both is the one of `&`, so the decoder reads its own output: of the text `&amp;lt;` the
first step makes `&lt;`.

* `hpbiHtmlentities`, `hpbiHtmlEntityDecode`   the chains;
* `Escaped`                                    what stands in an escaped text.

**`entities_inverse`**: the decoder gives back the texts without an entity that it decodes behind
`&amp;`.
-/

set_option autoImplicit false

namespace HolyPhp
namespace Str
open Substr

/-- `hp_str_replace(r, hp_str_lit(d), hp_str_lit(w))`, one behind the other -/
def strReplaceAll (h : Heap) (p : Addr) : List (Bytes × Bytes) → Option (Heap × Addr)
  | [] => some (h, p)
  | (d, w) :: l =>
    let a := h.lit d
    let b := a.1.lit w
    (hpStrReplace b.1 p a.2 b.2).bind fun r => strReplaceAll r.1 r.2 l

section
variable (fromDouble : Double → Bytes)

def hpbiHtmlentities (h : Heap) (s : HVal Addr) : Option (Heap × HVal Addr) :=
  let x := hpValToStr fromDouble h s
  (strReplaceAll x.1 x.2 [(text "&", text "&amp;"), (text "<", text "&lt;"),
    (text ">", text "&gt;"), (text "\"", text "&quot;")]).map fun r => (r.1, .str (some r.2))

def hpbiHtmlEntityDecode (h : Heap) (s : HVal Addr) : Option (Heap × HVal Addr) :=
  let x := hpValToStr fromDouble h s
  (strReplaceAll x.1 x.2 [(text "&amp;", text "&"), (text "&lt;", text "<"),
    (text "&gt;", text ">"), (text "&quot;", text "\""), (text "&#39;", text "'")]).map
      fun r => (r.1, .str (some r.2))

end

/-! ## the chains -/

section
variable {h h' : Heap} {p : Addr} {v : HVal Addr} {x y d r : Bytes} {u : Hstr}

theorem hpStrReplace_spec {s q : Addr} {w t : Hstr} (hp : h.get p = some u)
    (hs : h.get s = some w) (hq : h.get q = some t) (hd : w.bytes ≠ []) :
    ∃ h' out, hpStrReplace h p s q = some (h', out) ∧
      Own h h' out (replace w.bytes t.bytes u.bytes) := by
  have hlen : 0 < w.bytes.length := List.length_pos_iff.mpr hd
  have ho : Own h (h.lit []).1 (h.lit []).2 [] := .lit (fun p s hp => hp) (Nat.le_refl _)
  obtain ⟨h1, out, hrun, ho1⟩ : ∃ h1 out, strReplaceFrom u.bytes w.bytes hlen _ _ _ 0 = some (h1, out)
      ∧ _ := strReplaceFrom_spec hq _ _ 0 (Nat.zero_le u.bytes.length) [] ho
  refine ⟨h1, out, ?_, ho1⟩
  unfold hpStrReplace
  rw [hp, hs]
  dsimp only
  rw [dif_pos hlen, hrun]

/-- **The chain** is the chain of replacements. -/
theorem strReplaceAll_spec (l : List (Bytes × Bytes)) (hl : ∀ e ∈ l, e.1 ≠ [])
    (hp : h.get p = some u) :
    ∃ h' q t, strReplaceAll h p l = some (h', q) ∧ h'.get q = some t ∧
      t.bytes = l.foldl (fun s e => replace e.1 e.2 s) u.bytes := by
  induction l generalizing h p u with
  | nil => exact ⟨h, p, u, rfl, hp, rfl⟩
  | cons e l ih =>
    obtain ⟨d, w⟩ := e
    obtain ⟨hd, hl⟩ := List.forall_mem_cons.mp hl
    have ha : (h.lit d).1.get (h.lit d).2 = some (hpStrNew d) := get_lit h d
    obtain ⟨h1, q, hrun, ho⟩ := hpStrReplace_spec
      (kept_lit (h.lit d).1 w p u (kept_lit h d p u hp))
      (kept_lit (h.lit d).1 w _ _ ha) (get_lit (h.lit d).1 w) hd
    obtain ⟨s, hs, hb⟩ := ho.get
    obtain ⟨h2, q2, t, hrun2, ht, htb⟩ := ih hl hs
    refine ⟨h2, q2, t, ?_, ht, ?_⟩
    · rw [strReplaceAll, hrun]
      exact hrun2
    · rw [htb, hb]
      rfl

end

/-! ## the table -/

/-- `<`, `>`, `"` and what is behind `&` -/
def marks : List (UInt8 × Bytes) :=
  [(60, [108, 116, 59]), (62, [103, 116, 59]), (34, [113, 117, 111, 116, 59])]

/-- `amp;` -/
def ampTail : Bytes := [97, 109, 112, 59]

/-- `'` too -/
def decoded : List (UInt8 × Bytes) := marks ++ [(39, [35, 51, 57, 59])]

/-- the entities that `htmlentities` writes -/
def entities : List Bytes := (38 :: ampTail) :: marks.map fun p => 38 :: p.2

theorem apart_of_head {a b : UInt8} {v w : Bytes} (h : a ≠ b) : Apart (a :: v) (b :: w) :=
  ⟨fun hv => h (List.cons_prefix_cons.mp hv).1, fun hw => h (List.cons_prefix_cons.mp hw).1.symm⟩

theorem marked_marks : Marked 38 marks where
  keys := by decide
  words := by decide
  apart := by
    refine .cons ?_ (.cons ?_ (.cons (fun p hp => by cases hp) .nil))
    · simp only [List.mem_cons, List.not_mem_nil, or_false]
      rintro p (rfl | rfl)
      · exact ⟨by decide, apart_of_head (by decide)⟩
      · exact ⟨by decide, apart_of_head (by decide)⟩
    · simp only [List.mem_cons, List.not_mem_nil, or_false]
      rintro p rfl
      exact ⟨by decide, apart_of_head (by decide)⟩

theorem amp_apart : ∀ p ∈ marks, Apart ampTail p.2 := by
  simp only [marks, List.mem_cons, List.not_mem_nil, or_false]
  rintro p (rfl | rfl | rfl)
  · exact apart_of_head (by decide)
  · exact apart_of_head (by decide)
  · exact apart_of_head (by decide)

theorem amp_plain : ∀ p ∈ marks, p.1 ∉ ampTail := by decide

/-! ## escaped texts -/

/-- no `<`, `>`, `"`, and no `&` but in front of an entity -/
def Escaped (y : Bytes) : Prop :=
  (∀ c ∈ y, c ≠ 60 ∧ c ≠ 62 ∧ c ≠ 34) ∧ ∀ t, 38 :: t <:+ y → ∃ w ∈ entities, w <+: 38 :: t

section
variable {w y s : Bytes}

theorem Escaped.nil : Escaped [] :=
  ⟨fun c hc => absurd hc List.not_mem_nil, fun t ht => by cases List.suffix_nil.mp ht⟩

/-- bytes without a mark in front -/
theorem Escaped.append (hw : ∀ c ∈ w, c ≠ 38 ∧ c ≠ 60 ∧ c ≠ 62 ∧ c ≠ 34) (hy : Escaped y) :
    Escaped (w ++ y) := by
  induction w with
  | nil => exact hy
  | cons c w ih =>
    obtain ⟨hc, hw⟩ := List.forall_mem_cons.mp hw
    obtain ⟨h1, h2⟩ := ih hw
    refine ⟨List.forall_mem_cons.mpr ⟨hc.2, h1⟩, fun t ht => ?_⟩
    rcases List.suffix_cons_iff.mp ht with he | ht
    · exact absurd (List.cons.inj he).1.symm hc.1
    · exact h2 t ht

/-- an entity in front -/
theorem Escaped.entity (hw : 38 :: w ∈ entities) (hplain : ∀ c ∈ w, c ≠ 38 ∧ c ≠ 60 ∧ c ≠ 62 ∧
    c ≠ 34) (hy : Escaped y) : Escaped (38 :: w ++ y) := by
  obtain ⟨h1, h2⟩ := hy.append hplain
  refine ⟨List.forall_mem_cons.mpr ⟨by decide, h1⟩, fun t ht => ?_⟩
  rcases List.suffix_cons_iff.mp ht with he | ht
  · rw [he]
    exact ⟨38 :: w, hw, List.prefix_append _ y⟩
  · exact h2 t ht

theorem plain_of_all (h : w.all (fun c => c != 38 && c != 60 && c != 62 && c != 34) = true) :
    ∀ c ∈ w, c ≠ 38 ∧ c ≠ 60 ∧ c ≠ 62 ∧ c ≠ 34 := fun c hc => by
  simpa [and_assoc] using List.all_eq_true.mp h c hc

theorem escaped_escape (s : Bytes) : Escaped (escape 38 ampTail marks s) := by
  rw [escape_eq marked_marks amp_plain]
  induction s with
  | nil => exact .nil
  | cons b s ih =>
    rw [List.flatMap_cons]
    by_cases hb : b = 38
    · rw [if_pos hb]
      exact ih.entity List.mem_cons_self (plain_of_all rfl)
    · rw [if_neg hb]
      rcases code_cases 38 marks b with ⟨p, hp, -, he⟩ | ⟨hno, he⟩
      · rw [he]
        refine ih.entity (List.mem_cons_of_mem _ (List.mem_map.mpr ⟨p, hp, rfl⟩)) ?_
        simp only [marks, List.mem_cons, List.not_mem_nil, or_false] at hp
        rcases hp with rfl | rfl | rfl <;> exact plain_of_all rfl
      · rw [he]
        refine ih.append fun c hc => ?_
        rw [List.mem_singleton.mp hc]
        have h60 := hno (60, [108, 116, 59]) (by decide)
        have h62 := hno (62, [103, 116, 59]) (by decide)
        have h34 := hno (34, [113, 117, 111, 116, 59]) (by decide)
        exact ⟨hb, h60.symm, h62.symm, h34.symm⟩

end

/-! ## escaping and decoding -/

section
variable (fromDouble : Double → Bytes)
variable {h : Heap} {v : HVal Addr} {x : Bytes}

theorem htmlentities_spec (hv : Holds h v x) :
    ∃ h' e, hpbiHtmlentities fromDouble h v = some (h', e) ∧
      Holds h' e (escape 38 ampTail marks x) := by
  obtain ⟨p, u, rfl, hp, rfl⟩ := hv
  obtain ⟨h1, q, t, hrun, ht, hb⟩ := strReplaceAll_spec [(text "&", text "&amp;"),
    (text "<", text "&lt;"), (text ">", text "&gt;"), (text "\"", text "&quot;")] (by decide) hp
  refine ⟨h1, .str (some q), ?_, q, t, rfl, ht, hb⟩
  unfold hpbiHtmlentities
  dsimp only [hpValToStr]
  rw [hrun]
  rfl

theorem htmlEntityDecode_spec (hv : Holds h v x) :
    ∃ h' e, hpbiHtmlEntityDecode fromDouble h v = some (h', e) ∧
      Holds h' e (unescape 38 ((38, ampTail) :: decoded) x) := by
  obtain ⟨p, u, rfl, hp, rfl⟩ := hv
  obtain ⟨h1, q, t, hrun, ht, hb⟩ := strReplaceAll_spec [(text "&amp;", text "&"),
    (text "&lt;", text "<"), (text "&gt;", text ">"), (text "&quot;", text "\""),
    (text "&#39;", text "'")] (by decide) hp
  refine ⟨h1, .str (some q), ?_, q, t, rfl, ht, hb⟩
  unfold hpbiHtmlEntityDecode
  dsimp only [hpValToStr]
  rw [hrun]
  rfl

/-- what is decoded of an escaped text -/
theorem decode_escape (x : Bytes) :
    unescape 38 ((38, ampTail) :: decoded) (escape 38 ampTail marks x) =
      unescape 38 decoded x := by
  have hsplit : ∀ s, unescape 38 ((38, ampTail) :: decoded) s =
      replace [38, 35, 51, 57, 59] [39] (unescape 38 ((38, ampTail) :: marks) s) := fun s => rfl
  rw [hsplit, unescape_escape marked_marks amp_plain amp_apart]
  rfl

/-- the string comes back -/
def Returns (h : Heap) (v : HVal Addr) (x : Bytes) : Prop :=
  ∃ h1 e h2 d, hpbiHtmlentities fromDouble h v = some (h1, e) ∧
    hpbiHtmlEntityDecode fromDouble h1 e = some (h2, d) ∧ Holds h2 d x

theorem Holds.bytes_eq {y : Bytes} (hx : Holds h v x) (hy : Holds h v y) : x = y := by
  obtain ⟨p, s, rfl, hp, rfl⟩ := hx
  obtain ⟨t, ht, rfl⟩ := hy.get
  rw [Option.some.inj (hp.symm.trans ht)]

theorem returns_iff (hv : Holds h v x) :
    Returns fromDouble h v x ↔ ∀ p ∈ decoded, ¬ 38 :: p.2 <:+: x := by
  obtain ⟨h1, e, henc, he⟩ := htmlentities_spec fromDouble hv
  obtain ⟨h2, d, hdec, hd⟩ := htmlEntityDecode_spec fromDouble he
  rw [decode_escape] at hd
  rw [← unescape_eq_self (by decide : ∀ p ∈ decoded, p.2 ≠ [])]
  constructor
  · rintro ⟨h1', e', h2', d', henc', hdec', hx⟩
    obtain ⟨rfl, rfl⟩ := Prod.mk.inj (Option.some.inj (henc.symm.trans henc'))
    obtain ⟨rfl, rfl⟩ := Prod.mk.inj (Option.some.inj (hdec.symm.trans hdec'))
    exact hd.bytes_eq hx
  · intro hx
    rw [hx] at hd
    exact ⟨h1, e, h2, d, henc, hdec, hd⟩

/-- **Escaping and decoding**, for every text -/
theorem entities_inverse (hv : Holds h v x) :
    (Returns fromDouble h v x ↔
      ∀ w ∈ ["&lt;", "&gt;", "&quot;", "&#39;"], ¬ text w <:+: x) ∧
    ∃ h1 e y, hpbiHtmlentities fromDouble h v = some (h1, e) ∧ Holds h1 e y ∧ Escaped y := by
  constructor
  · rw [returns_iff fromDouble hv]
    have htexts : decoded.map (fun p => 38 :: p.2) =
        ["&lt;", "&gt;", "&quot;", "&#39;"].map text := by decide
    rw [← List.forall_mem_map (f := fun p : UInt8 × Bytes => 38 :: p.2)
      (P := fun w : Bytes => ¬ w <:+: x), htexts, List.forall_mem_map]
  · obtain ⟨h1, e, henc, he⟩ := htmlentities_spec fromDouble hv
    exact ⟨h1, e, _, henc, he, escaped_escape x⟩

end

/-- `"&lt;"` -/
def heapLt : Heap := ⟨[hpStrNew (text "&lt;")], none, by simp⟩

theorem entities_inverse_lt :
    (Returns (fun _ => []) heapLt (.str (some 0)) (text "&lt;") ↔
      ∀ w ∈ ["&lt;", "&gt;", "&quot;", "&#39;"], ¬ text w <:+: text "&lt;") ∧
    ∃ h1 e y, hpbiHtmlentities (fun _ => []) heapLt (.str (some 0)) = some (h1, e) ∧
      Holds h1 e y ∧ Escaped y :=
  entities_inverse (fun _ => []) ⟨0, _, rfl, rfl, rfl⟩

/-- `"&lt;"` comes back as `"<"` -/
theorem entities_lost : ¬ ∀ (h : Heap) (v : HVal Addr) (x : Bytes), Holds h v x →
    Returns (fun _ => []) h v x := by
  intro hall
  have hv : Holds heapLt (.str (some 0)) (text "&lt;") := ⟨0, _, rfl, rfl, rfl⟩
  have hret := (returns_iff (fun _ => []) hv).mp (hall _ _ _ hv)
  exact hret (60, [108, 116, 59]) (by decide) (List.infix_refl _)

end Str
end HolyPhp
