import HolyPhp.Json.RoundTrip
import HolyPhp.Json.Spaced
import HolyPhp.Lib.JsonTokens
import Mathlib.Logic.Relation

/-!
# `hpbi_json_encode2`: the text with line breaks

The text of `hbuf_json_r` is read again, byte by byte; the scanner knows its depth and whether it
is inside a string.

* `Indenter.next`       one round of the loop;
* `hpbiJsonEncode2`     the function; the flag `1` asks for line breaks;
* `Pretties t`          wherever the scanner meets the text `t`, it puts blanks in at the punctuation
                        and comes out at the depth it went in with.

**`pretty_same`**: the decoder reads the same value from both texts.
-/

set_option autoImplicit false
set_option linter.unusedVariables false

namespace HolyPhp
namespace Std
open Arr hiding Key
open Str Json Relation

/-- `s + i`, `depth`, `in_str` and the buffer `b` -/
structure Indenter where
  rest : Bytes
  depth : Int
  inStr : Bool
  out : Bytes

/-- a line break and four blanks for each level -/
def newline (depth : Int) : Bytes := 10 :: List.replicate (4 * depth.toNat) 32

/-- a round of the loop over the bytes in front of the NUL -/
def Indenter.next (s : Indenter) : Option Indenter :=
  match s.rest with
  | [] => none
  | c :: cs => some <|
    if s.inStr then
      if c = 92 ∧ cs ≠ [] then
        { s with rest := cs.tail, out := s.out ++ [c, cs.headD 0] }
      else { s with rest := cs, inStr := c ≠ 34, out := s.out ++ [c] }
    else if c = 34 then { s with rest := cs, inStr := true, out := s.out ++ [c] }
    else if c = 123 ∨ c = 91 then
      -- an empty array stays in its line
      if cs.headD 0 = 125 ∨ cs.headD 0 = 93 then
        { s with rest := cs.tail, out := s.out ++ [c, cs.headD 0] }
      else
        { s with rest := cs, depth := s.depth + 1, out := s.out ++ c :: newline (s.depth + 1) }
    else if c = 125 ∨ c = 93 then
      { s with rest := cs, depth := s.depth - 1, out := s.out ++ (newline (s.depth - 1) ++ [c]) }
    else if c = 44 then { s with rest := cs, out := s.out ++ c :: newline s.depth }
    else if c = 58 then { s with rest := cs, out := s.out ++ [c, 32] }
    else { s with rest := cs, out := s.out ++ [c] }

/-- the loop; every round takes a byte -/
def Indenter.run : Nat → Indenter → Indenter
  | 0, s => s
  | n + 1, s =>
    match s.next with
    | none => s
    | some s => run n s

/-- in front of the text -/
def Indenter.start (t : Bytes) : Indenter := ⟨t, 0, false, []⟩

section
variable (percentG fromDouble : Double → Bytes)

/-- the bytes of the buffer `c` in front of its NUL -/
def compactText (fuel : Nat) (h : Heap) (v : Val) : Option Bytes :=
  (hbufJsonR percentG fromDouble h fuel v).map fun b => b.takeWhile (· ≠ 0)

def hpbiJsonEncode2 (fuel : Nat) (h : Heap) (v flags : Val) : Option Val :=
  if hpValToInt flags &&& 1 ≠ 0 then
    (compactText percentG fromDouble fuel h v).map fun t =>
      .str (some (Indenter.run t.length (.start t)).out)
  else hpbiJsonEncode percentG fromDouble fuel h v

end

/-! ## a walk of the scanner -/

/-- rounds after which the depth is not negative -/
def Walks : Indenter → Indenter → Prop :=
  ReflTransGen fun s t => s.next = some t ∧ 0 ≤ t.depth

/-- any rounds -/
def Leads : Indenter → Indenter → Prop := ReflTransGen fun s t => s.next = some t

section
variable {c : UInt8} {r s t u : Bytes} {d : Int} {out : Bytes} {x y z : Indenter}

theorem next_lt (h : x.next = some y) : y.rest.length < x.rest.length := by
  unfold Indenter.next at h
  cases hr : x.rest with
  | nil =>
    rw [hr] at h
    cases h
  | cons c cs =>
    rw [hr] at h
    have htail : cs.tail.length ≤ cs.length := by
      rw [List.length_tail]
      exact Nat.sub_le ..
    obtain rfl := Option.some.inj h
    rw [List.length_cons]
    split_ifs <;> dsimp only <;> omega

/-- the loop goes to the end of the walk -/
theorem Walks.run (hw : Walks x y) (hy : y.next = none) {n : Nat} (hn : x.rest.length ≤ n) :
    x.run n = y := by
  induction hw using ReflTransGen.head_induction_on generalizing n with
  | refl =>
    cases n with
    | zero => rfl
    | succ n => rw [Indenter.run, hy]
  | head hxz _ ih =>
    have hlt := next_lt hxz.1
    obtain ⟨m, rfl⟩ := Nat.exists_eq_add_of_le' (Nat.lt_of_le_of_lt (Nat.zero_le _)
      (Nat.lt_of_lt_of_le hlt hn))
    rw [Indenter.run, hxz.1]
    exact ih (by omega)

/-- **The depth in every state that comes** -/
theorem Walks.depth (hw : Walks x y) (hy : y.next = none) (hx : 0 ≤ x.depth) (hz : Leads x z) :
    0 ≤ z.depth := by
  induction hw using ReflTransGen.head_induction_on with
  | refl =>
    rcases ReflTransGen.cases_head hz with rfl | ⟨w, hw, -⟩
    · exact hx
    · rw [hy] at hw
      cases hw
  | head hxz _ ih =>
    rcases ReflTransGen.cases_head hz with rfl | ⟨w, hw, hwz⟩
    · exact hx
    · obtain rfl := Option.some.inj (hxz.1.symm.trans hw)
      exact ih hxz.2 hwz

/-- one round -/
theorem Walks.one (h : x.next = some y) (hy : 0 ≤ y.depth) : Walks x y := .single ⟨h, hy⟩

theorem Walks.trans (hxy : Walks x y) (hyz : Walks y z) : Walks x z := ReflTransGen.trans hxy hyz

theorem Walks.leads (hxy : Walks x y) : Leads x y := by
  induction hxy with
  | refl => exact .refl
  | tail _ h ih => exact ih.tail h.1

/-- a byte of a string -/
theorem next_inStr (h34 : c ≠ 34) (h92 : c ≠ 92) :
    Indenter.next ⟨c :: r, d, true, out⟩ = some ⟨r, d, true, out ++ [c]⟩ := by
  simp [Indenter.next, h34, h92]

/-- the characters of a string, and its closing quote -/
theorem walks_chars {k : List Ch} (hk : LaxStr k) (hd : 0 ≤ d) (r out : Bytes) :
    Walks ⟨chars k ++ 34 :: r, d, true, out⟩ ⟨r, d, false, out ++ (chars k ++ [34])⟩ := by
  induction k generalizing out with
  | nil => exact .one rfl hd
  | cons x k ih =>
    have hx := hk x List.mem_cons_self
    have ih := ih fun y hy => hk y (List.mem_cons_of_mem x hy)
    have hall : chars (x :: k) ++ 34 :: r = x.text ++ (chars k ++ 34 :: r) := by
      simp [chars]
    have hout : out ++ (chars (x :: k) ++ [34]) = out ++ x.text ++ (chars k ++ [34]) := by
      simp [chars]
    rw [hall, hout]
    refine Walks.trans ?_ (ih (out ++ x.text))
    generalize chars k ++ 34 :: r = u
    cases x with
    | raw b => exact .one (next_inStr hx.1 hx.2) hd
    | esc e => exact .one rfl hd
    | hex a b c d' =>
      have hstep : ∀ (x : Hex) (v w : Bytes),
          Walks ⟨x.byte :: v, d, true, w⟩ ⟨v, d, true, w ++ [x.byte]⟩ :=
        fun x v w => .one (next_inStr x.byte_plain.1 x.byte_plain.2) hd
      have hesc : Walks ⟨92 :: 117 :: a.byte :: b.byte :: c.byte :: d'.byte :: u, d, true, out⟩
          ⟨a.byte :: b.byte :: c.byte :: d'.byte :: u, d, true, out ++ [92, 117]⟩ := .one rfl hd
      have hhex := ((((hesc.trans (hstep a _ _)).trans (hstep b _ _)).trans (hstep c _ _)).trans
        (hstep d' u _))
      simpa [Ch.text] using hhex

/-- wherever the scanner meets `t`, it writes a text with blanks put in -/
def Pretties (t : Bytes) : Prop := ∀ d : Int, 0 ≤ d → ∃ u,
  (∀ r out, Walks ⟨t ++ r, d, false, out⟩ ⟨r, d, false, out ++ u⟩) ∧
  ∀ s s', Spaced s s' → Spaced (t ++ s) (u ++ s')

theorem Pretties.nil : Pretties [] := by
  intro d hd
  refine ⟨[], fun r out => ?_, fun s s' h => h⟩
  rw [List.append_nil]
  exact .refl

theorem Pretties.append (hs : Pretties s) (ht : Pretties t) : Pretties (s ++ t) := by
  intro d hd
  obtain ⟨u, hu, hsu⟩ := hs d hd
  obtain ⟨v, hv, htv⟩ := ht d hd
  refine ⟨u ++ v, fun r out => ?_, fun x x' h => ?_⟩
  · rw [List.append_assoc, ← List.append_assoc out]
    exact (hu (t ++ r) out).trans (hv r (out ++ u))
  · rw [List.append_assoc, List.append_assoc]
    exact hsu _ _ (htv x x' h)

theorem next_atom (hc : Atom c) :
    Indenter.next ⟨c :: r, d, false, out⟩ = some ⟨r, d, false, out ++ [c]⟩ := by
  obtain ⟨-, h34, hp⟩ := hc
  simp only [Punct, not_or] at hp
  obtain ⟨h44, h58, h91, h93, h123, h125⟩ := hp
  simp [Indenter.next, h34, h44, h58, h91, h93, h123, h125]

theorem Pretties.atoms (ht : ∀ c ∈ t, Atom c) : Pretties t := by
  induction t with
  | nil => exact .nil
  | cons c t ih =>
    have hc := ht c List.mem_cons_self
    have hone : Pretties [c] := fun d hd =>
      ⟨[c], fun r out => .one (next_atom hc) hd, fun s s' h => .atom hc h⟩
    exact hone.append (ih fun b hb => ht b (List.mem_cons_of_mem c hb))

theorem Pretties.string {k : List Ch} (hk : LaxStr k) : Pretties (string k) := by
  intro d hd
  refine ⟨Json.string k, fun r out => ?_, fun s s' h => .str hk h⟩
  have hopen : Walks ⟨34 :: (chars k ++ 34 :: r), d, false, out⟩
      ⟨chars k ++ 34 :: r, d, true, out ++ [34]⟩ := .one rfl hd
  have hall := hopen.trans (walks_chars hk hd r (out ++ [34]))
  simpa [Json.string] using hall

theorem blank_newline (d : Int) : Blank (newline d) := by
  intro c hc
  rcases List.mem_cons.mp hc with rfl | hc
  · decide
  · rw [List.eq_of_mem_replicate hc]
    decide

/-- a comma and a colon -/
theorem Pretties.comma : Pretties [44] := by
  intro d hd
  refine ⟨44 :: newline d, fun r out => .one rfl hd, fun s s' h => ?_⟩
  exact .punct (v := []) (.inl rfl) blank_nil (blank_newline d) h

theorem Pretties.colon : Pretties [58] := by
  intro d hd
  refine ⟨[58, 32], fun r out => .one rfl hd, fun s s' h => ?_⟩
  exact .punct (v := []) (w := [32]) (by decide) blank_nil blank_space h

/-- the brackets of an array: `(91, 93)` or `(123, 125)` -/
def Brackets (b e : UInt8) : Prop := (b = 91 ∧ e = 93) ∨ (b = 123 ∧ e = 125)

/-- an array without elements -/
theorem Pretties.empty {b e : UInt8} (hb : Brackets b e) : Pretties [b, e] := by
  intro d hd
  refine ⟨[b, e], fun r out => ?_, fun s s' h => ?_⟩
  · rcases hb with ⟨rfl, rfl⟩ | ⟨rfl, rfl⟩ <;> exact .one rfl hd
  · have hpb : Punct b := by rcases hb with ⟨rfl, rfl⟩ | ⟨rfl, rfl⟩ <;> decide
    have hpe : Punct e := by rcases hb with ⟨rfl, rfl⟩ | ⟨rfl, rfl⟩ <;> decide
    have he : Spaced (e :: s) (e :: s') := .punct (v := []) (w := []) hpe blank_nil blank_nil h
    exact .punct (v := []) (w := []) hpb blank_nil blank_nil he

/-- a text in front of which no array is empty -/
def Starts (t : Bytes) : Prop := ∃ c cs, t = c :: cs ∧ c ≠ 93 ∧ c ≠ 125

/-- an array with elements -/
theorem Pretties.bracket {b e : UInt8} (hb : Brackets b e) (ht : Pretties t) (hs : Starts t) :
    Pretties (b :: (t ++ [e])) := by
  intro d hd
  obtain ⟨u, hu, hsu⟩ := ht (d + 1) (by omega)
  obtain ⟨c, cs, rfl, h93, h125⟩ := hs
  refine ⟨b :: (newline (d + 1) ++ (u ++ (newline d ++ [e]))), fun r out => ?_, fun s s' h => ?_⟩
  · have hopen : Walks ⟨b :: (c :: cs ++ e :: r), d, false, out⟩
        ⟨c :: cs ++ e :: r, d + 1, false, out ++ b :: newline (d + 1)⟩ := by
      refine .one ?_ (show 0 ≤ d + 1 by omega)
      rcases hb with ⟨rfl, rfl⟩ | ⟨rfl, rfl⟩ <;> simp [Indenter.next, h93, h125]
    have hclose : ∀ w, Walks ⟨e :: r, d + 1, false, w⟩ ⟨r, d, false, w ++ (newline d ++ [e])⟩ := by
      intro w
      refine .one ?_ hd
      rcases hb with ⟨rfl, rfl⟩ | ⟨rfl, rfl⟩ <;> simp [Indenter.next]
    have hall := (hopen.trans (hu (e :: r) _)).trans (hclose _)
    simpa using hall
  · have hpb : Punct b := by rcases hb with ⟨rfl, rfl⟩ | ⟨rfl, rfl⟩ <;> decide
    have hpe : Punct e := by rcases hb with ⟨rfl, rfl⟩ | ⟨rfl, rfl⟩ <;> decide
    have he : Spaced (e :: s) (newline d ++ e :: s') :=
      .punct (w := []) hpe (blank_newline d) blank_nil h
    have hb' := Spaced.punct (v := []) hpb blank_nil (blank_newline (d + 1)) (hsu _ _ he)
    simpa using hb'

end

/-! ## the text of the encoder -/

/-- a byte that `"%g"` writes -/
def isGByte (c : UInt8) : Bool :=
  isNumByte c || c == 97 || c == 102 || c == 105 || c == 110

/-- a value in the array `v`, or in an array inside it -/
inductive Inside (h : Heap) (v : Val) : Val → Prop
  | self : Inside h v v
  | elem {p i : Nat} {a : Harr} : Inside h v (.arr (some p)) → h[p]? = some a → i < a.len →
      Inside h v (a.vals i)

/-- no NUL in a string, no NUL, quote or backslash in a key -/
def CleanText (fromDouble : Double → Bytes) (h : Heap) (v : Val) : Prop :=
  ∀ w, Inside h v w → (∀ s, w = .str (some s) → 0 ∉ s) ∧
    ∀ p a, w = .arr (some p) → h[p]? = some a → a.isMap = true → ∀ i < a.len,
      ∀ c ∈ hpValToStr fromDouble (a.key i), c ≠ 0 ∧ c ≠ 34 ∧ c ≠ 92

/-- what is needed of the text of a value -/
structure Neat (t : Bytes) : Prop where
  pretties : Pretties t
  starts : Starts t
  zero : 0 ∉ t

section
variable {percentG fromDouble : Double → Bytes} {h : Heap} {v : Val} {t b : Bytes} {c : UInt8}

theorem atom_gByte (hc : isGByte c = true) : Atom c ∧ c ≠ 0 := by
  refine ⟨⟨?_, ?_, ?_⟩, ?_⟩
  · rintro (rfl | rfl | rfl | rfl) <;> exact absurd hc (by decide)
  · rintro rfl
    exact absurd hc (by decide)
  · rintro (rfl | rfl | rfl | rfl | rfl | rfl) <;> exact absurd hc (by decide)
  · rintro rfl
    exact absurd hc (by decide)

/-- literals and numbers -/
theorem Neat.atoms (hne : t ≠ []) (ht : ∀ c ∈ t, Atom c ∧ c ≠ 0) : Neat t := by
  refine ⟨.atoms fun c hc => (ht c hc).1, ?_, fun h0 => (ht 0 h0).2 rfl⟩
  cases t with
  | nil => exact absurd rfl hne
  | cons c t =>
    have hp := (ht c List.mem_cons_self).1.2.2
    simp only [Punct, not_or] at hp
    exact ⟨c, t, rfl, hp.2.2.2.1, hp.2.2.2.2.2⟩

theorem neat_of_all (hne : t ≠ []) (h : t.all (fun c => decide (Atom c ∧ c ≠ 0)) = true) :
    Neat t :=
  .atoms hne fun c hc => of_decide_eq_true (List.all_eq_true.mp h c hc)

theorem starts_string (k : List Ch) (r : Bytes) : Starts (string k ++ r) :=
  ⟨34, _, rfl, by decide, by decide⟩

theorem neat_string {k : List Ch} (hk : LaxStr k) (h0 : 0 ∉ chars k) : Neat (string k) := by
  refine ⟨.string hk, ⟨34, _, rfl, by decide, by decide⟩, fun hz => ?_⟩
  simp only [string, List.mem_cons, List.mem_append, List.not_mem_nil, or_false] at hz
  rcases hz with hz | hz | hz
  · exact absurd hz (by decide)
  · exact h0 hz
  · exact absurd hz (by decide)

/-- the texts of the elements with commas between them -/
theorem neat_commas {f : Nat → Option Bytes} {n : Nat} (hf : ∀ i < n, ∀ t, f i = some t → Neat t)
    (hb : commas f n = some b) : (n = 0 ∧ b = []) ∨ Neat b := by
  induction n generalizing b with
  | zero => exact .inl ⟨rfl, (Option.some.inj hb).symm⟩
  | succ n ih =>
    right
    rw [commas] at hb
    obtain ⟨b0, hb0, hb⟩ := Option.bind_eq_some_iff.mp hb
    obtain ⟨t, ht, rfl⟩ := Option.map_eq_some_iff.mp hb
    have hneat := hf n (Nat.lt_succ_self n) t ht
    rcases ih (fun i hi => hf i (Nat.lt_succ_of_lt hi)) hb0 with ⟨rfl, rfl⟩ | hb0
    · exact hneat
    · split_ifs with hn
      · obtain ⟨c, cs, rfl, hc⟩ := hb0.starts
        refine ⟨hb0.pretties.append hneat.pretties, ⟨c, _, rfl, hc⟩, ?_⟩
        rw [List.nil_append, List.mem_append]
        exact fun h => h.elim hb0.zero hneat.zero
      · obtain ⟨c, cs, rfl, hc⟩ := hb0.starts
        refine ⟨hb0.pretties.append (Pretties.comma.append hneat.pretties), ⟨c, _, rfl, hc⟩, ?_⟩
        simp only [List.mem_append, List.mem_singleton]
        rintro (h | h | h)
        · exact hb0.zero h
        · exact absurd h (by decide)
        · exact hneat.zero h

/-- the brackets around the elements -/
theorem neat_brackets {f : Nat → Option Bytes} {n : Nat} {p e : UInt8} (hp : Brackets p e)
    (hf : ∀ i < n, ∀ t, f i = some t → Neat t) (hb : commas f n = some b) :
    Neat (p :: (b ++ [e])) := by
  have h0 : 0 ≠ p ∧ 0 ≠ e ∧ p ≠ 93 ∧ p ≠ 125 := by
    rcases hp with ⟨rfl, rfl⟩ | ⟨rfl, rfl⟩ <;> decide
  have hstart : Starts (p :: (b ++ [e])) := ⟨p, _, rfl, h0.2.2⟩
  rcases neat_commas hf hb with ⟨-, rfl⟩ | hb
  · refine ⟨.empty hp, hstart, fun h => ?_⟩
    rcases List.mem_cons.mp h with h | h
    · exact h0.1 h
    · exact h0.2.1 (List.mem_singleton.mp h)
  · refine ⟨.bracket hp hb.pretties hb.starts, hstart, fun h => ?_⟩
    rcases List.mem_cons.mp h with h | h
    · exact h0.1 h
    · rcases List.mem_append.mp h with h | h
      · exact hb.zero h
      · exact h0.2.1 (List.mem_singleton.mp h)

theorem mem_keyText {s : Bytes} (hc : c ∈ keyText s) : c ∈ s := by
  unfold keyText at hc
  have hmem := (List.takeWhile_sublist _).mem hc
  split at hmem
  · exact hmem
  · exact List.mem_of_mem_take hmem

theorem printKey_or (s : Bytes) :
    printKey s = string ((keyText s).map Ch.raw) ++ [58] ∨ printKey s = [] := by
  have he : string ((keyText s).map Ch.raw) ++ [58] = 34 :: (keyText s ++ [34, 58]) := by
    rw [string, chars_raw, List.cons_append, List.append_assoc]
    rfl
  by_cases hl : (34 :: (keyText s ++ [34, 58])).length < 2 ^ 31
  · left
    rw [printKey, if_pos hl, he]
  · right
    rw [printKey, if_neg hl]

/-- a key in front of its value -/
theorem neat_member {s : Bytes} (hs : ∀ c ∈ s, c ≠ 0 ∧ c ≠ 34 ∧ c ≠ 92) (ht : Neat t) :
    Neat (printKey s ++ t) := by
  rcases printKey_or s with he | he
  · have hk : LaxStr ((keyText s).map Ch.raw) := by
      intro x hx
      obtain ⟨b, hb, rfl⟩ := List.mem_map.mp hx
      exact (hs b (mem_keyText hb)).2
    have h0 : 0 ∉ chars ((keyText s).map Ch.raw) := by
      rw [chars_raw]
      exact fun h => (hs 0 (mem_keyText h)).1 rfl
    have hneat := neat_string hk h0
    rw [he, List.append_assoc]
    refine ⟨hneat.pretties.append (Pretties.colon.append ht.pretties), starts_string _ _, ?_⟩
    simp only [List.mem_append, List.mem_singleton]
    rintro (h | h | h)
    · exact hneat.zero h
    · exact absurd h (by decide)
    · exact ht.zero h
  · rw [he]
    exact ht

theorem CleanText.elem {p i : Nat} {a : Harr} (hv : CleanText fromDouble h (.arr (some p)))
    (hp : h[p]? = some a) (hi : i < a.len) : CleanText fromDouble h (a.vals i) := by
  have hin : ∀ w, Inside h (a.vals i) w → Inside h (.arr (some p)) w := by
    intro w hw
    induction hw with
    | self => exact .elem .self hp hi
    | elem _ hq hj ih => exact .elem ih hq hj
  exact fun w hw => hv w (hin w hw)

/-- **The text of a value** -/
theorem neat_text (hg : ∀ f, percentG f ≠ [] ∧ ∀ c ∈ percentG f, isGByte c = true) (fuel : Nat) :
    ∀ v b, CleanText fromDouble h v → hbufJsonR percentG fromDouble h fuel v = some b → Neat b := by
  induction fuel with
  | zero =>
    intro v b _ hb
    cases hb
  | succ fuel ih =>
    intro v b hv hb
    cases v with
    | null =>
      obtain rfl := Option.some.inj hb
      exact neat_of_all (List.cons_ne_nil _ _) rfl
    | bool x =>
      obtain rfl := Option.some.inj hb
      cases x <;> exact neat_of_all (List.cons_ne_nil _ _) rfl
    | int i =>
      obtain rfl := Option.some.inj hb
      have hmem : ∀ c ∈ hpStrFromInt i, isGByte c = true := by
        intro c hc
        rw [← numOf_text] at hc
        simp [isGByte, (text_bytes (numOf_int64 i) c hc).1]
      obtain ⟨c, cs, he, -⟩ := num_head (numOf_int64 i)
      rw [numOf_text] at he
      refine .atoms ?_ fun c hc => atom_gByte (hmem c hc)
      rw [he]
      exact List.cons_ne_nil c cs
    | float f =>
      obtain rfl := Option.some.inj hb
      exact .atoms (hg f).1 fun c hc => atom_gByte ((hg f).2 c hc)
    | str s =>
      cases s with
      | none => cases hb
      | some s =>
        obtain rfl := Option.some.inj hb
        have h0 := (hv _ .self).1 s rfl
        have hneat := neat_string (escCh_lax s) (escCh_zero h0)
        rw [string, chars_escCh] at hneat
        exact hneat
    | arr p =>
      cases p with
      | none => cases hb
      | some p =>
        rw [hbufJsonR_arr] at hb
        obtain ⟨a, hp, hb⟩ := Option.bind_eq_some_iff.mp hb
        split at hb
        · next hm =>
          obtain ⟨t, ht, rfl⟩ := Option.map_eq_some_iff.mp hb
          refine neat_brackets (.inr ⟨rfl, rfl⟩) (fun i hi u hu => ?_) ht
          obtain ⟨w, hw, rfl⟩ := Option.map_eq_some_iff.mp hu
          exact neat_member ((hv _ .self).2 p a rfl hp hm i hi) (ih _ w (hv.elem hp hi) hw)
        · obtain ⟨t, ht, rfl⟩ := Option.map_eq_some_iff.mp hb
          exact neat_brackets (.inl ⟨rfl, rfl⟩) (fun i hi u hu => ih _ u (hv.elem hp hi) hu) ht
    | obj _ | clo _ =>
      obtain rfl := Option.some.inj hb
      exact neat_of_all (List.cons_ne_nil _ _) rfl

/-! ## both texts -/

/-- a text and what the scanner makes of it: the decoder reads the same value from them, the depth
is never negative, and at the end it is 0 -/
structure SameValue (strtod : Bytes → Double) (junk : Nat → Val) (fromDouble : Double → Bytes)
    (t u : Bytes) : Prop where
  decode : ∀ fuel h, (hpbiJsonDecode strtod junk fromDouble fuel h (.str (some u))).map
      (fun r => (r.1, r.2.1)) =
    (hpbiJsonDecode strtod junk fromDouble fuel h (.str (some t))).map fun r => (r.1, r.2.1)
  depth : ∀ z, Leads (.start t) z → 0 ≤ z.depth
  last : ∃ z, Leads (.start t) z ∧ z.next = none ∧ z.depth = 0 ∧ z.out = u

theorem Pretties.same {strtod : Bytes → Double} {junk : Nat → Val} (ht : Pretties t) :
    SameValue strtod junk fromDouble t (Indenter.run t.length (.start t)).out := by
  obtain ⟨u, hu, hs⟩ := ht 0 (Int.le_refl 0)
  have hst : Spaced t u := by simpa using hs [] [] .nil
  have hw : Walks (.start t) ⟨[], 0, false, u⟩ := by simpa [Indenter.start] using hu [] []
  have hend : Indenter.next ⟨[], 0, false, u⟩ = none := rfl
  have hrun : (Indenter.start t).run t.length = ⟨[], 0, false, u⟩ := hw.run hend (Nat.le_refl _)
  rw [hrun]
  refine ⟨fun fuel h => ?_, fun z hz => hw.depth hend (Int.le_refl 0) hz, _, ?_, hend, rfl, rfl⟩
  · exact (value_spaced strtod junk hst fuel h).symm
  · exact hw.leads

variable (strtod : Bytes → Double) (junk : Nat → Val)

/-- **Pretty printing preserves meaning**, for every value that the encoder prints. -/
theorem pretty_same (hg : ∀ f, percentG f ≠ [] ∧ ∀ c ∈ percentG f, isGByte c = true)
    (hv : CleanText fromDouble h v) {fuel : Nat} {s : Val}
    (he : hpbiJsonEncode percentG fromDouble fuel h v = some s) :
    ∃ t u, s = .str (some t) ∧
      hpbiJsonEncode2 percentG fromDouble fuel h v (.int 1) = some (.str (some u)) ∧
      SameValue strtod junk fromDouble t u := by
  obtain ⟨b, hb, rfl⟩ := Option.map_eq_some_iff.mp he
  have hneat := neat_text hg fuel v b hv hb
  have ht : b.takeWhile (· ≠ 0) = b := Substr.takeWhile_ne_iff.mpr hneat.zero
  refine ⟨b, _, by rw [ht], ?_, hneat.pretties.same⟩
  have hc : compactText percentG fromDouble fuel h v = some b := by
    rw [compactText, hb, Option.map_some, ht]
  rw [hpbiJsonEncode2, if_pos (by decide), hc]
  rfl

end

/-- `["k" => ["[,"]]` -/
def commaHeap : Heap :=
  [hpArrPush (hpArrNew blank) (.str (some [91, 44])),
    (emptyMap blank).append (.str (some [107])) (.arr (some 0))]

theorem commaHeap_clean : CleanText (fun _ => []) commaHeap (.arr (some 1)) := by
  intro w hw
  have hall : w = .arr (some 1) ∨ w = .arr (some 0) ∨ w = .str (some [91, 44]) := by
    induction hw with
    | self => exact .inl rfl
    | @elem p i a _ hp hi ih =>
      rcases ih with ih | ih | ih
      · obtain rfl : p = 1 := by simpa using ih
        obtain rfl := Option.some.inj hp
        obtain rfl : i = 0 := Nat.lt_one_iff.mp hi
        exact .inr (.inl rfl)
      · obtain rfl : p = 0 := by simpa using ih
        obtain rfl := Option.some.inj hp
        obtain rfl : i = 0 := Nat.lt_one_iff.mp hi
        exact .inr (.inr rfl)
      · cases ih
  rcases hall with rfl | rfl | rfl
  · refine ⟨fun s => (nomatch ·), fun p a hw hp _ i hi => ?_⟩
    obtain rfl : 1 = p := by simpa using hw
    obtain rfl := Option.some.inj hp
    obtain rfl : i = 0 := Nat.lt_one_iff.mp hi
    intro c hc
    obtain rfl : c = 107 := List.mem_singleton.mp hc
    decide
  · refine ⟨fun s => (nomatch ·), fun p a hw hp hm => ?_⟩
    obtain rfl : 0 = p := by simpa using hw
    obtain rfl := Option.some.inj hp
    cases hm
  · refine ⟨fun s hs => ?_, fun p a hw => by cases hw⟩
    obtain rfl : [91, 44] = s := by simpa using hs
    decide

theorem pretty_same_comma : ∃ t u,
    hpbiJsonEncode (fun _ => [48]) (fun _ => []) 3 commaHeap (.arr (some 1)) =
      some (.str (some t)) ∧
    hpbiJsonEncode2 (fun _ => [48]) (fun _ => []) 3 commaHeap (.arr (some 1)) (.int 1) =
      some (.str (some u)) ∧ SameValue (fun _ => ⟨0⟩) blank (fun _ => []) t u := by
  have hg : ∀ f : Double, (fun _ : Double => ([48] : Bytes)) f ≠ [] ∧
      ∀ c ∈ (fun _ : Double => ([48] : Bytes)) f, isGByte c = true := by
    intro f
    refine ⟨List.cons_ne_nil _ _, fun c hc => ?_⟩
    obtain rfl := List.mem_singleton.mp hc
    rfl
  obtain ⟨s, he⟩ : ∃ s, hpbiJsonEncode (fun _ => [48]) (fun _ => []) 3 commaHeap (.arr (some 1)) =
    some s := ⟨_, rfl⟩
  obtain ⟨t, u, rfl, h2, hs⟩ := pretty_same (fun _ => ⟨0⟩) blank hg commaHeap_clean he
  exact ⟨t, u, he, h2, hs⟩

end Std
end HolyPhp
