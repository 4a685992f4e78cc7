import HolyPhp.Lib.Power
import HolyPhp.Runtime.Value

/-!
# Patterns: the tree and its language

* `Rx`           the nodes of the pattern tree, with the flags that the matcher reads;
* `Rx.Lang s n`  the spans of the subject `s` that a tree matches, as pairs of offsets;
* `Rx.Wf g n`    what the parser builds: branches and group bodies are sequences, and the groups
                 are numbered up to `g`;
* `Rx.Fits len n`  the bounds of the repetitions fit an `int`, with the subject's length.
-/

namespace HolyPhp
namespace Regex
open Relation

/-! ## characters, in the "C" locale -/

def isUpper (c : UInt8) : Bool := 65 ≤ c && c ≤ 90

def isLower (c : UInt8) : Bool := 97 ≤ c && c ≤ 122

def isAlpha (c : UInt8) : Bool := isUpper c || isLower c

def toLower (c : UInt8) : UInt8 := if isUpper c then c + 32 else c

def toUpper (c : UInt8) : UInt8 := if isLower c then c - 32 else c

/-- letters, digits and `_` -/
def rxIsWord (c : UInt8) : Bool := isAlpha c || isDigit c || c == 95

/-! ## the tree -/

/-- the bitmap of a class is the set of its characters; `rmax` is -1 when unbounded -/
inductive Rx where
  | char (ch : UInt8) (ci : Bool)
  | any (dotall : Bool)
  | cls (set : UInt8 → Bool) (neg : Bool)
  | bol (multiline : Bool)
  | eol (multiline : Bool)
  | bow
  | seq (kids : List Rx)
  | alt (kids : List Rx)
  | rep (child : Rx) (rmin rmax : Int) (lz : Bool)
  | group (child : Rx) (gidx : Nat)

/-- `kids`; a node of another kind has none -/
def Rx.kids : Rx → List Rx
  | .seq kids | .alt kids => kids
  | _ => []

/-- `rx_set_add` -/
def rxSetAdd (set : UInt8 → Bool) (c : UInt8) (ci : Bool) : UInt8 → Bool := fun d =>
  set d || d == c || (ci && isAlpha c && d == if isUpper c then toLower c else toUpper c)

/-! ## the language -/

/-- there is a character at `p`, and it is in the set -/
def At (s : Bytes) (p : Nat) (P : UInt8 → Prop) : Prop := ∃ c, s[p]? = some c ∧ P c

/-- the span of one character of the set -/
def One (s : Bytes) (P : UInt8 → Prop) (p q : Nat) : Prop := At s p P ∧ q = p + 1

/-- the empty span, where `P` holds -/
def Here (P : Nat → Prop) (p q : Nat) : Prop := P p ∧ q = p

/-- the start of the subject, or of a line -/
def AtBol (s : Bytes) (multiline : Bool) (p : Nat) : Prop :=
  p = 0 ∨ (multiline = true ∧ At s (p - 1) (· = 10))

/-- the end of the subject, or of a line -/
def AtEol (s : Bytes) (multiline : Bool) (p : Nat) : Prop :=
  p = s.length ∨ (multiline = true ∧ At s p (· = 10))

/-- between a word character and something else -/
def AtBow (s : Bytes) (p : Nat) : Prop :=
  ¬ ((0 < p ∧ At s (p - 1) (rxIsWord · = true)) ↔ At s p (rxIsWord · = true))

mutual

def Rx.Lang (s : Bytes) : Rx → Nat → Nat → Prop
  | .char ch ci => One s fun c => c = ch ∨ (ci = true ∧ toLower c = toLower ch)
  | .any dotall => One s fun c => dotall = true ∨ c ≠ 10
  | .cls set neg => One s fun c => set c = true ↔ neg = false
  | .bol multiline => Here (AtBol s multiline)
  | .eol multiline => Here (AtEol s multiline)
  | .bow => Here (AtBow s)
  | .seq kids => LangSeq s kids
  | .alt kids => LangAlt s kids
  | .rep child rmin rmax _ => fun p q =>
    ∃ m : Nat, rmin ≤ m ∧ (rmax < 0 ∨ (m : Int) ≤ rmax) ∧ Power (child.Lang s) m p q
  | .group child _ => child.Lang s

def LangSeq (s : Bytes) : List Rx → Nat → Nat → Prop
  | [] => Eq
  | k :: ks => Comp (k.Lang s) (LangSeq s ks)

def LangAlt (s : Bytes) : List Rx → Nat → Nat → Prop
  | [] => fun _ _ => False
  | k :: ks => fun p q => k.Lang s p q ∨ LangAlt s ks p q

end

/-! ## what the parser builds -/

inductive Rx.Wf (g : Nat) : Rx → Prop
  | char (ch : UInt8) (ci : Bool) : Wf g (.char ch ci)
  | any (dotall : Bool) : Wf g (.any dotall)
  | cls (set : UInt8 → Bool) (neg : Bool) : Wf g (.cls set neg)
  | bol (multiline : Bool) : Wf g (.bol multiline)
  | eol (multiline : Bool) : Wf g (.eol multiline)
  | bow : Wf g .bow
  | seq {kids : List Rx} : (∀ k ∈ kids, Wf g k) → Wf g (.seq kids)
  | alt {kids : List Rx} : (∀ k ∈ kids, ∃ ks, k = .seq ks) → (∀ k ∈ kids, Wf g k) →
      Wf g (.alt kids)
  | rep {child : Rx} {rmin rmax : Int} {lz : Bool} : 0 ≤ rmin → Wf g child →
      Wf g (.rep child rmin rmax lz)
  | group {kids : List Rx} {gidx : Nat} : gidx ≤ g → Wf g (.seq kids) →
      Wf g (.group (.seq kids) gidx)

theorem Rx.Wf.mono {g g' : Nat} {n : Rx} (h : n.Wf g) (hg : g ≤ g') : n.Wf g' := by
  induction h with
  | char | any | cls | bol | eol | bow => constructor
  | seq _ ih => exact .seq ih
  | alt hs _ ih => exact .alt hs ih
  | rep h0 _ ih => exact .rep h0 ih
  | group hle _ ih => exact .group (Nat.le_trans hle hg) ih

def intMax : Int := 2 ^ 31 - 1

/-- no bound overflows, and `len + rmin + 2` does not -/
inductive Rx.Fits (len : Nat) : Rx → Prop
  | char (ch : UInt8) (ci : Bool) : Fits len (.char ch ci)
  | any (dotall : Bool) : Fits len (.any dotall)
  | cls (set : UInt8 → Bool) (neg : Bool) : Fits len (.cls set neg)
  | bol (multiline : Bool) : Fits len (.bol multiline)
  | eol (multiline : Bool) : Fits len (.eol multiline)
  | bow : Fits len .bow
  | seq {kids : List Rx} : (∀ k ∈ kids, Fits len k) → Fits len (.seq kids)
  | alt {kids : List Rx} : (∀ k ∈ kids, Fits len k) → Fits len (.alt kids)
  | rep {child : Rx} {rmin rmax : Int} {lz : Bool} : rmax ≤ intMax →
      (len : Int) + rmin + 2 ≤ intMax → Fits len child → Fits len (.rep child rmin rmax lz)
  | group {child : Rx} {gidx : Nat} : Fits len child → Fits len (.group child gidx)

/-! ## spans -/

section
variable {s : Bytes} {n : Rx} {p q : Nat}

theorem At.lt {P : UInt8 → Prop} (h : At s p P) : p < s.length := by
  obtain ⟨c, hc, -⟩ := h
  exact (List.getElem?_eq_some_iff.mp hc).1

/-- a span goes forward, within the subject -/
def Span (s : Bytes) (p q : Nat) : Prop := p ≤ q ∧ (p ≤ s.length → q ≤ s.length)

theorem Span.refl (s : Bytes) (p : Nat) : Span s p p := ⟨Nat.le_refl p, id⟩

theorem Span.trans {r : Nat} (h : Span s p q) (h' : Span s q r) : Span s p r :=
  ⟨Nat.le_trans h.1 h'.1, fun hp => h'.2 (h.2 hp)⟩

theorem One.span {P : UInt8 → Prop} (h : One s P p q) : Span s p q := by
  obtain ⟨hP, rfl⟩ := h
  exact ⟨Nat.le_succ p, fun _ => hP.lt⟩

theorem Here.span {P : Nat → Prop} (h : Here P p q) : Span s p q := by
  obtain ⟨-, rfl⟩ := h
  exact .refl s q

theorem langSeq_span {ks : List Rx} (ih : ∀ k ∈ ks, ∀ p q, k.Lang s p q → Span s p q)
    (h : LangSeq s ks p q) : Span s p q := by
  induction ks generalizing p with
  | nil =>
    have h : p = q := h
    exact h ▸ .refl s p
  | cons k ks ihs =>
    obtain ⟨r, hk, hks⟩ := h
    exact (ih k (List.mem_cons_self ..) p r hk).trans
      (ihs (fun k hk => ih k (List.mem_cons_of_mem _ hk)) hks)

theorem langAlt_iff {ks : List Rx} : LangAlt s ks p q ↔ ∃ k ∈ ks, k.Lang s p q := by
  induction ks with
  | nil => simp [LangAlt]
  | cons k ks ih => simp [LangAlt, ih]

theorem Rx.Wf.span {g : Nat} (hw : n.Wf g) (h : n.Lang s p q) : Span s p q := by
  induction hw generalizing p q with
  | char | any | cls => exact One.span h
  | bol | eol | bow => exact Here.span h
  | seq _ ih => exact langSeq_span (fun k hk p q => ih k hk) h
  | alt _ _ ih =>
    obtain ⟨k, hk, h⟩ := langAlt_iff.mp h
    exact ih k hk h
  | rep _ _ ih =>
    obtain ⟨m, -, -, hm⟩ := h
    exact hm.inv (Span.refl s) fun p r q h h' => (ih h).trans h'
  | group _ _ ih => exact ih h

end

end Regex
end HolyPhp
