import HolyPhp.Regex.Match

/-!
# The pattern builtins

The arguments are the texts that `hp_val_to_str` gives.

* `rxSplitPattern`                       delimiters, flags and the tree of a pattern;
* `rxMatchArr`                           the spans of a match;
* `rxWhile`                              the loop that `preg_match_all`, `preg_replace` and
                                         `preg_split` share; each has its own body;
* `hpbiPregMatch`, `rxAllMatches`, `hpbiPregReplace`, `hpbiPregSplit`  the builtins.
-/

set_option autoImplicit false

namespace HolyPhp
namespace Regex

/-! ## delimiters and flags -/

def isAlnum (c : UInt8) : Bool := isAlpha c || isDigit c

/-- the text that is parsed, and the flags -/
structure Body where
  text : Bytes
  ci : Bool
  dotall : Bool
  multiline : Bool
  deriving DecidableEq

/-- `delim`; 0 for none -/
def rxDelim (s : Bytes) : UInt8 :=
  let c := s.headD 0
  if 2 ≤ s.length ∧ isAlnum c = false ∧ c ≠ 92 ∧ isSpace c = false then c else 0

/-- `end`: the loop for `i` down to 2, that looks at `i - 1` -/
def rxEnd (s : Bytes) (delim : UInt8) : Nat → Nat
  | i + 2 => if s[i + 1]? = some delim then i + 1 else rxEnd s delim (i + 1)
  | _ => s.length

def rxFlag (b : Body) (c : UInt8) : Body :=
  if c = 105 then { b with ci := true }
  else if c = 115 then { b with dotall := true }
  else if c = 109 then { b with multiline := true }
  else b

def plain (text : Bytes) : Body := ⟨text, false, false, false⟩

/-- the part of `rx_split_pattern` before the parser -/
def rxBody (s : Bytes) : Body :=
  let delim := rxDelim s
  let last := rxEnd s delim s.length
  if delim ≠ 0 ∧ 2 ≤ last then
    (s.drop (last + 1)).foldl rxFlag (plain ((s.drop 1).take (last - 1)))
  else plain s

/-- the part of `rx_split_pattern` from the parser on -/
def rxCompile (b : Body) : Option (Rx × Nat) :=
  match rxParseAlt (5 * b.text.length + 3) ⟨b.text, b.ci, b.dotall, b.multiline, 0⟩ with
  | some (some (tree, rp)) => if rp.rest = [] then some (tree, rp.ngroups) else none
  | _ => none

def rxSplitPattern (pat : Bytes) : Option (Rx × Nat) := rxCompile (rxBody pat)

/-! ## results -/

deriving instance DecidableEq for Call

/-- `.ret none`: a length below 0 -/
abbrev Res (α : Type) := Call (Option α)

namespace Res
variable {α β : Type}

def ok (a : α) : Res α := .ret (some a)

def bind (x : Res α) (f : α → Res β) : Res β :=
  match x with
  | .ret (some a) => f a
  | .ret none => .ret none
  | .out => .out
  | .fault => .fault

@[simp] theorem ok_bind (a : α) (f : α → Res β) : (ok a).bind f = f a := rfl

theorem bind_ok {x : Res α} {f : α → Res β} {b : β} :
    x.bind f = ok b ↔ ∃ a, x = ok a ∧ f a = ok b := by
  constructor
  · intro h
    rcases x with - | - | o
    · cases h
    · cases h
    · cases o with
      | none => cases h
      | some a => exact ⟨a, rfl, h⟩
  · intro h
    obtain ⟨a, rfl, hf⟩ := h
    exact hf

theorem bind_congr {x : Res α} {f g : α → Res β} (h : ∀ a, x = ok a → f a = g a) :
    x.bind f = x.bind g := by
  rcases x with - | - | o
  · rfl
  · rfl
  · cases o with
    | none => rfl
    | some a => exact h a rfl

/-- a call that returns, and another behind it -/
theorem bind_ret {x : Res α} {f : α → Res β} (hx : ∃ o, x = .ret o)
    (hf : ∀ a, x = ok a → ∃ o, f a = .ret o) : ∃ o, x.bind f = .ret o := by
  obtain ⟨o, rfl⟩ := hx
  cases o with
  | none => exact ⟨none, rfl⟩
  | some a => exact hf a rfl

end Res

/-- the text from `a` on, `b - a` bytes -/
def slice (s : Bytes) (a b : Nat) : Res Bytes :=
  .ret (if a ≤ b ∧ b ≤ s.length then some ((s.drop a).take (b - a)) else none)

/-! ## the spans of a match -/

/-- the text of the group `gi`, "" where it has none -/
def rxGroup (c : RxCtx) (s : Bytes) (gi : Nat) : Res Bytes :=
  if gi < 32 then (if c.capS gi ≠ unset then slice s (c.capS gi) (c.capE gi) else .ok [])
  else .fault

/-- the loop over the groups, `r` of them from `gi` on -/
def rxGroups (c : RxCtx) (s : Bytes) (gi : Nat) : Nat → Res (List Bytes)
  | 0 => .ok []
  | r + 1 => (rxGroup c s gi).bind fun b => (rxGroups c s (gi + 1) r).bind fun bs => .ok (b :: bs)

/-- the keys are 0, 1 and so on -/
def rxMatchArr (m : Found) (s : Bytes) : Res (List Bytes) :=
  (slice s m.ms m.me).bind fun b => (rxGroups m.ctx s 1 m.ctx.ngroups).bind fun bs => .ok (b :: bs)

/-- the result, and what `*out` becomes -/
def rxFirstMatch (n : Nat) (pat subj : Bytes) : Res (Bool × List Bytes) :=
  match rxSplitPattern pat with
  | none => .ok (false, [])
  | some (tree, ng) =>
    match rxSearch n tree ng subj 0 with
    | .ret none => .ok (false, [])
    | .ret (some m) => (rxMatchArr m subj).bind fun a => .ok (true, a)
    | .out => .out
    | .fault => .fault

def hpbiPregMatch (n : Nat) (pat subj : Bytes) : Res Bool :=
  (rxFirstMatch n pat subj).bind fun r => .ok r.1

/-! ## the loops -/

section
variable {β : Type}

/-- `while (off <= x->len)`; the body gets `off` and the match, and gives the next `off` -/
def rxWhile (n : Nat) (tree : Rx) (ng : Nat) (s : Bytes) (body : Nat → Found → β → Res (Nat × β)) :
    Nat → Nat → β → Res (Nat × β)
  | 0, _, _ => .out
  | r + 1, off, b =>
    if off ≤ s.length then
      match rxSearch n tree ng s off with
      | .ret none => .ok (off, b)
      | .ret (some m) => (body off m b).bind fun x => rxWhile n tree ng s body r x.1 x.2
      | .out => .out
      | .fault => .fault
    else .ok (off, b)

end

/-- `me > ms ? me : ms + 1` -/
def nextOff (m : Found) : Nat := if m.ms < m.me then m.me else m.ms + 1

/-- `$d` or `\d`, for the digit `d` -/
def backref (s : Bytes) (ng : Nat) (m : Found) (d : UInt8) : Res Bytes :=
  let gi := d.toNat - 48
  if gi = 0 then slice s m.ms m.me
  else if gi ≤ ng then rxGroup m.ctx s gi
  else .ok []

/-- what the loop over the replacement writes -/
def expand (s : Bytes) (ng : Nat) (m : Found) : Bytes → Res Bytes
  | c :: d :: r =>
    if (c = 36 ∨ c = 92) ∧ isDigit d = true then
      (backref s ng m d).bind fun a => (expand s ng m r).bind fun b => .ok (a ++ b)
    else (expand s ng m (d :: r)).bind fun b => .ok (c :: b)
  | r => .ok r

def replaceBody (s : Bytes) (ng : Nat) (rep : Bytes) (off : Nat) (m : Found) (out : Bytes) :
    Res (Nat × Bytes) :=
  (slice s off m.ms).bind fun a => (expand s ng m rep).bind fun e => .ok (nextOff m, out ++ a ++ e)

def hpbiPregReplace (n : Nat) (pat rep subj : Bytes) : Res Bytes :=
  match rxSplitPattern pat with
  | none => .ok subj
  | some (tree, ng) =>
    (rxWhile n tree ng subj (replaceBody subj ng rep) n 0 []).bind fun x =>
      (slice subj x.1 subj.length).bind fun t => .ok (x.2 ++ t)

def splitBody (s : Bytes) (off : Nat) (m : Found) (parts : List Bytes) : Res (Nat × List Bytes) :=
  if m.me = m.ms then .ok (m.ms + 1, parts)
  else (slice s off m.ms).bind fun a => .ok (m.me, parts ++ [a])

def hpbiPregSplit (n : Nat) (pat subj : Bytes) : Res (List Bytes) :=
  match rxSplitPattern pat with
  | none => .ok [subj]
  | some (tree, ng) =>
    (rxWhile n tree ng subj (splitBody subj) n 0 []).bind fun x =>
      (slice subj x.1 subj.length).bind fun t => .ok (x.2 ++ [t])

end Regex
end HolyPhp
