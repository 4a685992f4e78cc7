import HolyPhp.Regex.Parse

/-!
# The backtracking matcher

`c->s` and `c->len` do not change in a run: the subject `s` is an argument.  A call that fails
hands the captures on to the next branch.  The functions take fuel.

* `Cont`                     what is left to match (`Cont` of the code);
* `rxM`, `rxMSeq`, `rxMAlt`, `rxMRepAt`, `rxK`  the matcher and the continuation driver;
* `rxRun`, `rxSearch`        one offset, and the leftmost offset.
-/

namespace HolyPhp
namespace Regex
open Function

/-- `cap_s`, `cap_e`, `ngroups` and `end` -/
structure RxCtx where
  capS : Nat → Nat
  capE : Nat → Nat
  ngroups : Nat
  endPos : Nat

/-- the fields of the node that a continuation needs, not the node -/
inductive Cont where
  | done
  | seq (seq : Rx) (idx : Nat) (next : Cont)
  | rep (child : Rx) (rmin rmax : Int) (lz : Bool) (count : Nat) (next : Cont)
  | grp (gidx start : Nat) (next : Cont)

/-- more fuel is needed; an index is outside of `cap_s[32]`; a result -/
inductive Call (α : Type) where
  | out
  | fault
  | ret (a : α)

/-- the result of the matcher, and the context -/
abbrev Answer := Call (Bool × RxCtx)

/-- `if (x) return true;` and then `f` -/
def Call.orElse (x : Answer) (f : RxCtx → Answer) : Answer :=
  match x with
  | .ret (false, c) => f c
  | x => x

/-- `(int)c->len + n->rmin + 2` -/
def iterCap (len : Nat) (rmin : Int) : Int := (len + rmin + 2).bmod (2 ^ 32)

def canMore (rmax : Int) (count : Nat) : Bool := rmax < 0 || count + 1 ≤ rmax

/-- the tests of `rx_m` on the character at `pos` -/
def charTest (ch : UInt8) (ci : Bool) (x : UInt8) : Bool :=
  if ci then toLower x == toLower ch else x == ch

def anyTest (dotall : Bool) (x : UInt8) : Bool := !(!dotall && x == 10)

def clsTest (set : UInt8 → Bool) (neg : Bool) (x : UInt8) : Bool := !(set x == neg)

/-- the tests of `rx_m` on the place `pos` -/
def bolTest (s : Bytes) (multiline : Bool) (pos : Nat) : Bool :=
  pos == 0 || (multiline && s[pos - 1]? == some 10)

def eolTest (s : Bytes) (multiline : Bool) (pos : Nat) : Bool :=
  pos == s.length || (multiline && s[pos]? == some 10)

def bowTest (s : Bytes) (pos : Nat) : Bool :=
  let before := decide (0 < pos) && (s[pos - 1]?).any rxIsWord
  let after := (s[pos]?).any rxIsWord
  before != after

mutual

def rxM (s : Bytes) : Nat → Rx → Nat → RxCtx → Cont → Answer
  | 0, _, _, _, _ => .out
  | n + 1, .char ch ci, pos, c, k =>
    if (s[pos]?).any (charTest ch ci) then rxK s n k (pos + 1) c else .ret (false, c)
  | n + 1, .any dotall, pos, c, k =>
    if (s[pos]?).any (anyTest dotall) then rxK s n k (pos + 1) c else .ret (false, c)
  | n + 1, .cls set neg, pos, c, k =>
    if (s[pos]?).any (clsTest set neg) then rxK s n k (pos + 1) c else .ret (false, c)
  | n + 1, .bol multiline, pos, c, k =>
    if bolTest s multiline pos then rxK s n k pos c else .ret (false, c)
  | n + 1, .eol multiline, pos, c, k =>
    if eolTest s multiline pos then rxK s n k pos c else .ret (false, c)
  | n + 1, .bow, pos, c, k => if bowTest s pos then rxK s n k pos c else .ret (false, c)
  | n + 1, .group child gidx, pos, c, k =>
    rxMSeq s n child 0 pos c (if gidx = 0 then k else .grp gidx pos k)
  | n + 1, .seq kids, pos, c, k => rxMSeq s n (.seq kids) 0 pos c k
  | n + 1, .alt kids, pos, c, k => rxMAlt s n kids pos c k
  | n + 1, .rep child rmin rmax lz, pos, c, k => rxMRepAt s n child rmin rmax lz 0 pos c k

/-- the loop over the branches -/
def rxMAlt (s : Bytes) : Nat → List Rx → Nat → RxCtx → Cont → Answer
  | 0, _, _, _, _ => .out
  | _ + 1, [], _, c, _ => .ret (false, c)
  | n + 1, kid :: kids, pos, c, k =>
    (rxMSeq s n kid 0 pos c k).orElse fun c => rxMAlt s n kids pos c k

def rxMRepAt (s : Bytes) : Nat → Rx → Int → Int → Bool → Nat → Nat → RxCtx → Cont → Answer
  | 0, _, _, _, _, _, _, _, _ => .out
  | n + 1, child, rmin, rmax, lz, count, pos, c, k =>
    let more := fun c =>
      if canMore rmax count ∧ (count : Int) < iterCap s.length rmin then
        rxM s n child pos c (.rep child rmin rmax lz (count + 1) k)
      else .ret (false, c)
    let stop := fun c => if rmin ≤ count then rxK s n k pos c else .ret (false, c)
    if lz then (stop c).orElse more else (more c).orElse stop

def rxK (s : Bytes) : Nat → Cont → Nat → RxCtx → Answer
  | 0, _, _, _ => .out
  | _ + 1, .done, pos, c => .ret (true, { c with endPos := pos })
  | n + 1, .seq seq idx next, pos, c => rxMSeq s n seq idx pos c next
  | n + 1, .rep child rmin rmax lz count next, pos, c =>
    rxMRepAt s n child rmin rmax lz count pos c next
  | n + 1, .grp gidx start next, pos, c =>
    if gidx < 32 then
      (rxK s n next pos
        { c with capS := update c.capS gidx start, capE := update c.capE gidx pos }).orElse
        fun d => .ret (false,
          { d with capS := update d.capS gidx (c.capS gidx), capE := update d.capE gidx (c.capE gidx) })
    else .fault

def rxMSeq (s : Bytes) : Nat → Rx → Nat → Nat → RxCtx → Cont → Answer
  | 0, _, _, _, _, _ => .out
  | n + 1, seq, idx, pos, c, k =>
    match seq.kids[idx]? with
    | none => rxK s n k pos c
    | some kid => rxM s n kid pos c (.seq seq (idx + 1) k)

end

/-- `(size_t)-1` -/
def unset : Nat := 2 ^ 64 - 1

/-- `*ms`, `*me` and `*c` of a match -/
structure Found where
  ms : Nat
  me : Nat
  ctx : RxCtx

def rxRun (n : Nat) (tree : Rx) (ngroups : Nat) (s : Bytes) (off : Nat) : Call (Option Found) :=
  match rxM s n tree off ⟨fun _ => unset, fun _ => unset, ngroups, 0⟩ .done with
  | .ret (true, c) => .ret (some ⟨off, c.endPos, c⟩)
  | .ret (false, _) => .ret none
  | .out => .out
  | .fault => .fault

/-- `r` rounds of the loop, from the offset `i` on -/
def rxSearchFrom (n : Nat) (tree : Rx) (ngroups : Nat) (s : Bytes) : Nat → Nat → Call (Option Found)
  | 0, _ => .ret none
  | r + 1, i =>
    match rxRun n tree ngroups s i with
    | .ret none => rxSearchFrom n tree ngroups s r (i + 1)
    | x => x

def rxSearch (n : Nat) (tree : Rx) (ngroups : Nat) (s : Bytes) (off : Nat) : Call (Option Found) :=
  rxSearchFrom n tree ngroups s (s.length + 1 - off) off

end Regex
end HolyPhp
