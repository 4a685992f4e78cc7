import HolyPhp.Regex.Syntax

/-!
# The pattern parser

The parser's place in the pattern is the text that is left.  The functions take fuel: `none` asks
for more, `some none` is a pattern that is not accepted (`rp->err`).

* `rxParseAtom`, `rxParseRep`, `rxParseSeq`, `rxParseAlt`  the four levels of the grammar;
* `rxClass`, `rxEscape`, `rxQuant`                         their parts that do not call back;
* `parseAlt_wf`, `parseAlt_returns`  what is accepted is well formed, and the parser returns.
-/

namespace HolyPhp
namespace Regex

structure RxParser where
  /-- `src` from `pos` on -/
  rest : Bytes
  ci : Bool
  dotall : Bool
  multiline : Bool
  ngroups : Nat

def rxPeek (rp : RxParser) : UInt8 := rp.rest.headD 0

def RxParser.skip (rp : RxParser) : RxParser := { rp with rest := rp.rest.tail }

abbrev Parse (α : Type) := Option (Option (α × RxParser))

namespace Parse
variable {α β : Type}

def ret (a : α) (rp : RxParser) : Parse α := some (some (a, rp))

/-- `rx_fail` -/
def fail : Parse α := some none

def andThen (x : Parse α) (f : α → RxParser → Parse β) : Parse β :=
  match x with
  | none => none
  | some none => fail
  | some (some (a, rp)) => f a rp

theorem andThen_ret {x : Parse α} {f : α → RxParser → Parse β} {b : β} {rp : RxParser} :
    x.andThen f = ret b rp ↔ ∃ a rp', x = ret a rp' ∧ f a rp' = ret b rp := by
  constructor
  · intro h
    rcases x with - | - | ⟨a, rp'⟩
    · cases h
    · cases h
    · exact ⟨a, rp', rfl, h⟩
  · intro h
    obtain ⟨a, rp', hx, hf⟩ := h
    rw [hx]
    exact hf

theorem andThen_isSome {x : Parse α} {f : α → RxParser → Parse β} (hx : x.isSome = true)
    (hf : ∀ a rp, x = ret a rp → (f a rp).isSome = true) : (x.andThen f).isSome = true := by
  rcases x with - | - | ⟨a, rp⟩
  · cases hx
  · rfl
  · exact hf a rp rfl

theorem ret_inj {a b : α} {rp rp' : RxParser} (h : ret a rp = ret b rp') : a = b ∧ rp = rp' := by
  cases h
  exact ⟨rfl, rfl⟩

end Parse

/-! ## classes and escapes -/

/-- the characters of `\d`, `\w`, `\s`, and of their upper-case complements -/
def rxEscapeClass (c : UInt8) : Option (UInt8 → Bool) :=
  let l := toLower c
  let which : Option (UInt8 → Bool) :=
    if l = 100 then some isDigit else if l = 119 then some rxIsWord
    else if l = 115 then some isSpace else none
  which.map fun f x => f x == !isUpper c

/-- `rx_set_add` of every character with `f`, in order -/
def rxSetAddAll (set : UInt8 → Bool) (f : UInt8 → Bool) (ci : Bool) : UInt8 → Bool :=
  (List.range 256).foldl (fun set i =>
    if f (UInt8.ofNat i) then rxSetAdd set (UInt8.ofNat i) ci else set) set

/-- one item of a class -/
def rxClassItem (ci : Bool) (rest : Bytes) (set : UInt8 → Bool) : Bytes × (UInt8 → Bool) :=
  let c := rest.headD 0
  let e := rest.tail.headD 0
  match (if c = 92 then rxEscapeClass e else none) with
  | some f => (rest.tail.tail, rxSetAddAll set f ci)
  | none =>
    let lo := if c = 92 then e else c
    let rest := if c = 92 then rest.tail.tail else rest.tail
    -- `-` is a range unless it is the last character before `]` or the end
    if rest.headD 0 = 45 ∧ rest.tail ≠ [] ∧ rest.tail.headD 0 ≠ 93 then
      let hi := rest.tail.headD 0
      let rest := rest.tail.tail
      let last := if hi = 92 then rest.headD 0 else hi
      (if hi = 92 then rest.tail else rest, rxSetAddAll set (fun x => lo ≤ x && x ≤ last) ci)
    else (rest, rxSetAdd set lo ci)

/-- the items of a class up to `]`; every round takes a character -/
def rxClassItems (ci : Bool) : Nat → Bool → Bytes → (UInt8 → Bool) → Bytes × (UInt8 → Bool)
  | 0, _, rest, set => (rest, set)
  | n + 1, first, rest, set =>
    if rest = [] ∨ (rest.headD 0 = 93 ∧ first = false) then (rest, set)
    else
      let r := rxClassItem ci rest set
      rxClassItems ci n false r.1 r.2

/-- the items of a class and `]` -/
def rxClassBody (neg : Bool) (rp : RxParser) : Parse Rx :=
  let r := rxClassItems rp.ci rp.rest.length true rp.rest fun _ => false
  let rp := { rp with rest := r.1 }
  if rxPeek rp = 93 then .ret (.cls r.2 neg) rp.skip else .fail

/-- after `[` -/
def rxClass (rp : RxParser) : Parse Rx :=
  if rxPeek rp = 94 then rxClassBody true rp.skip else rxClassBody false rp

/-- after a backslash -/
def rxEscape (rp : RxParser) : Parse Rx :=
  let e := rxPeek rp
  let rp := rp.skip
  match rxEscapeClass e with
  | some f => .ret (.cls (rxSetAddAll (fun _ => false) f rp.ci) false) rp
  | none => match e with
    | 98 => .ret .bow rp
    | 110 => .ret (.char 10 rp.ci) rp
    | 116 => .ret (.char 9 rp.ci) rp
    | 114 => .ret (.char 13 rp.ci) rp
    | 48 => .ret (.char 0 rp.ci) rp
    | e => .ret (.char e rp.ci) rp

/-! ## quantifiers -/

/-- the digits at the front, as a number -/
def rxDigits (rp : RxParser) : Int × RxParser :=
  (leadingNat 0 rp.rest, { rp with rest := rp.rest.dropWhile isDigit })

/-- after `{` and `m`: nothing, `,` or `,n` -/
def rxUpper (mn : Int) (rp : RxParser) : Int × RxParser :=
  if rxPeek rp = 44 then
    if isDigit (rxPeek rp.skip) then rxDigits rp.skip else (-1, rp.skip)
  else (mn, rp)

/-- after `{` -/
def rxBounds (rp : RxParser) : Parse (Int × Int) :=
  let mn := rxDigits rp
  let mx := rxUpper mn.1 mn.2
  if rxPeek mx.2 = 125 then .ret (mn.1, mx.1) mx.2.skip else .fail

/-- the bounds of the quantifier after an atom, if there is one -/
def rxQuant (rp : RxParser) : Parse (Option (Int × Int)) :=
  match rxPeek rp with
  | 42 => .ret (some (0, -1)) rp.skip
  | 43 => .ret (some (1, -1)) rp.skip
  | 63 => .ret (some (0, 1)) rp.skip
  | 123 => (rxBounds rp.skip).andThen fun b rp => .ret (some b) rp
  | _ => .ret none rp

/-- the part of `rx_parse_rep` after the atom -/
def rxRep (atom : Rx) (rp : RxParser) : Parse Rx :=
  (rxQuant rp).andThen fun q rp => match q with
    | none => .ret atom rp
    | some (rmin, rmax) =>
      let lz := rxPeek rp == 63
      .ret (.rep atom rmin rmax lz) (if lz then rp.skip else rp)

/-- `(` or `(?:`, and the number of the group -/
def rxOpen (rp : RxParser) : Parse Nat :=
  if rxPeek rp = 63 then
    if rxPeek rp.skip = 58 then .ret 0 rp.skip.skip else .fail
  else .ret (rp.ngroups + 1) { rp with ngroups := rp.ngroups + 1 }

/-! ## the grammar -/

mutual

def rxParseAtom : Nat → RxParser → Parse Rx
  | 0, _ => none
  | n + 1, rp =>
    let c := rxPeek rp
    let rp := rp.skip
    match c with
    | 40 => (rxOpen rp).andThen fun gidx rp => (rxParseAlt n rp).andThen fun inner rp =>
      if rxPeek rp = 41 then .ret (.group (.seq [inner]) gidx) rp.skip else .fail
    | 91 => rxClass rp
    | 46 => .ret (.any rp.dotall) rp
    | 94 => .ret (.bol rp.multiline) rp
    | 36 => .ret (.eol rp.multiline) rp
    | 92 => rxEscape rp
    | 42 | 43 | 63 => .fail
    | c => .ret (.char c rp.ci) rp

def rxParseRep : Nat → RxParser → Parse Rx
  | 0, _ => none
  | n + 1, rp => (rxParseAtom n rp).andThen rxRep

/-- the items of a sequence up to `|`, `)` or the end -/
def rxParseItems : Nat → RxParser → Parse (List Rx)
  | 0, _ => none
  | n + 1, rp =>
    if rp.rest = [] ∨ rxPeek rp = 124 ∨ rxPeek rp = 41 then .ret [] rp
    else (rxParseRep n rp).andThen fun item rp =>
      (rxParseItems n rp).andThen fun items rp => .ret (item :: items) rp

def rxParseSeq : Nat → RxParser → Parse Rx
  | 0, _ => none
  | n + 1, rp => (rxParseItems n rp).andThen fun items rp => .ret (.seq items) rp

/-- the branches that `|` adds -/
def rxParseBranches : Nat → RxParser → Parse (List Rx)
  | 0, _ => none
  | n + 1, rp =>
    if rxPeek rp = 124 then
      (rxParseSeq n rp.skip).andThen fun b rp =>
        (rxParseBranches n rp).andThen fun bs rp => .ret (b :: bs) rp
    else .ret [] rp

def rxParseAlt : Nat → RxParser → Parse Rx
  | 0, _ => none
  | n + 1, rp => (rxParseSeq n rp).andThen fun first rp =>
    if rxPeek rp = 124 then
      (rxParseBranches n rp).andThen fun bs rp => .ret (.alt (first :: bs)) rp
    else .ret first rp

end

/-! ## the parser goes ahead -/

structure Ahead (rp rp' : RxParser) : Prop where
  rest : rp'.rest.length ≤ rp.rest.length
  groups : rp.ngroups ≤ rp'.ngroups

section
variable {rp rp' : RxParser} {a : Rx} {g n : Nat}

theorem Ahead.refl (rp : RxParser) : Ahead rp rp := ⟨Nat.le_refl _, Nat.le_refl _⟩

theorem Ahead.trans {rq : RxParser} (h : Ahead rp rq) (h' : Ahead rq rp') : Ahead rp rp' :=
  ⟨Nat.le_trans h'.rest h.rest, Nat.le_trans h.groups h'.groups⟩

theorem ahead_skip (rp : RxParser) : Ahead rp rp.skip :=
  ⟨by rw [RxParser.skip, List.length_tail]; exact Nat.sub_le .., Nat.le_refl _⟩

theorem ahead_rest {rest : Bytes} (h : rest.length ≤ rp.rest.length) :
    Ahead rp { rp with rest := rest } := ⟨h, Nat.le_refl _⟩

theorem classItem_rest (ci : Bool) (rest : Bytes) (set : UInt8 → Bool) :
    (rxClassItem ci rest set).1.length ≤ rest.length - 1 := by
  unfold rxClassItem
  dsimp only
  split
  · simp only [List.length_tail]
    omega
  · split
    all_goals
      split_ifs <;> simp only [List.length_tail] <;> omega

theorem classItems_rest (ci : Bool) (n : Nat) (first : Bool) (rest : Bytes) (set : UInt8 → Bool) :
    (rxClassItems ci n first rest set).1.length ≤ rest.length := by
  induction n generalizing first rest set with
  | zero => exact Nat.le_refl _
  | succ n ih =>
    rw [rxClassItems]
    split
    · exact Nat.le_refl _
    · have := classItem_rest ci rest set
      exact Nat.le_trans (ih ..) (by omega)

theorem classBody_spec {neg : Bool} (h : rxClassBody neg rp = .ret a rp') :
    Ahead rp rp' ∧ a.Wf g := by
  unfold rxClassBody at h
  dsimp only at h
  split at h
  · obtain ⟨rfl, rfl⟩ := Parse.ret_inj h
    exact ⟨(ahead_rest (classItems_rest ..)).trans (ahead_skip _), .cls ..⟩
  · cases h

theorem class_spec (h : rxClass rp = .ret a rp') : Ahead rp rp' ∧ a.Wf g := by
  unfold rxClass at h
  split at h
  · obtain ⟨ha, hw⟩ := classBody_spec h
    exact ⟨(ahead_skip rp).trans ha, hw⟩
  · exact classBody_spec h

theorem escape_spec (h : rxEscape rp = .ret a rp') : Ahead rp rp' ∧ a.Wf g := by
  unfold rxEscape at h
  dsimp only at h
  split at h
  · obtain ⟨rfl, rfl⟩ := Parse.ret_inj h
    exact ⟨ahead_skip rp, .cls ..⟩
  · split at h
    · obtain ⟨rfl, rfl⟩ := Parse.ret_inj h
      exact ⟨ahead_skip rp, .bow⟩
    all_goals
      obtain ⟨rfl, rfl⟩ := Parse.ret_inj h
      exact ⟨ahead_skip rp, .char ..⟩

theorem open_spec (h : rxOpen rp = .ret n rp') : Ahead rp rp' ∧ n ≤ rp'.ngroups := by
  unfold rxOpen at h
  split at h
  · split at h
    · obtain ⟨rfl, rfl⟩ := Parse.ret_inj h
      exact ⟨(ahead_skip rp).trans (ahead_skip _), Nat.zero_le _⟩
    · cases h
  · obtain ⟨rfl, rfl⟩ := Parse.ret_inj h
    exact ⟨⟨Nat.le_refl _, Nat.le_succ _⟩, Nat.le_refl _⟩

theorem ahead_digits (rp : RxParser) : Ahead rp (rxDigits rp).2 :=
  ahead_rest (List.dropWhile_sublist _).length_le

theorem ahead_upper (mn : Int) (rp : RxParser) : Ahead rp (rxUpper mn rp).2 := by
  unfold rxUpper
  split
  · split
    · exact (ahead_skip rp).trans (ahead_digits _)
    · exact ahead_skip rp
  · exact .refl rp

theorem bounds_spec {b : Int × Int} (h : rxBounds rp = .ret b rp') : Ahead rp rp' ∧ 0 ≤ b.1 := by
  unfold rxBounds at h
  dsimp only at h
  split at h
  · obtain ⟨rfl, rfl⟩ := Parse.ret_inj h
    exact ⟨((ahead_digits rp).trans (ahead_upper _ _)).trans (ahead_skip _), Int.natCast_nonneg _⟩
  · cases h

theorem quant_spec {q : Option (Int × Int)} (h : rxQuant rp = .ret q rp') :
    Ahead rp rp' ∧ ∀ b, q = some b → 0 ≤ b.1 := by
  unfold rxQuant at h
  split at h
  · obtain ⟨rfl, rfl⟩ := Parse.ret_inj h
    exact ⟨ahead_skip rp, fun b hb => by cases hb; decide⟩
  · obtain ⟨rfl, rfl⟩ := Parse.ret_inj h
    exact ⟨ahead_skip rp, fun b hb => by cases hb; decide⟩
  · obtain ⟨rfl, rfl⟩ := Parse.ret_inj h
    exact ⟨ahead_skip rp, fun b hb => by cases hb; decide⟩
  · obtain ⟨b, rq, hb, h⟩ := Parse.andThen_ret.mp h
    obtain ⟨rfl, rfl⟩ := Parse.ret_inj h
    obtain ⟨ha, h0⟩ := bounds_spec hb
    exact ⟨(ahead_skip rp).trans ha, fun b' hb' => by cases hb'; exact h0⟩
  · obtain ⟨rfl, rfl⟩ := Parse.ret_inj h
    exact ⟨.refl rp, fun b hb => by cases hb⟩

theorem rep_spec {atom : Rx} (h : rxRep atom rp = .ret a rp') (hw : atom.Wf rp.ngroups) :
    Ahead rp rp' ∧ a.Wf rp'.ngroups := by
  obtain ⟨q, rq, hq, h⟩ := Parse.andThen_ret.mp h
  obtain ⟨ha, h0⟩ := quant_spec hq
  split at h
  · obtain ⟨rfl, rfl⟩ := Parse.ret_inj h
    exact ⟨ha, hw.mono ha.groups⟩
  · obtain ⟨rfl, rfl⟩ := Parse.ret_inj h
    have hs : Ahead rq (if (rxPeek rq == 63) = true then rq.skip else rq) := by
      split
      · exact ahead_skip rq
      · exact .refl rq
    exact ⟨ha.trans hs, .rep (h0 _ rfl) (hw.mono (ha.trans hs).groups)⟩

/-! ## what is accepted is well formed -/

/-- what the functions with `n` fuel return -/
structure Parses (n : Nat) : Prop where
  atom : ∀ {rp a rp'}, rxParseAtom n rp = .ret a rp' → Ahead rp.skip rp' ∧ a.Wf rp'.ngroups
  rep : ∀ {rp a rp'}, rxParseRep n rp = .ret a rp' → Ahead rp.skip rp' ∧ a.Wf rp'.ngroups
  items : ∀ {rp ks rp'}, rxParseItems n rp = .ret ks rp' →
    Ahead rp rp' ∧ ∀ k ∈ ks, k.Wf rp'.ngroups
  seq : ∀ {rp a rp'}, rxParseSeq n rp = .ret a rp' →
    Ahead rp rp' ∧ (∃ ks, a = .seq ks) ∧ a.Wf rp'.ngroups
  branches : ∀ {rp ks rp'}, rxParseBranches n rp = .ret ks rp' →
    Ahead rp rp' ∧ (∀ k ∈ ks, ∃ ks, k = .seq ks) ∧ ∀ k ∈ ks, k.Wf rp'.ngroups
  alt : ∀ {rp a rp'}, rxParseAlt n rp = .ret a rp' → Ahead rp rp' ∧ a.Wf rp'.ngroups

namespace Parses

theorem atom_succ (h : Parses n) (hr : rxParseAtom (n + 1) rp = .ret a rp') :
    Ahead rp.skip rp' ∧ a.Wf rp'.ngroups := by
  rw [rxParseAtom] at hr
  split at hr
  · obtain ⟨gidx, rq, ho, hr⟩ := Parse.andThen_ret.mp hr
    obtain ⟨inner, rt, hi, hr⟩ := Parse.andThen_ret.mp hr
    obtain ⟨hao, hg⟩ := open_spec ho
    obtain ⟨hai, hw⟩ := h.alt hi
    split at hr
    · obtain ⟨rfl, rfl⟩ := Parse.ret_inj hr
      refine ⟨(hao.trans hai).trans (ahead_skip rt), .group (Nat.le_trans hg hai.groups) (.seq ?_)⟩
      intro k hk
      rw [List.mem_singleton.mp hk]
      exact hw
    · cases hr
  · exact class_spec hr
  · obtain ⟨rfl, rfl⟩ := Parse.ret_inj hr
    exact ⟨.refl _, .any ..⟩
  · obtain ⟨rfl, rfl⟩ := Parse.ret_inj hr
    exact ⟨.refl _, .bol ..⟩
  · obtain ⟨rfl, rfl⟩ := Parse.ret_inj hr
    exact ⟨.refl _, .eol ..⟩
  · exact escape_spec hr
  · cases hr
  · cases hr
  · cases hr
  · obtain ⟨rfl, rfl⟩ := Parse.ret_inj hr
    exact ⟨.refl _, .char ..⟩

theorem items_succ {ks : List Rx} (h : Parses n) (hr : rxParseItems (n + 1) rp = .ret ks rp') :
    Ahead rp rp' ∧ ∀ k ∈ ks, k.Wf rp'.ngroups := by
  rw [rxParseItems] at hr
  split at hr
  · obtain ⟨rfl, rfl⟩ := Parse.ret_inj hr
    exact ⟨.refl rp, fun k hk => absurd hk List.not_mem_nil⟩
  · obtain ⟨item, rq, hi, hr⟩ := Parse.andThen_ret.mp hr
    obtain ⟨items, rt, hs, hr⟩ := Parse.andThen_ret.mp hr
    obtain ⟨rfl, rfl⟩ := Parse.ret_inj hr
    obtain ⟨hai, hw⟩ := h.rep hi
    obtain ⟨has, hws⟩ := h.items hs
    refine ⟨((ahead_skip rp).trans hai).trans has, fun k hk => ?_⟩
    rcases List.mem_cons.mp hk with rfl | hk
    · exact hw.mono has.groups
    · exact hws k hk

theorem branches_succ {ks : List Rx} (h : Parses n)
    (hr : rxParseBranches (n + 1) rp = .ret ks rp') :
    Ahead rp rp' ∧ (∀ k ∈ ks, ∃ ks, k = .seq ks) ∧ ∀ k ∈ ks, k.Wf rp'.ngroups := by
  rw [rxParseBranches] at hr
  split at hr
  · obtain ⟨b, rq, hb, hr⟩ := Parse.andThen_ret.mp hr
    obtain ⟨bs, rt, hs, hr⟩ := Parse.andThen_ret.mp hr
    obtain ⟨rfl, rfl⟩ := Parse.ret_inj hr
    obtain ⟨hab, hbs, hw⟩ := h.seq hb
    obtain ⟨has, hseq, hws⟩ := h.branches hs
    refine ⟨((ahead_skip rp).trans hab).trans has, fun k hk => ?_, fun k hk => ?_⟩
    · rcases List.mem_cons.mp hk with rfl | hk
      · exact hbs
      · exact hseq k hk
    · rcases List.mem_cons.mp hk with rfl | hk
      · exact hw.mono has.groups
      · exact hws k hk
  · obtain ⟨rfl, rfl⟩ := Parse.ret_inj hr
    exact ⟨.refl rp, fun k hk => absurd hk List.not_mem_nil, fun k hk => absurd hk List.not_mem_nil⟩

theorem alt_succ (h : Parses n) (hr : rxParseAlt (n + 1) rp = .ret a rp') :
    Ahead rp rp' ∧ a.Wf rp'.ngroups := by
  rw [rxParseAlt] at hr
  obtain ⟨first, rq, hf, hr⟩ := Parse.andThen_ret.mp hr
  obtain ⟨haf, hfs, hw⟩ := h.seq hf
  split at hr
  · obtain ⟨bs, rt, hs, hr⟩ := Parse.andThen_ret.mp hr
    obtain ⟨rfl, rfl⟩ := Parse.ret_inj hr
    obtain ⟨has, hseq, hws⟩ := h.branches hs
    refine ⟨haf.trans has, .alt (fun k hk => ?_) fun k hk => ?_⟩
    · rcases List.mem_cons.mp hk with rfl | hk
      · exact hfs
      · exact hseq k hk
    · rcases List.mem_cons.mp hk with rfl | hk
      · exact hw.mono has.groups
      · exact hws k hk
  · obtain ⟨rfl, rfl⟩ := Parse.ret_inj hr
    exact ⟨haf, hw⟩

end Parses

theorem parses (n : Nat) : Parses n := by
  induction n with
  | zero =>
    refine ⟨?_, ?_, ?_, ?_, ?_, ?_⟩ <;> intro rp a rp' h <;> cases h
  | succ n ih =>
    refine ⟨ih.atom_succ, ?_, ih.items_succ, ?_, ih.branches_succ, ih.alt_succ⟩
    · intro rp a rp' hr
      obtain ⟨atom, rq, ha, hr⟩ := Parse.andThen_ret.mp hr
      obtain ⟨haa, hw⟩ := ih.atom ha
      obtain ⟨har, hw'⟩ := rep_spec hr hw
      exact ⟨haa.trans har, hw'⟩
    · intro rp a rp' hr
      obtain ⟨items, rq, hi, hr⟩ := Parse.andThen_ret.mp hr
      obtain ⟨rfl, rfl⟩ := Parse.ret_inj hr
      obtain ⟨hai, hw⟩ := ih.items hi
      exact ⟨hai, ⟨items, rfl⟩, .seq hw⟩

/-- **What is accepted is well formed.** -/
theorem parseAlt_wf (h : rxParseAlt n rp = .ret a rp') : a.Wf rp'.ngroups := ((parses n).alt h).2

/-! ## the parser returns -/

theorem class_isSome (rp : RxParser) : (rxClass rp).isSome = true := by
  unfold rxClass rxClassBody
  dsimp only
  split <;> split <;> rfl

theorem escape_isSome (rp : RxParser) : (rxEscape rp).isSome = true := by
  unfold rxEscape
  dsimp only
  split
  · rfl
  · split <;> rfl

theorem open_isSome (rp : RxParser) : (rxOpen rp).isSome = true := by
  unfold rxOpen
  split
  · split <;> rfl
  · rfl

theorem quant_isSome (rp : RxParser) : (rxQuant rp).isSome = true := by
  unfold rxQuant
  split
  · rfl
  · rfl
  · rfl
  · refine Parse.andThen_isSome ?_ fun b rp _ => rfl
    unfold rxBounds
    dsimp only
    split <;> rfl
  · rfl

theorem rep_isSome (atom : Rx) (rp : RxParser) : (rxRep atom rp).isSome = true := by
  apply Parse.andThen_isSome (quant_isSome rp)
  intro q rp _
  cases q <;> rfl

theorem skip_lt (h : rp.rest ≠ []) : rp.skip.rest.length < rp.rest.length := by
  have := List.length_pos_iff.mpr h
  rw [RxParser.skip, List.length_tail]
  omega

theorem rest_ne_of_peek (h : rxPeek rp ≠ 0) : rp.rest ≠ [] := by
  intro h0
  rw [rxPeek, h0] at h
  exact h rfl

/-- fuel for the text that is left -/
structure Returns (n : Nat) : Prop where
  atom : ∀ rp, rp.rest ≠ [] → 5 * rp.rest.length ≤ n + 1 → (rxParseAtom n rp).isSome = true
  rep : ∀ rp, rp.rest ≠ [] → 5 * rp.rest.length ≤ n → (rxParseRep n rp).isSome = true
  items : ∀ rp, 5 * rp.rest.length + 1 ≤ n → (rxParseItems n rp).isSome = true
  seq : ∀ rp, 5 * rp.rest.length + 2 ≤ n → (rxParseSeq n rp).isSome = true
  branches : ∀ rp, 5 * rp.rest.length + 1 ≤ n → (rxParseBranches n rp).isSome = true
  alt : ∀ rp, 5 * rp.rest.length + 3 ≤ n → (rxParseAlt n rp).isSome = true

namespace Returns

theorem atom_succ (h : Returns n) (rp : RxParser) (hne : rp.rest ≠ [])
    (hn : 5 * rp.rest.length ≤ n + 1 + 1) : (rxParseAtom (n + 1) rp).isSome = true := by
  have hlt := skip_lt hne
  rw [rxParseAtom]
  split
  · apply Parse.andThen_isSome (open_isSome _)
    intro gidx rq hq
    have := (open_spec hq).1.rest
    apply Parse.andThen_isSome (h.alt rq (by omega))
    intro inner rt _
    split <;> rfl
  · exact class_isSome _
  · rfl
  · rfl
  · rfl
  · exact escape_isSome _
  · rfl
  · rfl
  · rfl
  · rfl

theorem items_succ (h : Returns n) (rp : RxParser) (hn : 5 * rp.rest.length + 1 ≤ n + 1) :
    (rxParseItems (n + 1) rp).isSome = true := by
  rw [rxParseItems]
  split
  · rfl
  · rename_i hgo
    have hne : rp.rest ≠ [] := fun h0 => hgo (.inl h0)
    have hlt := skip_lt hne
    apply Parse.andThen_isSome (h.rep rp hne (by omega))
    intro item rq hq
    have := ((parses n).rep hq).1.rest
    exact Parse.andThen_isSome (h.items rq (by omega)) fun items rt _ => rfl

theorem branches_succ (h : Returns n) (rp : RxParser) (hn : 5 * rp.rest.length + 1 ≤ n + 1) :
    (rxParseBranches (n + 1) rp).isSome = true := by
  rw [rxParseBranches]
  split
  · rename_i hbar
    have hne : rp.rest ≠ [] := rest_ne_of_peek (by rw [hbar]; decide)
    have hlt := skip_lt hne
    apply Parse.andThen_isSome (h.seq _ (by omega))
    intro b rq hq
    have := ((parses n).seq hq).1.rest
    exact Parse.andThen_isSome (h.branches rq (by omega)) fun bs rt _ => rfl
  · rfl

theorem alt_succ (h : Returns n) (rp : RxParser) (hn : 5 * rp.rest.length + 3 ≤ n + 1) :
    (rxParseAlt (n + 1) rp).isSome = true := by
  rw [rxParseAlt]
  apply Parse.andThen_isSome (h.seq rp (by omega))
  intro first rq hq
  have := ((parses n).seq hq).1.rest
  split
  · exact Parse.andThen_isSome (h.branches rq (by omega)) fun bs rt _ => rfl
  · rfl

end Returns

theorem returns (n : Nat) : Returns n := by
  induction n with
  | zero =>
    have hpos : ∀ rp : RxParser, rp.rest ≠ [] → 0 < rp.rest.length := fun rp h =>
      List.length_pos_iff.mpr h
    refine ⟨fun rp h h0 => ?_, fun rp h h0 => ?_, ?_, ?_, ?_, ?_⟩
    · have := hpos rp h
      omega
    · have := hpos rp h
      omega
    all_goals
      intro rp h0
      omega
  | succ n ih =>
    refine ⟨ih.atom_succ, fun rp hne hn => ?_, ih.items_succ, fun rp hn => ?_, ih.branches_succ,
      ih.alt_succ⟩
    · exact Parse.andThen_isSome (ih.atom rp hne (by omega)) fun atom rq _ => rep_isSome atom rq
    · exact Parse.andThen_isSome (ih.items rp (by omega)) fun items rq _ => rfl

/-- **The parser returns** on every pattern. -/
theorem parseAlt_returns (rp : RxParser) :
    (rxParseAlt (5 * rp.rest.length + 3) rp).isSome = true :=
  (returns _).alt rp (Nat.le_refl _)

end

end Regex
end HolyPhp
