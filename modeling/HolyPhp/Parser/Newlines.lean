import HolyPhp.Lexer.Lex

/-!
# Newlines

* `track`          the stack of `lex_all`: it records no bracket when it is full;
* `filterLoop`     its second loop, which drops newlines; `lexAll` is the whole function;
* `nest`           the brackets that are open, `Balanced` and `nestDepth`;
* `newlineRule`    what should stay: newlines that end a statement;
* `filterLoop_eq`  the loop follows the rule as long as the stack is not full;
* `deep`           brackets, some of which are not recorded, and a newline in them;
* `dropNewlines_iff`  **how deep brackets may be nested.**
-/

set_option autoImplicit false

namespace HolyPhp
namespace Parser
open Lexer

/-! ## the functions -/

def tokNeedsOperand : TokKind → Bool
  | .lparen | .lbracket | .comma | .colon | .coloncolon | .arrow | .doublearrow | .fatarrow
  | .plus | .minus | .star | .slash | .percent | .pow | .dot | .shl | .shr
  | .assign | .plusassign | .minusassign | .starassign | .slashassign | .percentassign
  | .dotassign | .powassign | .eq | .neq | .neq2 | .eq2 | .spaceship | .lt | .gt | .le | .ge
  | .andand | .oror | .amp | .pipe | .caret | .tilde | .not | .question | .questionquestion
  | .kwEcho | .kwPrint | .hphpThrow | .kwNew | .kwIf | .kwElseif | .kwWhile | .kwFor | .kwForeach
  | .kwSwitch | .kwTry | .hphpFinally | .kwDo | .kwMatch | .kwAs | .kwUse | .kwElse => true
  | _ => false

def tokContinuesWith : TokKind → Bool
  | .rparen | .rbracket | .comma | .semi | .arrow | .coloncolon | .doublearrow | .fatarrow
  | .colon | .question | .questionquestion | .plus | .minus | .star | .slash | .percent | .pow
  | .dot | .shl | .shr | .eq | .neq | .neq2 | .eq2 | .spaceship | .lt | .gt | .le | .ge
  | .andand | .oror | .amp | .pipe | .caret => true
  | _ => false

/-- a `char` of `stack` -/
inductive Recorded where
  | p
  | b
  deriving DecidableEq

/-- what a token does to `stack`; the last one is in front -/
def track (st : List Recorded) (k : TokKind) : List Recorded :=
  if k = .lparen ∨ k = .lbracket then if st.length < 256 then .p :: st else st
  else if k = .lbrace then if st.length < 256 then .b :: st else st
  else if k = .rparen ∨ k = .rbracket then
    match st with
    | .p :: st => st
    | st => st
  else if k = .rbrace then
    match st with
    | .b :: st => st
    | st => st
  else st

/-- the kind of the first token that is no newline -/
def nextKind : List Token → TokKind
  | [] => .eof
  | t :: ts => if t.kind = .newline then nextKind ts else t.kind

/-- the second loop of `lex_all` -/
def filterLoop : List Recorded → TokKind → List Token → List Token
  | _, _, [] => []
  | st, prev, t :: ts =>
    let st := track st t.kind
    if t.kind = .newline then
      if st.head? = some .p || tokNeedsOperand prev || tokContinuesWith (nextKind ts) then
        filterLoop st prev ts
      else t :: filterLoop st .newline ts
    else t :: filterLoop st t.kind ts

def dropNewlines (ts : List Token) : List Token := filterLoop [] .eof ts

/-- `lex_all` -/
def lexAll (strtod : Bytes → Double) (s : Bytes) : Option (Except Stop (List Token)) :=
  (lexRaw strtod (s.length + 1) .start s).map fun r => r.map dropNewlines

/-! ## brackets -/

/-- the bracket that the token closes -/
def opener : TokKind → Option TokKind
  | .rparen => some .lparen
  | .rbracket => some .lbracket
  | .rbrace => some .lbrace
  | _ => none

/-- the brackets that are open behind a token; the last one is in front -/
def nestStep (st : List TokKind) (k : TokKind) : Option (List TokKind) :=
  if k = .lparen ∨ k = .lbracket ∨ k = .lbrace then some (k :: st)
  else
    match opener k with
    | none => some st
    | some o =>
      match st with
      | [] => none
      | x :: st => if x = o then some st else none

def nest : List TokKind → List Token → Option (List TokKind)
  | st, [] => some st
  | st, t :: ts => (nestStep st t.kind).bind fun st => nest st ts

/-- every bracket is closed by its own -/
def Balanced (ts : List Token) : Prop := nest [] ts = some []

/-- the greatest number of brackets that are open -/
def depthFrom : List TokKind → List Token → Nat
  | st, [] => st.length
  | st, t :: ts => max st.length
      (match nestStep st t.kind with
        | some st => depthFrom st ts
        | none => 0)

def nestDepth (ts : List Token) : Nat := depthFrom [] ts

/-! ## the rule -/

/-- the innermost bracket that is open behind the tokens is `(` or `[` -/
def inBrackets (before : List Token) : Bool :=
  match nest [] before with
  | some (k :: _) => k = .lparen || k = .lbracket
  | _ => false

/-- the last token asks for an operand -/
def afterOperator (kept : List Token) : Bool :=
  match kept.getLast? with
  | some t => tokNeedsOperand t.kind
  | none => false

/-- the tokens that stay of those in front, with the ones `kept` of those `before`; a newline goes
in brackets, behind what needs an operand, and in front of what continues the expression -/
def newlineRule : List Token → List Token → List Token → List Token
  | _, kept, [] => kept
  | before, kept, t :: ts =>
    if t.kind = .newline ∧ (inBrackets before || afterOperator kept ||
        tokContinuesWith (nextKind ts)) = true then
      newlineRule (before ++ [t]) kept ts
    else newlineRule (before ++ [t]) (kept ++ [t]) ts

variable {st : List TokKind} {k : TokKind} {t : Token} {ts us before kept : List Token}

/-! ## the recorded brackets -/

def recorded (k : TokKind) : Recorded := if k = .lbrace then .b else .p

theorem nest_append : nest st (ts ++ us) = (nest st ts).bind fun st => nest st us := by
  induction ts generalizing st with
  | nil => rfl
  | cons t ts ih =>
    rw [List.cons_append, nest, nest, Option.bind_assoc]
    congr 1
    funext st
    exact ih

/-- the brackets on the stack are the three opening ones -/
def Openers (st : List TokKind) : Prop :=
  ∀ k ∈ st, k = .lparen ∨ k = .lbracket ∨ k = .lbrace

theorem nestStep_openers {st' : List TokKind} (h : nestStep st k = some st') (hs : Openers st) :
    Openers st' := by
  unfold nestStep at h
  split at h
  next hk =>
    cases h
    exact List.forall_mem_cons.2 ⟨hk, hs⟩
  split at h
  · cases h
    exact hs
  split at h
  · cases h
  split at h
  · cases h
    exact (List.forall_mem_cons.1 hs).2
  · cases h

/-- **While the stack is not full** it has the brackets that are open. -/
theorem track_recorded {st' : List TokKind} (h : nestStep st k = some st')
    (hl : st'.length ≤ 256) : track (st.map recorded) k = st'.map recorded := by
  unfold nestStep at h
  split at h
  next hk =>
    cases h
    have hlt : (st.map recorded).length < 256 := by
      rw [List.length_map]
      exact hl
    rcases hk with rfl | rfl | rfl
    · exact if_pos hlt
    · exact if_pos hlt
    · exact if_pos hlt
  next hk =>
  simp only [not_or] at hk
  unfold track
  rw [if_neg (by simp [hk]), if_neg hk.2.2]
  split at h
  next ho =>
    cases h
    have hc : k ≠ .rparen ∧ k ≠ .rbracket ∧ k ≠ .rbrace := by
      refine ⟨?_, ?_, ?_⟩ <;>
        · rintro rfl
          cases ho
    rw [if_neg (by simp [hc]), if_neg hc.2.2]
  next o ho =>
    split at h
    · cases h
    next x s =>
      split at h
      next hx =>
        cases h
        subst hx
        unfold opener at ho
        split at ho
        · cases ho
          rfl
        · cases ho
          rfl
        · cases ho
          rfl
        · cases ho
      · cases h

theorem inBrackets_eq (h : nest [] before = some st) (hs : Openers st) :
    inBrackets before = decide ((st.map recorded).head? = some Recorded.p) := by
  rw [inBrackets, h]
  cases st with
  | nil => rfl
  | cons k st => rcases hs k List.mem_cons_self with rfl | rfl | rfl <;> rfl

theorem afterOperator_append : afterOperator (kept ++ [t]) = tokNeedsOperand t.kind := by
  rw [afterOperator, List.getLast?_concat]

theorem nest_snoc {st' : List TokKind} (h : nest [] before = some st)
    (h' : nestStep st t.kind = some st') : nest [] (before ++ [t]) = some st' := by
  rw [nest_append, h, Option.bind_some, nest, h']
  rfl

/-- **The loop follows the rule** from any place on behind which no more than 256 brackets are open
at once. -/
theorem filterLoop_eq {prev : TokKind} (hb : nest [] before = some st) (hs : Openers st)
    (hp : tokNeedsOperand prev = afterOperator kept) (hd : depthFrom st ts ≤ 256)
    (hn : (nest st ts).isSome = true) :
    newlineRule before kept ts = kept ++ filterLoop (st.map recorded) prev ts := by
  induction ts generalizing before kept st prev with
  | nil => exact (List.append_nil kept).symm
  | cons t ts ih =>
    cases h : nestStep st t.kind with
    | none =>
      rw [nest, h] at hn
      cases hn
    | some st' =>
      rw [nest, h] at hn
      rw [depthFrom, h] at hd
      have hd' : depthFrom st' ts ≤ 256 := (le_max_right _ _).trans hd
      have hl : st'.length ≤ 256 := by
        cases ts with
        | nil => exact hd'
        | cons u us => exact (le_max_left _ _).trans hd'
      have hs' := nestStep_openers h hs
      have hb' := nest_snoc hb h
      rw [newlineRule, filterLoop, track_recorded h hl]
      by_cases hk : t.kind = .newline
      · have hst : st' = st := by
          rw [hk] at h
          exact (Option.some.inj h).symm
        subst hst
        rw [if_pos hk, inBrackets_eq hb hs, ← hp]
        by_cases hdrop : (decide ((st'.map recorded).head? = some Recorded.p) ||
            tokNeedsOperand prev || tokContinuesWith (nextKind ts)) = true
        · rw [if_pos ⟨hk, hdrop⟩, if_pos hdrop]
          exact ih hb' hs' hp hd' hn
        · rw [if_neg fun h => hdrop h.2, if_neg hdrop,
            ih hb' hs' (by rw [afterOperator_append, hk]) hd' hn, List.append_assoc]
          rfl
      · rw [if_neg hk, if_neg fun h => hk h.1, ih hb' hs' afterOperator_append.symm hd' hn,
          List.append_assoc]
        rfl

/-- the rule holds where no more than 256 brackets are open at once -/
theorem dropNewlines_eq (hb : Balanced ts) (hd : nestDepth ts ≤ 256) :
    dropNewlines ts = newlineRule [] [] ts := by
  have hs : (nest [] ts).isSome = true := by
    rw [hb]
    rfl
  have h : newlineRule [] [] ts = [] ++ filterLoop ([].map recorded) .eof ts :=
    filterLoop_eq rfl (List.forall_mem_nil _) rfl hd hs
  exact h.symm

/-! ## brackets that are not recorded -/

/-- a token of the kind -/
def mk (k : TokKind) : Token := ⟨k, 0, 0, 0, [], 0, ⟨0⟩, []⟩

/-- `n + 257` brackets; behind 256 closing ones there is a newline between two names -/
def deep (n : Nat) : List Token :=
  List.replicate (n + 257) (mk .lparen) ++ (List.replicate 256 (mk .rparen) ++
    (mk .ident :: mk .newline :: mk .ident :: List.replicate (n + 1) (mk .rparen)))

section
variable {n m : Nat}

theorem nest_open (ts : List Token) : nest st (List.replicate n (mk .lparen) ++ ts)
    = nest (List.replicate n .lparen ++ st) ts := by
  induction n generalizing st with
  | zero => rfl
  | succ n ih =>
    rw [List.replicate_succ, List.cons_append, nest]
    show nest (.lparen :: st) (List.replicate n (mk .lparen) ++ ts) = _
    rw [ih, List.replicate_succ', List.append_assoc]
    rfl

theorem nest_close (ts : List Token) : nest (List.replicate n .lparen ++ st)
    (List.replicate n (mk .rparen) ++ ts) = nest st ts := by
  induction n with
  | zero => rfl
  | succ n ih =>
    rw [List.replicate_succ, List.replicate_succ, List.cons_append, List.cons_append, nest]
    exact ih

theorem depth_open (ts : List Token) (h : depthFrom (List.replicate n .lparen ++ st) ts ≤ m)
    (hm : st.length + n ≤ m) : depthFrom st (List.replicate n (mk .lparen) ++ ts) ≤ m := by
  induction n generalizing st with
  | zero => exact h
  | succ n ih =>
    rw [List.replicate_succ, List.cons_append, depthFrom]
    refine max_le (by omega) (ih ?_ ?_)
    · rw [List.replicate_succ', List.append_assoc] at h
      exact h
    · rw [List.length_cons]
      omega

theorem depth_close (ts : List Token) (h : depthFrom st ts ≤ m) (hm : st.length + n ≤ m) :
    depthFrom (List.replicate n .lparen ++ st) (List.replicate n (mk .rparen) ++ ts) ≤ m := by
  induction n with
  | zero => exact h
  | succ n ih =>
    rw [List.replicate_succ, List.replicate_succ, List.cons_append, List.cons_append, depthFrom]
    refine max_le ?_ (ih (by omega))
    simp only [List.length_cons, List.length_append, List.length_replicate]
    omega

/-- the 256 brackets that are recorded, behind the others -/
theorem deep_split (n : Nat) : List.replicate (n + 257) TokKind.lparen ++ []
    = List.replicate 256 .lparen ++ (List.replicate (n + 1) .lparen ++ []) := by
  rw [← List.append_assoc, ← List.replicate_add]
  congr 2
  omega

theorem deep_balanced (n : Nat) : Balanced (deep n) := by
  have hrest : nest (List.replicate (n + 1) .lparen ++ []) (List.replicate (n + 1) (mk .rparen))
      = some [] := by
    have h := @nest_close [] (n + 1) []
    rwa [List.append_nil (List.replicate (n + 1) (mk .rparen))] at h
  rw [Balanced, deep, nest_open, deep_split, nest_close]
  exact hrest

theorem deep_depth (n : Nat) : nestDepth (deep n) ≤ n + 257 := by
  have hrest : depthFrom (List.replicate (n + 1) .lparen ++ [])
      (List.replicate (n + 1) (mk .rparen)) ≤ n + 257 := by
    have h := @depth_close [] (n + 1) (n + 257) [] (Nat.zero_le _)
      (by rw [List.length_nil]; omega)
    rwa [List.append_nil (List.replicate (n + 1) (mk .rparen))] at h
  have hlen : (List.replicate (n + 1) TokKind.lparen ++ []).length = n + 1 := by simp
  refine depth_open _ ?_ (by simp)
  rw [deep_split]
  refine depth_close _ ?_ (by rw [hlen])
  -- the names and the newline change nothing
  refine max_le (by rw [hlen]; omega) (max_le (by rw [hlen]; omega) (max_le (by rw [hlen]; omega) ?_))
  exact hrest

theorem rule_cons (h : t.kind ≠ .newline) :
    newlineRule before kept (t :: ts) = newlineRule (before ++ [t]) (kept ++ [t]) ts := by
  rw [newlineRule, if_neg fun h' => h h'.1]

theorem rule_drop (h : t.kind = .newline) (hin : inBrackets before = true) :
    newlineRule before kept (t :: ts) = newlineRule (before ++ [t]) kept ts := by
  rw [newlineRule, if_pos ⟨h, by rw [hin, Bool.true_or, Bool.true_or]⟩]

theorem rule_append (h : ∀ t ∈ us, t.kind ≠ .newline) :
    newlineRule before kept (us ++ ts) = newlineRule (before ++ us) (kept ++ us) ts := by
  induction us generalizing before kept with
  | nil => rw [List.nil_append, List.append_nil, List.append_nil]
  | cons u us ih =>
    obtain ⟨hu, hus⟩ := List.forall_mem_cons.1 h
    rw [List.cons_append, rule_cons hu, ih hus]
    simp

/-- what is not recorded does not matter for what is in front -/
theorem mem_filter {kd : TokKind} (hk : kd ≠ .newline) {st st' : List Recorded}
    (h : ∀ prev, t ∈ filterLoop st' prev ts) (hst : (fun st => track st kd)^[n] st = st') :
    ∀ prev, t ∈ filterLoop st prev (List.replicate n (mk kd) ++ ts) := by
  induction n generalizing st with
  | zero =>
    intro prev
    rw [← hst] at h
    exact h prev
  | succ n ih =>
    intro prev
    rw [List.replicate_succ, List.cons_append, filterLoop, if_neg (show (mk kd).kind ≠ _ from hk)]
    exact List.mem_cons_of_mem _ (ih hst kd)

theorem track_open {j : Nat} (hj : j ≤ 256) :
    (fun st => track st .lparen)^[n] (List.replicate j .p)
      = List.replicate (min 256 (j + n)) Recorded.p := by
  induction n generalizing j with
  | zero => rw [Nat.add_zero, Nat.min_eq_right hj]; rfl
  | succ n ih =>
    have hstep : track (List.replicate j .p) .lparen = List.replicate (min 256 (j + 1)) .p := by
      show (if (List.replicate j Recorded.p).length < 256 then _ else _) = _
      rw [List.length_replicate]
      split
      · rw [Nat.min_eq_right (by omega), List.replicate_succ]
      · congr 1
        omega
    rw [Function.iterate_succ_apply, hstep, ih (Nat.min_le_left _ _)]
    congr 1
    omega

theorem track_close {j : Nat} : (fun st => track st .rparen)^[n] (List.replicate j .p)
    = List.replicate (j - n) Recorded.p := by
  induction n generalizing j with
  | zero => rfl
  | succ n ih =>
    have hstep : track (List.replicate j .p) .rparen = List.replicate (j - 1) .p := by
      cases j <;> rfl
    rw [Function.iterate_succ_apply, hstep, ih]
    congr 1
    omega

/-- the newline stays: no bracket is recorded any more -/
theorem deep_keeps (n : Nat) : mk .newline ∈ dropNewlines (deep n) := by
  have hopen : (fun st => track st .lparen)^[n + 257] [] = List.replicate 256 .p := by
    have h := track_open (n := n + 257) (Nat.zero_le 256)
    rw [Nat.zero_add, Nat.min_eq_left (by omega)] at h
    exact h
  refine mem_filter (by decide) (@mem_filter _ _ _ _ (by decide) _ [] ?_ track_close) hopen .eof
  intro prev
  exact List.mem_cons_of_mem _ List.mem_cons_self

theorem kind_of_mem {kd : TokKind} (hk : kd ≠ .newline) : ∀ t ∈ List.replicate n (mk kd),
    t.kind ≠ .newline := by
  intro t ht
  rw [List.eq_of_mem_replicate ht]
  exact hk

/-- the newline goes: it is in brackets -/
theorem deep_drops (n : Nat) : mk .newline ∉ newlineRule [] [] (deep n) := by
  have hin : inBrackets ((List.replicate (n + 257) (mk .lparen) ++ List.replicate 256 (mk .rparen))
      ++ [mk .ident]) = true := by
    rw [inBrackets, List.append_assoc, nest_open, deep_split, nest_close]
    rfl
  rw [deep, rule_append (kind_of_mem (by decide)), rule_append (kind_of_mem (by decide)),
    List.nil_append]
  rw [rule_cons (show (mk .ident).kind ≠ .newline by decide), rule_drop rfl hin,
    rule_cons (show (mk .ident).kind ≠ .newline by decide)]
  rw [← List.append_nil (List.replicate (n + 1) (mk .rparen)),
    rule_append (kind_of_mem (by decide)), newlineRule]
  intro hm
  simp only [List.mem_append, List.mem_singleton, List.mem_replicate] at hm
  rcases hm with (((⟨-, h⟩ | ⟨-, h⟩) | h) | h) | ⟨-, h⟩ <;> cases h

end

/-- **Newlines.**  For every bound on the nesting: the loop follows the rule in all sequences of
tokens whose brackets are balanced and nested no deeper exactly if the bound is at most 256. -/
theorem dropNewlines_iff (d : Nat) :
    (∀ ts, Balanced ts → nestDepth ts ≤ d → dropNewlines ts = newlineRule [] [] ts) ↔ d ≤ 256 := by
  constructor
  · intro h
    by_contra hd
    obtain ⟨n, rfl⟩ : ∃ n, d = n + 257 := ⟨d - 257, by omega⟩
    have hkeep := deep_keeps n
    rw [h (deep n) (deep_balanced n) (deep_depth n)] at hkeep
    exact deep_drops n hkeep
  · exact fun hd ts hb hn => dropNewlines_eq hb (hn.trans hd)

theorem dropNewlines_deep : ¬ ∀ ts, Balanced ts → dropNewlines ts = newlineRule [] [] ts := by
  intro h
  have hkeep := deep_keeps 0
  rw [h (deep 0) (deep_balanced 0)] at hkeep
  exact deep_drops 0 hkeep

end Parser
end HolyPhp
