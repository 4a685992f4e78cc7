import HolyPhp.Parser.Expr

/-!
# Operator precedence: printing and parsing

`row k` is the row of a binary operator in the table of levels, with `**` below the last one.
A `Tree` is an expression over operands, unary operators and binary operators; `Tree.print t lvl`
writes it with the parentheses that the table asks for where an operand of level `lvl` is
expected.  A `Tree` that needs none is `Tight`: an operator of an earlier row is never below one
of a later row, the operators of one row lean to the left and `**` to the right.

* `Reads`, `Loops`   what a function of the parser makes of the tokens of an expression;
* `Tree.reads`       every level reads back what was printed for it;
* `Seq.tree`         the tight tree of a sequence without parentheses.
-/

set_option linter.unusedVariables false

namespace HolyPhp
namespace Parser

/-! ## rows -/

/-- 12 where the operator is not binary -/
def row (k : OpTok) : Nat :=
  if k = .pow then 11
  else if levels.any (·.contains k) then levels.findIdx (·.contains k) else 12

abbrev Binop := { k : OpTok // row k < 12 }

/-- `*` is the dereference -/
abbrev Unop := { k : OpTok // k = .not ∨ k = .minus ∨ k = .plus ∨ k = .tilde ∨ k = .star }

theorem contains_iff (k : OpTok) : ∀ lvl < 11, (levels.getD lvl []).contains k = true ↔ row k = lvl := by
  cases k <;> decide

theorem row_eq_pow {k : OpTok} (h : row k = 11) : k = .pow := by
  revert h
  cases k <;> decide

/-- the level that an operand on the left has to have -/
def lhs (k : OpTok) : Nat := if row k = 11 then 12 else row k

def rhs (k : OpTok) : Nat := if row k = 11 then 11 else row k + 1

/-! ## trees -/

/-- an expression of one token -/
inductive Operand where
  | var (name : Bytes)
  | ident (name : Name)
  | int (i : Int64)
  | float (f : Double)
  | str (s : Bytes)
  | bool (b : Bool)
  | null

def Operand.tok : Operand → Tok
  | .var x => .var x
  | .ident x => .ident x
  | .int i => .int i
  | .float f => .float f
  | .str s => .str s
  | .bool b => .bool b
  | .null => .null

def Operand.expr : Operand → Expr
  | .var x => .var x
  | .ident x => .ident x false
  | .int i => .int i
  | .float f => .float f
  | .str s => .str s
  | .bool b => .bool b
  | .null => .null

inductive Tree where
  | atom (o : Operand)
  /-- `&$x` with that many marks more -/
  | borrow (more : Nat) (x : Bytes)
  | un (k : Unop) (e : Tree)
  | bin (k : Binop) (l r : Tree)

def marks : Nat → Bytes → Expr
  | 0, x => .borrow (.var x)
  | n + 1, x => .borrow (marks n x)

/-- the node of `parse_unary` -/
def unExpr (k : OpTok) (e : Expr) : Expr := if k = .star then .deref e else .un k e

namespace Tree

def expr : Tree → Expr
  | atom o => o.expr
  | borrow n x => marks n x
  | un k e => unExpr k e.expr
  | bin k l r => .bin k l.expr r.expr

/-- the level of the tree -/
def prec : Tree → Nat
  | atom _ => 12
  | borrow _ _ => 12
  | un _ _ => 12
  | bin k _ _ => row k

/-- the tokens of the tree without any parentheses -/
def flat : Tree → List Tok
  | atom o => [o.tok]
  | borrow n x => List.replicate (n + 1) (.op .amp) ++ [.var x]
  | un k e => .op k :: e.flat
  | bin k l r => l.flat ++ .op k :: r.flat

/-- the tokens of the tree where the level `lvl` is expected -/
def print : Tree → Nat → List Tok
  | atom o, _ => [o.tok]
  | borrow n x, _ => List.replicate (n + 1) (.op .amp) ++ [.var x]
  | un k e, _ => .op k :: e.print 12
  | bin k l r, lvl =>
    let ts := l.print (lhs k) ++ .op k :: r.print (rhs k)
    if row k < lvl then .lparen :: (ts ++ [.rparen]) else ts

/-- no operator has one below it that binds more loosely -/
def Tight : Tree → Prop
  | atom _ => True
  | borrow _ _ => True
  | un _ e => 12 ≤ e.prec ∧ e.Tight
  | bin k l r => lhs k ≤ l.prec ∧ l.Tight ∧ rhs k ≤ r.prec ∧ r.Tight

theorem print_tight {t : Tree} (h : t.Tight) {lvl : Nat} (hl : lvl ≤ t.prec) :
    t.print lvl = t.flat := by
  induction t generalizing lvl with
  | atom o => rfl
  | borrow n x => rfl
  | un k e ih => rw [print, flat, ih h.2 h.1]
  | bin k l r ihl ihr =>
    obtain ⟨h1, h2, h3, h4⟩ := h
    rw [print, flat, ihl h2 h1, ihr h4 h3]
    exact if_neg (Nat.not_lt.mpr hl)

theorem print_ne_nil (t : Tree) (lvl : Nat) : 0 < (t.print lvl).length := by
  cases t with
  | atom o => exact Nat.one_pos
  | borrow n x => rw [print, List.length_append]; exact Nat.succ_pos _
  | un k e => exact Nat.succ_pos _
  | bin k l r =>
    rw [print]
    split
    · exact Nat.succ_pos _
    · rw [List.length_append, List.length_cons]
      omega

end Tree

/-! ## what the functions of the parser read -/

/-- the tokens do not go on with an operator of row `lvl` or a later one, nor with a call -/
def Stops (lvl : Nat) (ts : List Tok) : Prop :=
  (∀ rest, ts ≠ .lparen :: rest) ∧ ∀ k rest, ts = .op k :: rest → row k < lvl

theorem Stops.mono {lvl lvl' : Nat} {ts : List Tok} (h : Stops lvl ts) (hl : lvl ≤ lvl') :
    Stops lvl' ts :=
  ⟨h.1, fun k rest e => Nat.lt_of_lt_of_le (h.2 k rest e) hl⟩

theorem stops_nil (lvl : Nat) : Stops lvl [] := ⟨nofun, nofun⟩

theorem stops_rparen (lvl : Nat) (ts : List Tok) : Stops lvl (.rparen :: ts) := ⟨nofun, nofun⟩

theorem stops_op {lvl : Nat} {k : OpTok} (h : row k < lvl) (ts : List Tok) :
    Stops lvl (.op k :: ts) := by
  refine ⟨nofun, fun k' rest e => ?_⟩
  injection e with e
  injection e with e
  exact e ▸ h

/-- with the fuel `c` the function reads the tokens as `e` -/
def Reads (f : Nat → List Tok → Option (Expr × List Tok)) (lvl : Nat) (ts : List Tok) (e : Expr)
    (c : Nat) : Prop :=
  ∀ n rest, c ≤ n → Stops lvl rest → f n (ts ++ rest) = some (e, rest)

/-- with the fuel `c` the level `lvl` comes to its loop with `e` -/
def Loops (lvl : Nat) (ts : List Tok) (e : Expr) (c : Nat) : Prop :=
  ∀ n rest, c ≤ n → Stops (lvl + 1) rest → ∃ m, n ≤ m + ts.length ∧
    parseBinopLevel n lvl (ts ++ rest) = binopLoop m lvl e rest

section
variable {ts us : List Tok} {e r : Expr} {c d lvl n : Nat} {k : OpTok}

theorem Reads.mono {f : Nat → List Tok → Option (Expr × List Tok)} (h : Reads f lvl ts e c)
    (hc : c ≤ d) : Reads f lvl ts e d :=
  fun n rest hn => h n rest (Nat.le_trans hc hn)

theorem Loops.mono (h : Loops lvl ts e c) (hc : c ≤ d) : Loops lvl ts e d :=
  fun n rest hn => h n rest (Nat.le_trans hc hn)

theorem binopLoop_stops (hl : lvl < 11) (h : Stops lvl ts) :
    binopLoop (n + 1) lvl e ts = some (e, ts) := by
  unfold binopLoop
  split
  · rename_i k rest
    have hrow := h.2 k rest rfl
    have hne : ¬ (levels.getD lvl []).contains k = true := by
      rw [contains_iff k lvl hl]
      omega
    exact if_neg hne
  · rfl

theorem Reads.pow (h : Reads parseUnary 12 ts e c) : Reads parsePow 11 ts e (c + 1) := by
  intro n rest hn hs
  obtain ⟨n, rfl⟩ : ∃ m, n = m + 1 := ⟨n - 1, by omega⟩
  rw [parsePow, h n rest (by omega) (hs.mono (by omega)), Option.bind_some]
  dsimp only
  split
  · have := hs.2 .pow _ rfl
    exact absurd this (by decide)
  · rfl

/-- `**` leans to the right -/
theorem Reads.powBin (h : Reads parseUnary 12 ts e c) (hr : Reads parsePow 11 us r d) :
    Reads parsePow 11 (ts ++ .op .pow :: us) (.bin .pow e r) (max c d + 1) := by
  intro n rest hn hs
  obtain ⟨n, rfl⟩ : ∃ m, n = m + 1 := ⟨n - 1, by omega⟩
  rw [List.append_assoc, List.cons_append, parsePow,
    h n _ (by omega) (stops_op (show row .pow < 12 by decide) _)]
  show (parsePow n (us ++ rest)).map _ = _
  rw [hr n rest (by omega) hs]
  rfl

theorem Reads.last (h : Reads parsePow 11 ts e c) :
    Reads (parseBinopLevel · 11) 11 ts e (c + 1) := by
  intro n rest hn hs
  obtain ⟨n, rfl⟩ : ∃ m, n = m + 1 := ⟨n - 1, by omega⟩
  show parseBinopLevel (n + 1) 11 _ = _
  rw [parseBinopLevel, if_pos (by decide)]
  exact h n rest (by omega) hs

theorem Reads.loops (hl : lvl < 11) (h : Reads (parseBinopLevel · (lvl + 1)) (lvl + 1) ts e c)
    (hts : 0 < ts.length) : Loops lvl ts e (c + 1) := by
  intro n rest hn hs
  obtain ⟨n, rfl⟩ : ∃ m, n = m + 1 := ⟨n - 1, by omega⟩
  refine ⟨n, by omega, ?_⟩
  have hlen : ¬ levels.length ≤ lvl := Nat.not_le.mpr hl
  rw [parseBinopLevel, if_neg hlen,
    show parseBinopLevel n (lvl + 1) (ts ++ rest) = _ from h n rest (by omega) hs]
  rfl

theorem Loops.reads (hl : lvl < 11) (h : Loops lvl ts e c) :
    Reads (parseBinopLevel · lvl) lvl ts e (max c (ts.length + 1)) := by
  intro n rest hn hs
  obtain ⟨m, hm, he⟩ := h n rest (by omega) (hs.mono (by omega))
  obtain ⟨m, rfl⟩ : ∃ j, m = j + 1 := ⟨m - 1, by omega⟩
  show parseBinopLevel n lvl _ = _
  rw [he, binopLoop_stops hl hs]

/-- one row leans to the left -/
theorem Loops.bin (hl : lvl < 11) (hk : row k = lvl) (h : Loops lvl ts e c)
    (hr : Reads (parseBinopLevel · (lvl + 1)) (lvl + 1) us r d) :
    Loops lvl (ts ++ .op k :: us) (.bin k e r) (max c (d + ts.length + 1)) := by
  intro n rest hn hs
  rw [List.append_assoc, List.cons_append]
  obtain ⟨m, hm, he⟩ := h n (.op k :: (us ++ rest)) (by omega) (stops_op (by omega) _)
  obtain ⟨m, rfl⟩ : ∃ j, m = j + 1 := ⟨m - 1, by omega⟩
  refine ⟨m, by rw [List.length_append, List.length_cons]; omega, ?_⟩
  rw [he, binopLoop, if_pos ((contains_iff k lvl hl).mpr hk),
    show parseBinopLevel m (lvl + 1) (us ++ rest) = _ from hr m rest (by omega) hs]
  rfl

/-- fuel for the level `lvl` -/
def cost (ts : List Tok) (lvl : Nat) : Nat := 32 * ts.length + 2 + 2 * (11 - lvl)

/-- the levels up to `top` read the tokens -/
structure Form (ts : List Tok) (e : Expr) (top : Nat) : Prop where
  level : ∀ lvl ≤ top, Reads (parseBinopLevel · lvl) lvl ts e (cost ts lvl)
  loops : ∀ lvl ≤ top, lvl < 11 → Loops lvl ts e (cost ts lvl)

theorem Loops.level (hl : lvl < 11) (hts : 0 < ts.length) (h : Loops lvl ts e (cost ts lvl)) :
    Reads (parseBinopLevel · lvl) lvl ts e (cost ts lvl) :=
  (h.reads hl).mono (by unfold cost; omega)

/-- a level that reads the tokens is reached through the levels above it -/
theorem Form.of_level (hts : 0 < ts.length) {top : Nat} (ht : top ≤ 11)
    (h : Reads (parseBinopLevel · top) top ts e (cost ts top))
    (hloops : top < 11 → Loops top ts e (cost ts top)) : Form ts e top := by
  have hstep : ∀ l, l < 11 → Reads (parseBinopLevel · (l + 1)) (l + 1) ts e (cost ts (l + 1)) →
      Loops l ts e (cost ts l) := fun l hl h =>
    (Reads.loops hl h hts).mono (by unfold cost; omega)
  have hall : ∀ j ≤ top, Reads (parseBinopLevel · (top - j)) (top - j) ts e (cost ts (top - j)) := by
    intro j
    induction j with
    | zero => exact fun _ => h
    | succ j ih =>
      intro hj
      have hn : top - (j + 1) + 1 = top - j := by omega
      apply Loops.level (by omega) hts
      apply hstep _ (by omega)
      rw [hn]
      exact ih (by omega)
  have hlevel : ∀ l ≤ top, Reads (parseBinopLevel · l) l ts e (cost ts l) := by
    intro l hl
    have := hall (top - l) (by omega)
    rwa [show top - (top - l) = l by omega] at this
  refine ⟨hlevel, fun l hl hl' => ?_⟩
  by_cases e : l = top
  · rw [e] at hl' ⊢
    exact hloops hl'
  · exact hstep l hl' (hlevel (l + 1) (by omega))

theorem Form.of_pow (hts : 0 < ts.length) (h : Reads parsePow 11 ts e (32 * ts.length + 1)) :
    Form ts e 11 :=
  .of_level hts (Nat.le_refl _) (h.last.mono (by unfold cost; omega)) nofun

theorem Form.of_unary (hts : 0 < ts.length) (h : Reads parseUnary 12 ts e (32 * ts.length)) :
    Form ts e 11 := .of_pow hts h.pow

theorem postfixLoop_stops (h : Stops lvl ts) : postfixLoop (n + 1) e ts = some (e, ts) := by
  unfold postfixLoop
  split
  · exact absurd rfl (h.1 _)
  · rfl

theorem parseUnary_postfix (h : ∀ k us, ts ≠ .op k :: us) :
    parseUnary (n + 1) ts = parsePostfix n ts := by
  unfold parseUnary
  split
  · exact absurd rfl (h _ _)
  · rfl

/-- tokens in parentheses are an operand -/
theorem Reads.paren (h : Reads (parseBinopLevel · 0) 0 ts e c) (hne : ∀ us, ts ≠ .rparen :: us)
    (hts : 0 < ts.length) :
    Reads parseUnary 12 (.lparen :: (ts ++ [.rparen])) e (c + 4) := by
  intro n rest hn hs
  obtain ⟨n, rfl⟩ : ∃ m, n = m + 4 := ⟨n - 4, by omega⟩
  have hin : parseExpr (n + 1) (ts ++ .rparen :: rest) = some (e, .rparen :: rest) := by
    rw [parseExpr]
    exact h n _ (by omega) (stops_rparen 0 rest)
  have hprim : parsePrimary (n + 2) (.lparen :: (ts ++ .rparen :: rest)) = some (e, rest) := by
    rw [parsePrimary, hin]
    · rfl
    · intro us heq
      cases ts with
      | nil => exact absurd hts (Nat.lt_irrefl 0)
      | cons t us' =>
        injection heq with heq
        exact absurd (congrArg (· :: us') heq) (hne us')
  rw [List.cons_append, List.append_assoc, List.singleton_append,
    parseUnary_postfix (fun k us e => by cases e), parsePostfix, hprim]
  exact postfixLoop_stops hs

theorem reads_operand (o : Operand) : Reads parseUnary 12 [o.tok] o.expr 4 := by
  intro n rest hn hs
  obtain ⟨n, rfl⟩ : ∃ m, n = m + 4 := ⟨n - 4, by omega⟩
  have hprim : parsePrimary (n + 2) (o.tok :: rest) = some (o.expr, rest) := by
    cases o with
    | var x =>
      rw [Operand.tok, parsePrimary]
      · rfl
      · exact fun us e => hs.1 us e
    | ident x =>
      rw [Operand.tok, parsePrimary]
      · rfl
      · exact fun us e => hs.1 us e
    | int i => rfl
    | float f => rfl
    | str b => rfl
    | bool b => rfl
    | null => rfl
  have hop : ∀ k us, o.tok :: rest ≠ .op k :: us := by
    intro k us e
    cases o <;> cases e
  rw [List.singleton_append, parseUnary_postfix hop, parsePostfix, hprim]
  exact postfixLoop_stops hs

theorem Reads.un (k : Unop) (h : Reads parseUnary 12 ts e c) :
    Reads parseUnary 12 (.op k :: ts) (unExpr k e) (c + 1) := by
  intro n rest hn hs
  obtain ⟨n, rfl⟩ : ∃ m, n = m + 1 := ⟨n - 1, by omega⟩
  have hrec := h n rest (by omega) hs
  obtain ⟨k, hk⟩ := k
  rcases hk with rfl | rfl | rfl | rfl | rfl
  all_goals
    show (parseUnary n (ts ++ rest)).map _ = _
    rw [hrec]
    rfl

/-- a mark is a borrow before a variable and before another mark -/
theorem reads_borrow (m : Nat) (x : Bytes) : Reads parseUnary 12
    (List.replicate (m + 1) (.op .amp) ++ [.var x]) (marks m x) (m + 5) := by
  induction m with
  | zero =>
    intro n rest hn hs
    obtain ⟨n, rfl⟩ : ∃ j, n = j + 1 := ⟨n - 1, by omega⟩
    show (parseUnary n ([(Operand.var x).tok] ++ rest)).map _ = _
    rw [reads_operand (.var x) n rest (by omega) hs]
    rfl
  | succ m ih =>
    intro n rest hn hs
    obtain ⟨n, rfl⟩ : ∃ j, n = j + 1 := ⟨n - 1, by omega⟩
    show (parseUnary n (List.replicate (m + 1) (.op .amp) ++ [.var x] ++ rest)).map _ = _
    rw [ih n rest (by omega) hs]
    rfl

end

/-! ## every tree is read back -/

namespace Tree

/-- what the parser reads where the tree was printed -/
structure Good (t : Tree) : Prop where
  unary : Reads parseUnary 12 (t.print 12) t.expr (32 * (t.print 12).length)
  pow : Reads parsePow 11 (t.print 11) t.expr (32 * (t.print 11).length + 1)
  level : ∀ lvl ≤ 11, Reads (parseBinopLevel · lvl) lvl (t.print lvl) t.expr
    (cost (t.print lvl) lvl)
  loops : ∀ lvl < 11, Loops lvl (t.print lvl) t.expr (cost (t.print lvl) lvl)

/-- a tree that is printed in one way at every level -/
theorem Good.of_unary {t : Tree} (hp : ∀ lvl, t.print lvl = t.print 12)
    (h : Reads parseUnary 12 (t.print 12) t.expr (32 * (t.print 12).length)) : Good t := by
  have hf := Form.of_unary (t.print_ne_nil 12) h
  refine ⟨h, ?_, fun lvl hl => ?_, fun lvl hl => ?_⟩
  · rw [hp 11]
    exact h.pow
  · rw [hp lvl]
    exact hf.level lvl hl
  · rw [hp lvl]
    exact hf.loops lvl (by omega) hl

theorem print_ne_rparen (t : Tree) (lvl : Nat) (us : List Tok) : t.print lvl ≠ .rparen :: us := by
  induction t generalizing lvl us with
  | atom o => cases o <;> exact nofun
  | borrow n x => exact nofun
  | un k e ih => exact nofun
  | bin k l r ihl ihr =>
    rw [print]
    split
    · exact nofun
    · intro e
      cases hp : l.print (lhs k) with
      | nil =>
        rw [hp] at e
        cases e
      | cons t ts =>
        rw [hp] at e
        injection e with e
        exact ihl _ ts (e ▸ hp)

/-- the printed operands of an operator, with the operator between them -/
def infixed (k : Binop) (l r : Tree) : List Tok := l.print (lhs k) ++ .op k :: r.print (rhs k)

theorem print_bin (k : Binop) (l r : Tree) (lvl : Nat) : (bin k l r).print lvl =
    if row k < lvl then .lparen :: (infixed k l r ++ [.rparen]) else infixed k l r := rfl

/-- an operator at its own row -/
theorem form_bin {k : Binop} {l r : Tree} (hl : Good l) (hr : Good r) :
    Form (infixed k l r) (bin k l r).expr (row k) ∧
    (row k = 11 → Reads parsePow 11 (infixed k l r) (bin k l r).expr
      (32 * (infixed k l r).length + 1)) := by
  have hlen : (infixed k l r).length =
      (l.print (lhs k)).length + (r.print (rhs k)).length + 1 := by
    rw [infixed, List.length_append, List.length_cons]
    omega
  have hpos : 0 < (infixed k l r).length := by omega
  by_cases hrow : row k = 11
  · have hpow : Reads parsePow 11 (infixed k l r) (bin k l r).expr
        (32 * (infixed k l r).length + 1) := by
      have hu := hl.unary
      have hp := hr.pow
      rw [hlen, infixed, lhs, rhs, if_pos hrow, if_pos hrow, expr, row_eq_pow hrow]
      exact (hu.powBin hp).mono (by omega)
    rw [hrow]
    exact ⟨.of_pow hpos hpow, fun _ => hpow⟩
  · have hk : row k < 11 := by
      have := k.2
      omega
    have hloop : Loops (row k) (infixed k l r) (bin k l r).expr (cost (infixed k l r) (row k)) := by
      have h1 := hl.loops (row k) hk
      have h2 := hr.level (row k + 1) (by omega)
      have hb := Loops.bin hk rfl h1 h2
      rw [infixed, lhs, rhs, if_neg hrow, if_neg hrow]
      refine hb.mono ?_
      unfold cost
      rw [List.length_append, List.length_cons]
      omega
    exact ⟨.of_level hpos (by omega) (hloop.level hk hpos) fun _ => hloop, fun h => absurd h hrow⟩

theorem reads (t : Tree) : Good t := by
  induction t with
  | atom o => exact .of_unary (fun _ => rfl) ((reads_operand o).mono (show 4 ≤ 32 by decide))
  | borrow m x =>
    refine .of_unary (fun _ => rfl) ((reads_borrow m x).mono ?_)
    rw [print, List.length_append, List.length_replicate]
    omega
  | un k e ih =>
    refine .of_unary (fun _ => rfl) ((ih.unary.un k).mono ?_)
    rw [print, List.length_cons]
    omega
  | bin k l r ihl ihr =>
    obtain ⟨hform, hpow⟩ := form_bin (k := k) ihl ihr
    have hk := k.2
    have hne : ∀ us, infixed k l r ≠ .rparen :: us := by
      have := (bin k l r).print_ne_rparen 0
      rwa [print_bin, if_neg (Nat.not_lt_zero _)] at this
    have hpos : 0 < (infixed k l r).length := by
      rw [infixed, List.length_append, List.length_cons]
      omega
    -- the same in parentheses
    have hunary := ((hform.level 0 (Nat.zero_le _)).paren hne hpos).mono
      (d := 32 * (Tok.lparen :: (infixed k l r ++ [.rparen])).length) (by
        unfold cost
        rw [List.length_cons, List.length_append, List.length_singleton]
        omega)
    have hparen := Form.of_unary (by rw [List.length_cons]; omega) hunary
    refine ⟨?_, ?_, fun lvl hl => ?_, fun lvl hl => ?_⟩
    · rw [print_bin, if_pos hk]
      exact hunary
    · rw [print_bin]
      split
      · exact hunary.pow
      · exact hpow (by omega)
    · rw [print_bin]
      split
      · exact hparen.level lvl hl
      · exact hform.level lvl (by omega)
    · rw [print_bin]
      split
      · exact hparen.loops lvl (by omega) hl
      · exact hform.loops lvl (by omega) hl

/-- what was printed is parsed back -/
theorem parse_print (t : Tree) : parse (t.print 0) = some (t.expr, []) := by
  have h := t.reads.level 0 (Nat.zero_le _) (32 * (t.print 0).length + 31) []
    (by unfold cost; omega) (stops_nil 0)
  rw [List.append_nil] at h
  rw [parse, parseExpr]
  exact h

theorem marks_inj {m n : Nat} {x y : Bytes} (h : marks m x = marks n y) : m = n ∧ x = y := by
  induction m generalizing n with
  | zero =>
    cases n with
    | zero =>
      injection h with h
      injection h with h
      exact ⟨rfl, h⟩
    | succ n => cases n <;> cases h
  | succ m ih =>
    cases n with
    | zero => cases m <;> cases h
    | succ n =>
      injection h with h
      obtain ⟨e, hx⟩ := ih h
      exact ⟨congrArg (· + 1) e, hx⟩

theorem unExpr_inj {k k' : OpTok} {e e' : Expr} (h : unExpr k e = unExpr k' e') :
    k = k' ∧ e = e' := by
  unfold unExpr at h
  split at h
  · rename_i hk
    split at h
    · rename_i hk'
      injection h with h
      exact ⟨hk.trans hk'.symm, h⟩
    · cases h
  · split at h
    · cases h
    · injection h with hk he
      exact ⟨hk, he⟩

/-- the kind of the node at the root: operand, borrow, unary, binary -/
def kind : Expr → Nat
  | .bin _ _ _ => 3
  | .un _ _ => 2
  | .deref _ => 2
  | .borrow _ => 1
  | _ => 0

theorem kind_expr (t : Tree) : kind t.expr =
    match t with
    | atom _ => 0
    | borrow _ _ => 1
    | un _ _ => 2
    | bin _ _ _ => 3 := by
  cases t with
  | atom o => cases o <;> rfl
  | borrow n x => cases n <;> rfl
  | un k e =>
    rw [expr, unExpr]
    split <;> rfl
  | bin k l r => rfl

theorem expr_inj {t u : Tree} (h : t.expr = u.expr) : t = u := by
  have hk := congrArg kind h
  rw [kind_expr, kind_expr] at hk
  induction t generalizing u with
  | atom o =>
    cases u with
    | atom o' => cases o <;> cases o' <;> cases h <;> rfl
    | borrow n x => cases hk
    | un k e => cases hk
    | bin k l r => cases hk
  | borrow m x =>
    cases u with
    | borrow n y =>
      obtain ⟨rfl, rfl⟩ := marks_inj h
      rfl
    | atom o => cases hk
    | un k e => cases hk
    | bin k l r => cases hk
  | un k e ih =>
    cases u with
    | un k' e' =>
      obtain ⟨h1, h2⟩ := unExpr_inj h
      have h2' := congrArg kind h2
      rw [kind_expr, kind_expr] at h2'
      rw [Subtype.ext h1, ih h2 h2']
    | atom o => cases hk
    | borrow n x => cases hk
    | bin k l r => cases hk
  | bin k l r ihl ihr =>
    cases u with
    | bin k' l' r' =>
      injection h with h1 h2 h3
      have h2' := congrArg kind h2
      have h3' := congrArg kind h3
      rw [kind_expr, kind_expr] at h2' h3'
      rw [Subtype.ext h1, ihl h2 h2', ihr h3 h3']
    | atom o => cases hk
    | borrow n x => cases hk
    | un k e => cases hk

end Tree

/-! ## sequences without parentheses -/

/-- an operand behind its unary operators -/
inductive Item where
  | atom (o : Operand)
  | borrow (more : Nat) (x : Bytes)
  | un (k : Unop) (i : Item)

def Item.tree : Item → Tree
  | atom o => .atom o
  | borrow n x => .borrow n x
  | un k i => .un k i.tree

def Item.toks : Item → List Tok
  | atom o => [o.tok]
  | borrow n x => List.replicate (n + 1) (.op .amp) ++ [.var x]
  | un k i => .op k :: i.toks

/-- operands with binary operators between them -/
structure Seq where
  first : Item
  rest : List (Binop × Item)

def Seq.toks (s : Seq) : List Tok :=
  s.first.toks ++ s.rest.flatMap fun p => .op p.1 :: p.2.toks

/-- one operator and its operand more: at the right end, below the operators that bind less -/
def Tree.add (k : Binop) (i : Item) : Tree → Tree
  | .bin k' l r => if lhs k ≤ row k' then .bin k (.bin k' l r) i.tree else .bin k' l (r.add k i)
  | t => .bin k t i.tree

def Seq.tree (s : Seq) : Tree := s.rest.foldl (fun t p => t.add p.1 p.2) s.first.tree

theorem Item.tree_spec (i : Item) : i.tree.prec = 12 ∧ i.tree.Tight ∧ i.tree.flat = i.toks := by
  induction i with
  | atom o => exact ⟨rfl, trivial, rfl⟩
  | borrow n x => exact ⟨rfl, trivial, rfl⟩
  | un k i ih =>
    obtain ⟨h1, h2, h3⟩ := ih
    exact ⟨rfl, ⟨Nat.le_of_eq h1.symm, h2⟩, congrArg (Tok.op k.1 :: ·) h3⟩

theorem lhs_le (k : Binop) : lhs k ≤ 12 := by
  have := k.2
  unfold lhs
  split <;> omega

theorem rhs_le (k : Binop) : rhs k ≤ 12 := by
  have := k.2
  unfold rhs
  split <;> omega

/-- an operator that does not go above `k'` may stand on the right of it -/
theorem rhs_le_row {k k' : Binop} (h : ¬ lhs k ≤ row k') : rhs k' ≤ row k := by
  have := k.2
  have := k'.2
  unfold lhs at h
  unfold rhs
  split at h
  · split <;> omega
  · split <;> omega

theorem Tree.add_spec (k : Binop) (i : Item) (t : Tree) (h : t.Tight) : (t.add k i).Tight ∧
    min t.prec (row k) ≤ (t.add k i).prec ∧ (t.add k i).flat = t.flat ++ .op k :: i.toks := by
  obtain ⟨hp, ht, hf⟩ := i.tree_spec
  have hr : rhs k ≤ i.tree.prec := Nat.le_trans (rhs_le k) (Nat.le_of_eq hp.symm)
  have hflat : ∀ u : Tree, (Tree.bin k u i.tree).flat = u.flat ++ .op k :: i.toks := by
    intro u
    rw [flat, hf]
  induction t with
  | atom o => exact ⟨⟨lhs_le k, h, hr, ht⟩, Nat.min_le_right _ _, hflat _⟩
  | borrow n x => exact ⟨⟨lhs_le k, h, hr, ht⟩, Nat.min_le_right _ _, hflat _⟩
  | un k' e ih => exact ⟨⟨lhs_le k, h, hr, ht⟩, Nat.min_le_right _ _, hflat _⟩
  | bin k' l r ihl ihr =>
    rw [Tree.add]
    by_cases hk : lhs k ≤ row k'
    · rw [if_pos hk]
      exact ⟨⟨hk, h, hr, ht⟩, Nat.min_le_right _ _, hflat _⟩
    · rw [if_neg hk]
      obtain ⟨h1, h2, h3, h4⟩ := h
      obtain ⟨i1, i2, i3⟩ := ihr h4
      have := rhs_le_row hk
      refine ⟨⟨h1, h2, by omega, i1⟩, Nat.min_le_left _ _, ?_⟩
      rw [flat, i3, flat, List.append_assoc, List.cons_append]

theorem Seq.tree_spec (s : Seq) : s.tree.Tight ∧ s.tree.flat = s.toks := by
  obtain ⟨first, rest⟩ := s
  obtain ⟨-, ht, hf⟩ := first.tree_spec
  unfold Seq.tree Seq.toks
  rw [← hf]
  dsimp only
  generalize first.tree = t at ht
  induction rest generalizing t with
  | nil => exact ⟨ht, (List.append_nil _).symm⟩
  | cons p rest ih =>
    obtain ⟨h1, -, h3⟩ := t.add_spec p.1 p.2 ht
    obtain ⟨i1, i2⟩ := ih (t.add p.1 p.2) h1
    refine ⟨i1, i2.trans ?_⟩
    rw [h3, List.flatMap_cons, List.append_assoc]

theorem Tree.Tight.parse_flat {t : Tree} (h : t.Tight) : parse t.flat = some (t.expr, []) := by
  rw [← print_tight h (Nat.zero_le _)]
  exact t.parse_print

/-- **Precedence.**  Every printed tree is read back, and a sequence without parentheses is read as
the only tight tree that has its tokens. -/
theorem parse_precedence : (∀ t : Tree, parse (t.print 0) = some (t.expr, [])) ∧
    ∀ s : Seq, ∃ t : Tree, t.Tight ∧ t.flat = s.toks ∧ parse s.toks = some (t.expr, []) ∧
      ∀ u : Tree, u.Tight → u.flat = s.toks → u = t := by
  refine ⟨Tree.parse_print, fun s => ?_⟩
  obtain ⟨ht, hf⟩ := s.tree_spec
  have hparse : parse s.toks = some (s.tree.expr, []) := hf ▸ ht.parse_flat
  refine ⟨s.tree, ht, hf, hparse, fun u hu huf => ?_⟩
  have hu' := hu.parse_flat
  rw [huf, hparse] at hu'
  exact Tree.expr_inj (congrArg Prod.fst (Option.some.inj hu')).symm

end Parser
end HolyPhp
