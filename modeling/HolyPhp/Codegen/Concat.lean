import HolyPhp.Lib.Balanced
import HolyPhp.Runtime.Value

/-!
# Concatenation chains

* `Expr`           expressions with `.`, over expressions of other kinds;
* `dotChainLen`, `dotCollect`, `emitDotChain`  the functions of the emitter;
* `emitExpr`       the calls of `hp_str_concat_v` that are emitted;
* `operands`       the operands of a chain: a chain in brackets on the right is one of them;
* `concat_balanced`  **the operands are collected in order, the balanced calls return what the
                   nested ones do, and are nested `log2 n` deep.**
-/

set_option autoImplicit false

namespace HolyPhp
namespace Concat
open Balanced

inductive Expr (α : Type) where
  /-- not an `EX_BIN` with `.` -/
  | atom (a : α)
  | dot (l r : Expr α)

variable {α : Type}

/-! ## the emitter -/

def dotChainLen : Expr α → Nat
  | .atom _ => 1
  | .dot l _ => dotChainLen l + 1

/-- the array `out`, where `none` has not been written, and the count -/
def dotCollect (cap : Nat) : Expr α → (Nat → Option (Expr α)) → (Nat → Option (Expr α)) × Nat
  | .dot l r, out =>
    let (out, n) := dotCollect cap l out
    (if n < cap then Function.update out n (some r) else out, if cap < n + 1 then cap else n + 1)
  | .atom a, out =>
    if 0 < cap then (Function.update out 0 (some (.atom a)), 1) else (out, 0)

/-- the parts from `lo` up to `hi`, each by `emit_expr` -/
def emitDotChain (emitPart : Expr α → Option (Balanced.Tree α)) (parts : Nat → Option (Expr α))
    (lo hi : Nat) : Option (Balanced.Tree α) :=
  build (fun i => (parts i).bind emitPart) lo hi

/-- `emit_expr`, with the calls nested in one another `fuel` deep at most -/
def emitExpr : Nat → Expr α → Option (Balanced.Tree α)
  | 0, _ => none
  | _ + 1, .atom a => some (.leaf a)
  | fuel + 1, .dot l r =>
    if 3 < dotChainLen (.dot l r) then
      let (parts, n) := dotCollect (dotChainLen (.dot l r)) (.dot l r) fun _ => none
      emitDotChain (emitExpr fuel) parts 0 n
    else
      (emitExpr fuel l).bind fun a => (emitExpr fuel r).map (.node a)

/-! ## chains -/

/-- the operands of a chain, down the left side -/
def operands : Expr α → List (Expr α)
  | .atom a => [.atom a]
  | .dot l r => operands l ++ [r]

/-- as it is written: `l . r` is one call -/
def Expr.tree : Expr α → Balanced.Tree α
  | .atom a => .leaf a
  | .dot l r => .node l.tree r.tree

def Expr.height : Expr α → Nat
  | .atom _ => 1
  | .dot l r => max l.height r.height + 1

theorem length_operands (e : Expr α) : (operands e).length = dotChainLen e := by
  induction e with
  | atom a => rfl
  | dot l r ihl _ =>
    rw [operands, List.length_append, ihl]
    rfl

/-- the operands one after the other are the whole -/
theorem leaves_operands (e : Expr α) :
    (operands e).flatMap (fun o => o.tree.leaves) = e.tree.leaves := by
  induction e with
  | atom a => rfl
  | dot l r ihl _ =>
    rw [operands, List.flatMap_append, ihl, List.flatMap_singleton]
    rfl

theorem height_operand {l r o : Expr α} (h : o ∈ operands (.dot l r)) :
    o.height < (Expr.dot l r).height := by
  have hle : ∀ (e o : Expr α), o ∈ operands e → o.height ≤ e.height := by
    intro e
    induction e with
    | atom a =>
      intro o ho
      exact (List.mem_singleton.1 ho) ▸ Nat.le_refl _
    | dot l r ihl _ =>
      intro o ho
      rcases List.mem_append.1 ho with ho | ho
      · exact Nat.le_trans (ihl o ho) (Nat.le_succ_of_le (Nat.le_max_left _ _))
      · rw [List.mem_singleton.1 ho]
        exact Nat.le_succ_of_le (Nat.le_max_right _ _)
  rcases List.mem_append.1 h with ho | ho
  · exact Nat.lt_succ_of_le (Nat.le_trans (hle l o ho) (Nat.le_max_left _ _))
  · rw [List.mem_singleton.1 ho]
    exact Nat.lt_succ_of_le (Nat.le_max_right _ _)

/-- **All operands are collected in order**, if there is room. -/
theorem dotCollect_spec {cap : Nat} {e : Expr α} (h : dotChainLen e ≤ cap)
    (out : Nat → Option (Expr α)) :
    (dotCollect cap e out).2 = dotChainLen e ∧
      ∀ i < dotChainLen e, (dotCollect cap e out).1 i = (operands e)[i]? := by
  induction e generalizing out with
  | atom a =>
    have hc : dotCollect cap (.atom a) out = (Function.update out 0 (some (.atom a)), 1) :=
      if_pos h
    rw [hc]
    refine ⟨rfl, fun i hi => ?_⟩
    obtain rfl : i = 0 := Nat.lt_one_iff.1 hi
    exact Function.update_self 0 _ out
  | dot l r ihl _ =>
    have hl : dotChainLen l + 1 ≤ cap := h
    obtain ⟨hn, hout⟩ := ihl (by omega) out
    have hc : dotCollect cap (.dot l r) out =
        (Function.update (dotCollect cap l out).1 (dotChainLen l) (some r), dotChainLen l + 1) := by
      rw [dotCollect]
      cases hd : dotCollect cap l out with
      | mk out' n =>
        rw [hd] at hn
        obtain rfl : n = dotChainLen l := hn
        dsimp only
        rw [if_pos (by omega), if_neg (by omega)]
    rw [hc]
    refine ⟨rfl, fun i hi => ?_⟩
    have hi' : i < dotChainLen l + 1 := hi
    rw [operands]
    by_cases hil : i = dotChainLen l
    · subst hil
      rw [← length_operands, List.getElem?_concat_length]
      exact Function.update_self _ _ _
    · have hlt : i < dotChainLen l := by omega
      rw [List.getElem?_append_left (length_operands l ▸ hlt), ← hout i hlt]
      exact Function.update_of_ne hil _ _

theorem between_operands {g : Nat → Balanced.Tree α} {ops : List (Expr α)}
    (h : ∀ i (hi : i < ops.length), (g i).leaves = ops[i].tree.leaves) :
    between g 0 ops.length = ops.flatMap fun o => o.tree.leaves := by
  unfold between
  rw [List.flatMap_def, List.flatMap_def]
  congr 1
  apply List.ext_getElem
  · rw [List.length_map, List.length_map, List.length_range']
  · intro i h1 h2
    rw [List.length_map] at h2
    rw [List.getElem_map, List.getElem_map, List.getElem_range', Nat.one_mul, Nat.zero_add]
    exact h i h2

/-- **The balanced calls** have all that is written, in order, and are as deep as the operands and
the logarithm of their number. -/
theorem emitDotChain_spec (emitPart : Expr α → Option (Balanced.Tree α)) (e : Expr α)
    (hpart : ∀ o ∈ operands e, ∃ t, emitPart o = some t ∧ t.leaves = o.tree.leaves) :
    ∃ t, emitDotChain emitPart (dotCollect (dotChainLen e) e fun _ => none).1 0
        (dotCollect (dotChainLen e) e fun _ => none).2 = some t ∧
      t.leaves = e.tree.leaves ∧
      ∀ d, (∀ o ∈ operands e, ∀ u, emitPart o = some u → u.depth ≤ d) →
        t.depth ≤ Nat.clog 2 (operands e).length + d := by
  obtain ⟨hn, hout⟩ := dotCollect_spec (Nat.le_refl _) (fun _ => none) (e := e)
  have hlen := length_operands e
  have hpos : 0 < dotChainLen e := by cases e <;> exact Nat.succ_pos _
  -- the calls that are emitted for the operands
  have hex : ∀ i, ∃ t : Balanced.Tree α, ∀ hi : i < (operands e).length,
      emitPart (operands e)[i] = some t ∧ t.leaves = ((operands e)[i]).tree.leaves := by
    intro i
    by_cases hi : i < (operands e).length
    · obtain ⟨t, ht⟩ := hpart _ (List.getElem_mem hi)
      exact ⟨t, fun _ => ht⟩
    · exact ⟨e.tree, fun h => absurd h hi⟩
  choose g hg using hex
  have hf : ∀ i, 0 ≤ i → i < dotChainLen e →
      ((dotCollect (dotChainLen e) e fun _ => none).1 i).bind emitPart = some (g i) := by
    intro i _ hi
    rw [hout i hi, List.getElem?_eq_getElem (hlen ▸ hi)]
    exact (hg i (hlen ▸ hi)).1
  obtain ⟨t, ht, hleaves, hdepth⟩ := build_spec hpos hf
  refine ⟨t, ?_, ?_, fun d hd => ?_⟩
  · rw [hn]
    exact ht
  · rw [hleaves, Nat.sub_zero, ← hlen, between_operands fun i hi => (hg i hi).2, leaves_operands]
  · refine hdepth d (fun i _ hi => ?_) _ ?_
    · exact hd _ (List.getElem_mem (hlen ▸ hi)) _ (hg i (hlen ▸ hi)).1
    · rw [Nat.sub_zero, hlen]
      exact (Nat.clog_le_iff_le_pow Nat.one_lt_two).1 (Nat.le_refl _)

/-- **All that is written is emitted**, in order. -/
theorem emitExpr_spec {fuel : Nat} {e : Expr α} (h : e.height ≤ fuel) :
    ∃ t, emitExpr fuel e = some t ∧ t.leaves = e.tree.leaves := by
  induction fuel generalizing e with
  | zero => cases e <;> exact absurd h (Nat.not_succ_le_zero _)
  | succ fuel ih =>
    cases e with
    | atom a => exact ⟨.leaf a, rfl, rfl⟩
    | dot l r =>
      rw [emitExpr]
      split
      · obtain ⟨t, ht, hl, -⟩ := emitDotChain_spec (emitExpr fuel) (.dot l r)
          fun o ho => ih (Nat.le_of_lt_succ (Nat.lt_of_lt_of_le (height_operand ho) h))
        exact ⟨t, ht, hl⟩
      · have hh : max l.height r.height + 1 ≤ fuel + 1 := h
        obtain ⟨a, ha, hal⟩ := ih (e := l) (by omega)
        obtain ⟨b, hb, hbl⟩ := ih (e := r) (by omega)
        refine ⟨.node a b, ?_, ?_⟩
        · rw [ha, Option.bind_some, hb]
          rfl
        · rw [Balanced.Tree.leaves, hal, hbl]
          rfl

theorem height_operand_le {e o : Expr α} (h : o ∈ operands e) : o.height ≤ e.height := by
  cases e with
  | atom a => exact (List.mem_singleton.1 h) ▸ Nat.le_refl _
  | dot l r => exact (height_operand h).le

/-- a chain, for an operation on the values of the parts -/
structure Right {β : Type} (op : β → β → β) (f : α → β) (e : Expr α) (fuel : Nat) : Prop where
  /-- the operands are collected in order -/
  collected : (dotCollect (dotChainLen e) e fun _ => none).2 = (operands e).length ∧
    ∀ i < (operands e).length, (dotCollect (dotChainLen e) e fun _ => none).1 i = (operands e)[i]?
  /-- the balanced calls return what the nested ones do, and are `log2 n` deep above the operands -/
  balanced : ∃ t, emitDotChain (emitExpr fuel) (dotCollect (dotChainLen e) e fun _ => none).1 0
      (dotCollect (dotChainLen e) e fun _ => none).2 = some t ∧
    t.eval op f = e.tree.eval op f ∧
    ∀ d, (∀ o ∈ operands e, ∀ u, emitExpr fuel o = some u → u.depth ≤ d) →
      t.depth ≤ Nat.clog 2 (operands e).length + d
  /-- so does all that is emitted, with the chains in the operands -/
  emitted : ∃ t, emitExpr fuel e = some t ∧ t.eval op f = e.tree.eval op f

/-- **A balanced chain is the chain** for an associative operation. -/
theorem concat_balanced {β : Type} {op : β → β → β}
    (hop : ∀ a b c, op (op a b) c = op a (op b c)) (f : α → β) {e : Expr α} {fuel : Nat}
    (h : e.height ≤ fuel) : Right op f e fuel := by
  obtain ⟨hn, hout⟩ := dotCollect_spec (Nat.le_refl (dotChainLen e)) fun _ => none
  have hlen := length_operands e
  refine ⟨⟨hn.trans hlen.symm, fun i hi => hout i (hlen ▸ hi)⟩, ?_, ?_⟩
  · obtain ⟨t, ht, hl, hd⟩ := emitDotChain_spec (emitExpr fuel) e
      fun o ho => emitExpr_spec (Nat.le_trans (height_operand_le ho) h)
    exact ⟨t, ht, eval_eq hop hl, hd⟩
  · obtain ⟨t, ht, hl⟩ := emitExpr_spec h
    exact ⟨t, ht, eval_eq hop hl⟩

/-- `"a" . "b" . ("c" . "d") . "e"` -/
def fiveParts : Expr Bytes :=
  .dot (.dot (.dot (.atom [97]) (.atom [98])) (.dot (.atom [99]) (.atom [100]))) (.atom [101])

theorem concat_fiveParts : Right (fun a b : Bytes => a ++ b) id fiveParts 4 :=
  concat_balanced List.append_assoc id (by decide)

end Concat
end HolyPhp
