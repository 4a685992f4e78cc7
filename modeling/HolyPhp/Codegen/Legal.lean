import HolyPhp.Codegen.Jumps

/-!
# Where the emitted code is C

* `emit_span`   the labels of what is emitted are those from `label_id` on, each once;
* `emit_legal`  **what is emitted for an accepted statement is legal if and only if the statement
                fits.**
-/

namespace HolyPhp
namespace Emit

/-! ## labels -/

/-- distinct numbers from `a` up to `b` -/
structure Span (ls : List Nat) (a b : Nat) : Prop where
  le : a ≤ b
  mem : ∀ l ∈ ls, a ≤ l ∧ l < b
  nodup : ls.Nodup

namespace Span
variable {ls ms : List Nat} {a b c : Nat}

theorem nil (h : a ≤ b) : Span [] a b := ⟨h, nofun, List.nodup_nil⟩

theorem append (h1 : Span ls a b) (h2 : Span ms b c) : Span (ls ++ ms) a c where
  le := Nat.le_trans h1.le h2.le
  mem := by
    intro l hl
    rcases List.mem_append.1 hl with h | h
    · exact ⟨(h1.mem l h).1, Nat.lt_of_lt_of_le (h1.mem l h).2 h2.le⟩
    · exact ⟨Nat.le_trans h1.le (h2.mem l h).1, (h2.mem l h).2⟩
  nodup := by
    rw [List.nodup_append]
    refine ⟨h1.nodup, h2.nodup, fun l hl m hm => ?_⟩
    have hlt := Nat.lt_of_lt_of_le (h1.mem l hl).2 (h2.mem m hm).1
    exact Nat.ne_of_lt hlt

theorem weaken (h0 : a ≤ b) (h : Span ls b c) : Span ls a c where
  le := Nat.le_trans h0 h.le
  mem := by
    intro l hl
    exact ⟨Nat.le_trans h0 (h.mem l hl).1, (h.mem l hl).2⟩
  nodup := h.nodup

/-- the label of a loop comes before those in its body, and stands behind them -/
theorem label (h : Span ls (a + 1) b) : Span (ls ++ [a]) a b where
  le := Nat.le_of_succ_le h.le
  mem := by
    intro l hl
    rcases List.mem_append.1 hl with hm | hm
    · exact ⟨Nat.le_of_succ_le (h.mem l hm).1, (h.mem l hm).2⟩
    · rw [List.mem_singleton.1 hm]
      exact ⟨Nat.le_refl a, h.le⟩
  nodup := by
    rw [List.nodup_append]
    refine ⟨h.nodup, List.pairwise_singleton _ a, fun l hl m hm => ?_⟩
    rw [List.mem_singleton.1 hm]
    exact (Nat.ne_of_lt (h.mem l hl).1).symm

end Span

theorem labelsAll_append (as bs : List CStmt) :
    labelsAll (as ++ bs) = labelsAll as ++ labelsAll bs := by
  induction as with
  | nil => rfl
  | cons a as ih => rw [List.cons_append, labelsAll, ih, labelsAll, List.append_assoc]

theorem labelsAll_acts (as : List Nat) : labelsAll (as.map .act) = [] := by
  induction as with
  | nil => rfl
  | cons a as ih =>
    rw [List.map_cons, labelsAll, ih]
    rfl

/-- the labels of a loop body with its label and the steps behind it -/
theorem labelsAll_body (body : List CStmt) (l : Nat) (as : List Nat) :
    labelsAll (body ++ .label l :: as.map .act) = labelsAll body ++ [l] := by
  rw [labelsAll_append, labelsAll, labelsAll_acts]
  rfl

mutual

theorem emit_span (g : Codegen) : ∀ (c : Stmt) (id : Nat),
    Span (labels (emit g c id).1) id (emit g c id).2
  | .act _, id => .nil (Nat.le_refl id)
  | .if_ _ t e, id => (emitBlock_span g t id).append (emitBlock_span g e _)
  | .while_ c body, id => by
    have h := (emitBlock_span (g.inLoop id) body (id + 1)).label
    rw [← labelsAll_body _ id []] at h
    exact h
  | .do_ body c, id => by
    have h := (emitBlock_span (g.inLoop id) body (id + 1)).label
    rw [← labelsAll_body _ id []] at h
    exact h
  | .for_ init c step body, id => by
    have h := (emitBlock_span (g.inLoop id) body (id + 1)).label
    rw [← labelsAll_body _ id step] at h
    show Span (labelsAll (init.map .act ++ [.while_ c _])) id _
    rw [labelsAll_append, labelsAll_acts, labelsAll, labelsAll, List.append_nil]
    exact h
  | .foreach_ iter next body, id => by
    have h := (emitBlock_span (g.inLoop id) body (id + 1)).label
    rw [← labelsAll_body _ id []] at h
    show Span (labelsAll [.act iter, .while_ (some next) _]) id _
    rw [labelsAll, labelsAll, labelsAll, List.append_nil]
    exact h
  | .switch_ isStr c cases, id => by
    cases isStr with
    | false => exact emitCases_span g.inSwitch cases id
    | true => exact emitCases_span g.inSwitch cases id
  | .break_, id => by
    show Span (labels g.break_) id id
    rw [Codegen.break_]
    split <;> exact .nil (Nat.le_refl id)
  | .continue_, id => by
    show Span (labels g.continue_) id id
    rw [Codegen.continue_]
    split
    · exact .nil (Nat.le_refl id)
    · split <;> exact .nil (Nat.le_refl id)
  | .return_ value, id => by
    show Span (labels (g.return_ value)) id id
    rw [Codegen.return_]
    split <;> exact .nil (Nat.le_refl id)
  | .block b, id => emitBlock_span g b id
  | .try_ body catches fin, id => by
    have h1 := (emitBlock_span g.inHelper body id).le
    have h2 := (emitCatches_span g.inHelper catches (emitBlock g.inHelper body id).2).le
    exact (emitBlock_span g fin _).weaken (Nat.le_trans h1 h2)

theorem emitBlock_span (g : Codegen) : ∀ (cs : List Stmt) (id : Nat),
    Span (labelsAll (emitBlock g cs id).1) id (emitBlock g cs id).2
  | [], id => .nil (Nat.le_refl id)
  | c :: rest, id => (emit_span g c id).append (emitBlock_span g rest _)

theorem emitCases_span (g : Codegen) : ∀ (cs : List SwitchCase) (id : Nat),
    Span (labelsCases (emitCases g cs id).1) id (emitCases g cs id).2
  | [], id => .nil (Nat.le_refl id)
  | .mk _ body :: rest, id => (emitBlock_span g body id).append (emitCases_span g rest _)

theorem emitCatches_span (g : Codegen) : ∀ (cs : List CatchClause) (id : Nat),
    Span (labelsClauses (emitCatches g cs id).1) id (emitCatches g cs id).2
  | [], id => .nil (Nat.le_refl id)
  | .mk _ body :: rest, id => (emitBlock_span g body id).append (emitCatches_span g rest _)

end

/-! ## places in C -/

/-- the place in C of what is emitted at a place that matches: among the labels of the function
are those of the loops in it, and none of those of the loops around it -/
structure InScope (sc : CScope) (g : Codegen) (k : Nest) : Prop where
  breakable : sc.breakable = decide (0 < k.depth)
  loop : sc.loop = (decide (0 < k.loops) || k.once)
  own : ∀ l ∈ g.loopLabels.take k.loops, l ∈ sc.labels
  other : ∀ l ∈ g.loopLabels.drop k.loops, l ∉ sc.labels

section legal
variable {sc : CScope} {g : Codegen} {k : Nest}

theorem InScope.inLoop (h : InScope sc g k) {l : Nat} (hl : l ∈ sc.labels) :
    InScope sc.inLoop (g.inLoop l) k.loop where
  breakable := (decide_eq_true (Nat.succ_pos _)).symm
  loop := by
    show true = (decide (0 < k.loops + 1) || k.once)
    rw [decide_eq_true (Nat.succ_pos _), Bool.true_or]
  own := by
    intro m hm
    rcases List.mem_cons.1 hm with rfl | hm
    · exact hl
    · exact h.own m hm
  other := h.other

theorem InScope.inSwitch (h : InScope sc g k) :
    InScope sc.inSwitch g.inSwitch (k.switch false) where
  breakable := (decide_eq_true (Nat.succ_pos _)).symm
  loop := by
    show sc.loop = (decide (0 < k.loops) || (k.once || false))
    rw [Bool.or_false, h.loop]
  own := h.own
  other := h.other

/-- a switch on strings is a loop in C -/
theorem InScope.once (h : InScope sc g k) : InScope sc.inLoop g.inSwitch (k.switch true) where
  breakable := (decide_eq_true (Nat.succ_pos _)).symm
  loop := by
    show true = (decide (0 < k.loops) || (k.once || true))
    rw [Bool.or_true, Bool.or_true]
  own := h.own
  other := h.other

/-- a helper, with labels from `id` on -/
theorem InScope.helper {ls : List Nat} {id id' : Nat} (hlt : ∀ l ∈ g.loopLabels, l < id)
    (h : Span ls id id') : InScope (.function ls) g.inHelper k.tried where
  breakable := rfl
  loop := rfl
  own := nofun
  other := by
    intro l hl hm
    exact Nat.lt_irrefl _ (Nat.lt_of_lt_of_le (hlt l hl) (h.mem l hm).1)

theorem legalAll_append (as bs : List CStmt) :
    legalAll sc (as ++ bs) = (legalAll sc as && legalAll sc bs) := by
  induction as with
  | nil => rfl
  | cons a as ih => rw [List.cons_append, legalAll, ih, legalAll, Bool.and_assoc]

theorem legalAll_acts (as : List Nat) : legalAll sc (as.map .act) = true := by
  induction as with
  | nil => rfl
  | cons a as ih =>
    rw [List.map_cons, legalAll, ih]
    rfl

theorem legalAll_body (body : List CStmt) (l : Nat) (as : List Nat) :
    legalAll sc (body ++ .label l :: as.map .act) = legalAll sc body := by
  rw [legalAll_append, legalAll, legalAll_acts]
  exact Bool.and_true _

/-- the label of the innermost loop, and whether that loop stands in this function -/
theorem InScope.contains_top (h : InScope sc g k) {l : Nat} {ls : List Nat}
    (hl : g.loopLabels = l :: ls) : sc.labels.contains l = decide (0 < k.loops) := by
  by_cases hk : 0 < k.loops
  · rw [decide_eq_true hk, List.contains_iff_mem]
    apply h.own
    obtain ⟨m, hm⟩ := Nat.exists_eq_add_of_lt hk
    rw [hl, hm, Nat.zero_add, List.take_succ_cons]
    exact List.mem_cons_self
  · rw [decide_eq_false hk, Bool.eq_false_iff]
    intro hc
    refine h.other l ?_ (List.contains_iff_mem.1 hc)
    rw [Nat.eq_zero_of_not_pos hk, List.drop_zero, hl]
    exact List.mem_cons_self

section jumps
variable (hg : Matches g k) (hs : InScope sc g k)
include hg hs

theorem legal_break (ha : 0 < k.allDepth) : legal sc g.break_ = true := by
  rw [Codegen.break_, hg.out_iff]
  split
  · rfl
  · next h =>
    show sc.breakable = true
    rw [hs.breakable]
    apply decide_eq_true
    by_cases ht : 0 < k.tries
    · exact Nat.pos_of_ne_zero fun hd => h (decide_eq_true ⟨ht, hd⟩)
    · rw [(hg.own (Nat.eq_zero_of_not_pos ht)).2]
      exact ha

theorem legal_continue : legal sc g.continue_ = fits k .continue_ := by
  rw [Codegen.continue_, hg.out_iff, fits, ← Bool.decide_and]
  by_cases h : 0 < k.tries ∧ k.depth = 0
  · rw [decide_eq_true h, Bool.true_or]
    rfl
  · rw [decide_eq_false h, Bool.false_or, if_neg Bool.false_ne_true]
    cases hl : g.loopLabels with
    | nil =>
      have h0 : k.allLoops = 0 := by rw [← hg.labels, hl, List.length_nil]
      have h1 : ¬ 0 < k.loops := by
        have := hg.loops_all
        omega
      show sc.loop = _
      rw [hs.loop, decide_eq_false h1, Bool.false_or, if_neg (by omega)]
    | cons l ls =>
      have h0 : 0 < k.allLoops := by
        rw [← hg.labels, hl, List.length_cons]
        exact Nat.succ_pos _
      show sc.labels.contains l = _
      rw [hs.contains_top hl, if_pos h0]

theorem legal_disp : g.disp.legal sc =
    (decide (0 < k.tries) || decide (k.depth = 0) || decide (0 < k.allLoops) || k.once) := by
  by_cases ht : 0 < k.tries
  · rw [hg.disp_helper ht, decide_eq_true ht, Bool.true_or, Bool.true_or, Bool.true_or]
    rfl
  · have hown := hg.own (Nat.eq_zero_of_not_pos ht)
    rw [hg.disp_here ht, decide_eq_false ht, Bool.false_or]
    by_cases hd : 0 < k.depth
    · rw [if_pos hd, decide_eq_false (Nat.ne_of_gt hd), Bool.false_or]
      cases hl : g.loopLabels with
      | nil =>
        have h0 : ¬ 0 < k.allLoops := by rw [← hg.labels, hl, List.length_nil]; omega
        show (sc.breakable && sc.loop) = _
        rw [hs.breakable, hs.loop, hown.1, decide_eq_true hd, decide_eq_false h0, Bool.true_and]
      | cons l ls =>
        have h0 : 0 < k.allLoops := by
          rw [← hg.labels, hl, List.length_cons]
          exact Nat.succ_pos _
        show (sc.breakable && sc.labels.contains l) = _
        rw [hs.breakable, hs.contains_top hl, hown.1, decide_eq_true hd, decide_eq_true h0]
        rfl
    · rw [if_neg hd, decide_eq_true (Nat.eq_zero_of_not_pos hd), Bool.true_or, Bool.true_or]
      rfl

end jumps

/-- the helpers of a `try` are text of the function that is written, where 8 are nested -/
theorem Matches.inside (hg : Matches g k) :
    decide (g.out = some g.hlevel) = !decide (k.tries < 8) := by
  rw [hg.out, Codegen.hlevel, hg.helperDepth]
  by_cases ht : k.tries = 0
  · rw [if_pos ht, ht]
    rfl
  · rw [if_neg ht, ← decide_not, decide_eq_decide, Option.some.injEq]
    omega

theorem lt_inLoop {id : Nat} (hlt : ∀ l ∈ g.loopLabels, l < id) :
    ∀ l ∈ (g.inLoop id).loopLabels, l < id + 1 := by
  intro l hl
  rcases List.mem_cons.1 hl with rfl | hl
  · exact Nat.lt_succ_self l
  · exact Nat.lt_succ_of_lt (hlt l hl)

theorem lt_later {ls : List Nat} {id id' : Nat} (hlt : ∀ l ∈ ls, l < id) (h : id ≤ id') :
    ∀ l ∈ ls, l < id' := by
  intro l hl
  exact Nat.lt_of_lt_of_le (hlt l hl) h

/-- the labels of a loop: those in its body and its own -/
theorem sub_body {body : List CStmt} {id : Nat} (as : List Nat)
    (hsub : ∀ l ∈ labelsAll (body ++ .label id :: as.map .act), l ∈ sc.labels) :
    id ∈ sc.labels ∧ ∀ l ∈ labelsAll body, l ∈ sc.labels := by
  rw [labelsAll_body] at hsub
  refine ⟨hsub id (List.mem_append_right _ List.mem_cons_self), fun l hl => ?_⟩
  exact hsub l (List.mem_append_left _ hl)

mutual

theorem emit_legal {sc : CScope} {g : Codegen} {k : Nest} (hg : Matches g k) (hs : InScope sc g k) :
    ∀ (c : Stmt) (id : Nat), (∀ l ∈ g.loopLabels, l < id) →
      (∀ l ∈ labels (emit g c id).1, l ∈ sc.labels) → accepts k.allDepth c = true →
      legal sc (emit g c id).1 = fits k c
  | .act _, _, _, _, _ => rfl
  | .if_ _ t e, id, hlt, hsub, ha => by
    rw [accepts, Bool.and_eq_true] at ha
    have h1 := emitBlock_legal hg hs t id hlt (fun l hl => hsub l (List.mem_append_left _ hl)) ha.1
    have h2 := emitBlock_legal hg hs e _ (lt_later hlt (emitBlock_span g t id).le)
      (fun l hl => hsub l (List.mem_append_right _ hl)) ha.2
    rw [fits, ← h1, ← h2]
    rfl
  | .while_ c body, id, hlt, hsub, ha => by
    obtain ⟨hid, hbody⟩ := sub_body [] hsub
    have h := emitBlock_legal (hg.loop id) (hs.inLoop hid) body (id + 1) (lt_inLoop hlt) hbody ha
    rw [fits, ← h, ← legalAll_body _ id []]
    rfl
  | .do_ body c, id, hlt, hsub, ha => by
    obtain ⟨hid, hbody⟩ := sub_body [] hsub
    have h := emitBlock_legal (hg.loop id) (hs.inLoop hid) body (id + 1) (lt_inLoop hlt) hbody ha
    rw [fits, ← h, ← legalAll_body _ id []]
    rfl
  | .for_ init c step body, id, hlt, hsub, ha => by
    have hsub' : ∀ l ∈ labelsAll ((emitBlock (g.inLoop id) body (id + 1)).1 ++
        .label id :: step.map .act), l ∈ sc.labels := by
      intro l hl
      refine hsub l ?_
      show l ∈ labelsAll (init.map .act ++ [.while_ c _])
      rw [labelsAll_append, labelsAll_acts, labelsAll, labelsAll, List.append_nil]
      exact hl
    obtain ⟨hid, hbody⟩ := sub_body step hsub'
    have h := emitBlock_legal (hg.loop id) (hs.inLoop hid) body (id + 1) (lt_inLoop hlt) hbody ha
    rw [fits, ← h, ← legalAll_body _ id step]
    show legalAll sc (init.map .act ++ [.while_ c _]) = _
    rw [legalAll_append, legalAll_acts, legalAll, legalAll, Bool.and_true]
    rfl
  | .foreach_ iter next body, id, hlt, hsub, ha => by
    have hsub' : ∀ l ∈ labelsAll ((emitBlock (g.inLoop id) body (id + 1)).1 ++ [.label id]),
        l ∈ sc.labels := by
      intro l hl
      refine hsub l ?_
      show l ∈ [] ++ (labelsAll _ ++ [])
      rw [List.nil_append, List.append_nil]
      exact hl
    obtain ⟨hid, hbody⟩ := sub_body [] hsub'
    have h := emitBlock_legal (hg.loop id) (hs.inLoop hid) body (id + 1) (lt_inLoop hlt) hbody ha
    rw [fits, ← h, ← legalAll_body _ id []]
    show (true && (legalAll sc.inLoop _ && true)) = _
    rw [Bool.true_and, Bool.and_true]
    rfl
  | .switch_ isStr c cases, id, hlt, hsub, ha => by
    cases isStr with
    | false => exact emitCases_legal (hg.switch false) hs.inSwitch cases id hlt hsub ha
    | true => exact emitCases_legal (hg.switch true) hs.once cases id hlt hsub ha
  | .break_, _, _, _, ha => legal_break hg hs (of_decide_eq_true ha)
  | .continue_, _, _, _, _ => legal_continue hg hs
  | .return_ value, id, _, _, _ => by
    show legal sc (g.return_ value) = true
    rw [Codegen.return_]
    split <;> rfl
  | .block b, id, hlt, hsub, ha => emitBlock_legal hg hs b id hlt hsub ha
  | .try_ body catches fin, id, hlt, hsub, ha => by
    rw [accepts, Bool.and_eq_true, Bool.and_eq_true] at ha
    have hb := emitBlock_span g.inHelper body id
    have hc := emitCatches_span g.inHelper catches (emitBlock g.inHelper body id).2
    have hlt1 := lt_later hlt hb.le
    have h1 := emitBlock_legal hg.tried (InScope.helper hlt hb) body id hlt (fun l hl => hl) ha.1
    have h2 := emitCatches_legal hg.tried (InScope.helper hlt1 hc) catches _ hlt1 (fun l hl => hl)
      ha.2.1
    have h3 := emitBlock_legal hg hs fin _ (lt_later hlt1 hc.le) hsub ha.2.2
    rw [fits, ← h1, ← h2, ← h3, ← legal_disp hg hs, ← Bool.not_not (decide (k.tries < 8)),
      ← hg.inside]
    show (!decide (g.out = some g.hlevel) && (decide _ && (_ && (decide _ && (_ && (_ && _)))))) = _
    rw [decide_eq_true hb.nodup, decide_eq_true hc.nodup, Bool.true_and, Bool.true_and]
    congr 1
    rw [Bool.and_comm (g.disp.legal sc), Bool.and_assoc, Bool.and_assoc]

theorem emitBlock_legal {sc : CScope} {g : Codegen} {k : Nest} (hg : Matches g k)
    (hs : InScope sc g k) :
    ∀ (cs : List Stmt) (id : Nat), (∀ l ∈ g.loopLabels, l < id) →
      (∀ l ∈ labelsAll (emitBlock g cs id).1, l ∈ sc.labels) →
      acceptsAll k.allDepth cs = true → legalAll sc (emitBlock g cs id).1 = fitsAll k cs
  | [], _, _, _, _ => rfl
  | c :: rest, id, hlt, hsub, ha => by
    rw [acceptsAll, Bool.and_eq_true] at ha
    have h1 := emit_legal hg hs c id hlt (fun l hl => hsub l (List.mem_append_left _ hl)) ha.1
    have h2 := emitBlock_legal hg hs rest _ (lt_later hlt (emit_span g c id).le)
      (fun l hl => hsub l (List.mem_append_right _ hl)) ha.2
    rw [fitsAll, ← h1, ← h2]
    rfl

theorem emitCases_legal {sc : CScope} {g : Codegen} {k : Nest} (hg : Matches g k)
    (hs : InScope sc g k) :
    ∀ (cs : List SwitchCase) (id : Nat), (∀ l ∈ g.loopLabels, l < id) →
      (∀ l ∈ labelsCases (emitCases g cs id).1, l ∈ sc.labels) →
      acceptsCases k.allDepth cs = true → legalCases sc (emitCases g cs id).1 = fitsCases k cs
  | [], _, _, _, _ => rfl
  | .mk _ body :: rest, id, hlt, hsub, ha => by
    rw [acceptsCases, Bool.and_eq_true] at ha
    have h1 := emitBlock_legal hg hs body id hlt (fun l hl => hsub l (List.mem_append_left _ hl)) ha.1
    have h2 := emitCases_legal hg hs rest _ (lt_later hlt (emitBlock_span g body id).le)
      (fun l hl => hsub l (List.mem_append_right _ hl)) ha.2
    rw [fitsCases, ← h1, ← h2]
    rfl

theorem emitCatches_legal {sc : CScope} {g : Codegen} {k : Nest} (hg : Matches g k)
    (hs : InScope sc g k) :
    ∀ (cs : List CatchClause) (id : Nat), (∀ l ∈ g.loopLabels, l < id) →
      (∀ l ∈ labelsClauses (emitCatches g cs id).1, l ∈ sc.labels) →
      acceptsCatches k.allDepth cs = true →
      legalClauses sc (emitCatches g cs id).1 = fitsCatches k cs
  | [], _, _, _, _ => rfl
  | .mk _ body :: rest, id, hlt, hsub, ha => by
    rw [acceptsCatches, Bool.and_eq_true] at ha
    have h1 := emitBlock_legal hg hs body id hlt (fun l hl => hsub l (List.mem_append_left _ hl)) ha.1
    have h2 := emitCatches_legal hg hs rest _ (lt_later hlt (emitBlock_span g body id).le)
      (fun l hl => hsub l (List.mem_append_right _ hl)) ha.2
    rw [fitsCatches, ← h1, ← h2]
    rfl

end

end legal

end Emit
end HolyPhp
