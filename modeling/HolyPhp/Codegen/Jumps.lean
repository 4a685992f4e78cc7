import HolyPhp.Codegen.Emit

/-!
# Leaving a `try`: the emitted code follows the source

`Matches g k`: the fields of `Codegen` at a statement that stands at `k`.  What a statement does
and what the code emitted for it does agree (`Sim`), where the statement `fits` and the run is
not lost: the variables are the same, and the exit of the C code is the `image` of the exit of
the statement.  In a helper that is an action number for every exit out of it.

* `emit_sim`  **for every statement that fits and is accepted, at every place that matches.**
-/

namespace HolyPhp
namespace Emit
open Exits

/-! ## statements that fit -/

mutual

/-- a `continue` in a `try` has its loop or none of its switches in the same `try`; a `try` in a
switch and outside of every loop has the switch on strings around it; at most 8 `try` nested -/
def fits (k : Nest) : Stmt → Bool
  | .if_ _ t e => fitsAll k t && fitsAll k e
  | .while_ _ body => fitsAll k.loop body
  | .do_ body _ => fitsAll k.loop body
  | .for_ _ _ _ body => fitsAll k.loop body
  | .foreach_ _ _ body => fitsAll k.loop body
  | .switch_ isStr _ cases => fitsCases (k.switch isStr) cases
  | .continue_ =>
    (0 < k.tries && k.depth = 0) || if 0 < k.allLoops then 0 < k.loops else k.once
  | .block b => fitsAll k b
  | .try_ body catches fin =>
    k.tries < 8 && ((0 < k.tries || k.depth = 0 || 0 < k.allLoops || k.once) &&
      (fitsAll k.tried body && (fitsCatches k.tried catches && fitsAll k fin)))
  | _ => true

def fitsAll (k : Nest) : List Stmt → Bool
  | [] => true
  | c :: rest => fits k c && fitsAll k rest

def fitsCases (k : Nest) : List SwitchCase → Bool
  | [] => true
  | .mk _ body :: rest => fitsAll k body && fitsCases k rest

def fitsCatches (k : Nest) : List CatchClause → Bool
  | [] => true
  | .mk _ body :: rest => fitsAll k body && fitsCatches k rest

end

/-! ## places that match -/

structure Matches (g : Codegen) (k : Nest) : Prop where
  helper : g.inTryHelper = decide (0 < k.tries)
  depth : g.loopDepth = k.depth
  labels : g.loopLabels.length = k.allLoops
  helperDepth : g.helperDepth = min k.tries 8
  out : g.out = if k.tries = 0 then none else some (min k.tries 8 - 1)
  loops_le : k.loops ≤ k.depth
  loops_all : k.loops ≤ k.allLoops
  own : k.tries = 0 → k.loops = k.allLoops ∧ k.depth = k.allDepth

/-- where a `continue` leads to -/
def Codegen.top (g : Codegen) : Nat := g.loopLabels.headD 0

section places
variable {g : Codegen} {k : Nest}

theorem Matches.init : Matches .init .top :=
  ⟨rfl, rfl, rfl, rfl, rfl, Nat.le_refl 0, Nat.le_refl 0, fun _ => ⟨rfl, rfl⟩⟩

theorem Matches.loop (h : Matches g k) (l : Nat) : Matches (g.inLoop l) k.loop where
  helper := h.helper
  depth := congrArg (· + 1) h.depth
  labels := congrArg (· + 1) h.labels
  helperDepth := h.helperDepth
  out := h.out
  loops_le := Nat.succ_le_succ h.loops_le
  loops_all := Nat.succ_le_succ h.loops_all
  own := by
    intro ht
    obtain ⟨h1, h2⟩ := h.own ht
    exact ⟨congrArg (· + 1) h1, congrArg (· + 1) h2⟩

theorem Matches.switch (h : Matches g k) (isStr : Bool) : Matches g.inSwitch (k.switch isStr) where
  helper := h.helper
  depth := congrArg (· + 1) h.depth
  labels := h.labels
  helperDepth := h.helperDepth
  out := h.out
  loops_le := Nat.le_succ_of_le h.loops_le
  loops_all := h.loops_all
  own := by
    intro ht
    obtain ⟨h1, h2⟩ := h.own ht
    exact ⟨h1, congrArg (· + 1) h2⟩

theorem Matches.tried (h : Matches g k) : Matches g.inHelper k.tried where
  helper := by simp [Codegen.inHelper, Nest.tried]
  depth := rfl
  labels := h.labels
  helperDepth := by
    have h1 := h.helperDepth
    simp only [Codegen.inHelper, Codegen.hlevel, Nest.tried]
    omega
  out := by
    have h1 := h.helperDepth
    have h2 : min g.helperDepth 7 = min (k.tries + 1) 8 - 1 := by omega
    exact (congrArg some h2).trans (if_neg (Nat.succ_ne_zero _)).symm
  loops_le := Nat.le_refl 0
  loops_all := Nat.zero_le _
  own := by
    intro ht
    exact absurd ht (Nat.succ_ne_zero _)

end places

/-! ## what the exits become -/

section sim
variable {σ V α : Type} {I : Interp σ V} {n : Nat} {k : Nest} {g : Codegen} {top : Nat}

/-- the exit of the C code for an exit of the source -/
def image (I : Interp σ V) (k : Nest) (top : Nat) : σ × Out V → CState σ V × COut V
  | (s, .next) => ((s, fresh I), .next)
  | (s, .brk) =>
    if 0 < k.tries ∧ k.depth = 0 then ((s, ⟨2, I.null⟩), .ret I.null) else ((s, fresh I), .brk)
  | (s, .cont) =>
    if 0 < k.tries ∧ k.loops = 0 then ((s, ⟨3, I.null⟩), .ret I.null)
    else ((s, fresh I), .goto_ top)
  | (s, .ret v) => if 0 < k.tries then ((s, ⟨1, v⟩), .ret I.null) else ((s, fresh I), .ret v)
  | (s, .thrown v) => ((s, fresh I), .thrown v)
  | (s, .cut) => ((s, fresh I), .cut)
  | (s, .lost) => ((s, fresh I), .stuck)

theorem image_brk_out (ht : 0 < k.tries) (hd : k.depth = 0) (s : σ) :
    image I k top (s, .brk) = ((s, ⟨2, I.null⟩), .ret I.null) := if_pos ⟨ht, hd⟩

theorem image_brk_in (h : ¬(0 < k.tries ∧ k.depth = 0)) (s : σ) :
    image I k top (s, .brk) = ((s, fresh I), .brk) := if_neg h

theorem image_cont_out (ht : 0 < k.tries) (hl : k.loops = 0) (s : σ) :
    image I k top (s, .cont) = ((s, ⟨3, I.null⟩), .ret I.null) := if_pos ⟨ht, hl⟩

theorem image_cont_in (h : ¬(0 < k.tries ∧ k.loops = 0)) (s : σ) :
    image I k top (s, .cont) = ((s, fresh I), .goto_ top) := if_neg h

theorem image_ret_out (ht : 0 < k.tries) (s : σ) (v : V) :
    image I k top (s, .ret v) = ((s, ⟨1, v⟩), .ret I.null) := if_pos ht

theorem image_ret_in (ht : ¬ 0 < k.tries) (s : σ) (v : V) :
    image I k top (s, .ret v) = ((s, fresh I), .ret v) := if_neg ht

/-- a jump has something that it ends -/
def Named (k : Nest) : Out V → Prop
  | .brk => 0 < k.allDepth
  | .cont => 0 < k.allLoops
  | _ => True

/-- the run is lost, or both agree -/
def Sim (I : Interp σ V) (k : Nest) (top : Nat) (r : σ × Out V) (c : CState σ V × COut V) : Prop :=
  r.2 = .lost ∨ (Named k r.2 ∧ c = image I k top r)

/-- the states that are compared: a C function that still runs has a fresh `_env` -/
def Start (I : Interp σ V) (s : σ) (st : CState σ V) : Prop := st = (s, fresh I)

theorem Sim.lost {s : σ} (c : CState σ V × COut V) : Sim I k top (s, .lost) c := .inl rfl

theorem Sim.next (s : σ) : Sim I k top (s, .next) ((s, fresh I), .next) := .inr ⟨trivial, rfl⟩

theorem Sim.cut (s : σ) : Sim I k top (s, .cut) ((s, fresh I), .cut) := .inr ⟨trivial, rfl⟩

theorem Sim.thrown (s : σ) (v : V) : Sim I k top (s, .thrown v) ((s, fresh I), .thrown v) :=
  .inr ⟨trivial, rfl⟩

theorem Sim.check {r : σ × Except V α} {go : α → σ → σ × Out V}
    {cgo : α → CState σ V → CState σ V × COut V}
    (h : ∀ a s, Sim I k top (go a s) (cgo a (s, fresh I))) :
    Sim I k top (check r go) (ccheck r (fresh I) cgo) := by
  obtain ⟨s, r⟩ := r
  cases r with
  | ok a => exact h a s
  | error v => exact Sim.thrown s v

/-- related results go on together -/
theorem Sim.step (a : σ × Out V) (b : CState σ V × COut V) (h : Sim I k top a b) :
    (a.2.goes = true ∧ b.2.goes = true ∧ Start I a.1 b.1) ∨
    (a.2.goes = false ∧ (b.2.goes = true → ∀ y, Sim I k top a y)) := by
  obtain ⟨s, o⟩ := a
  rcases h with h | ⟨_, h⟩
  · refine .inr ⟨?_, fun _ y => .inl h⟩
    rw [h]
    rfl
  · subst h
    cases o with
    | next => exact .inl ⟨rfl, rfl, rfl⟩
    | brk =>
      refine .inr ⟨rfl, fun hb => absurd hb ?_⟩
      simp only [image]
      split <;> exact Bool.false_ne_true
    | cont =>
      refine .inr ⟨rfl, fun hb => absurd hb ?_⟩
      simp only [image]
      split <;> exact Bool.false_ne_true
    | ret v =>
      refine .inr ⟨rfl, fun hb => absurd hb ?_⟩
      simp only [image]
      split <;> exact Bool.false_ne_true
    | thrown v => exact .inr ⟨rfl, fun hb => absurd hb Bool.false_ne_true⟩
    | cut => exact .inr ⟨rfl, fun hb => absurd hb Bool.false_ne_true⟩
    | lost => exact .inr ⟨rfl, fun hb => absurd hb Bool.false_ne_true⟩

/-- one thing on both sides, and then another -/
theorem Sim.andThen {f : σ × Out V} {c : CState σ V × COut V} {go : σ → σ × Out V}
    {cgo : CState σ V → CState σ V × COut V} (h : Sim I k top f c)
    (hgo : ∀ t, Sim I k top (go t) (cgo (t, fresh I))) :
    Sim I k top (Emit.andThen go f) (candThen cgo c) := by
  obtain ⟨t, x⟩ := f
  obtain ⟨st, y⟩ := c
  rcases Sim.step _ _ h with ⟨hx, hy, hst⟩ | ⟨hx, hy⟩
  · cases x <;> cases hx
    cases y <;> cases hy
    have hst : st = (t, fresh I) := hst
    subst hst
    exact hgo t
  · have hleft : Emit.andThen go (t, x) = (t, x) := by
      cases x with
      | next => cases hx
      | _ => rfl
    rw [hleft]
    cases y with
    | next => exact hy rfl _
    | _ => exact h

/-! ## lists with labels -/

/-- no label stands in the list itself -/
def Plain (cs : List CStmt) : Prop := ∀ l, .label l ∉ cs

theorem Plain.tail {c : CStmt} {cs : List CStmt} (h : Plain (c :: cs)) : Plain cs := by
  intro l hl
  exact h l (List.mem_cons_of_mem c hl)

theorem behind_cons {c : CStmt} (hc : ∀ l, c ≠ .label l) (l : Nat) (cs : List CStmt)
    (st : CState σ V) : behind I n l (c :: cs) st = behind I n l cs st := by
  cases c with
  | label l' => exact absurd rfl (hc l')
  | _ => rfl

theorem behind_label (l : Nat) (tail : List CStmt) (st : CState σ V) :
    behind I n l (.label l :: tail) st = cruns I n tail st := by
  rw [behind, if_pos rfl]

theorem behind_plain {cs : List CStmt} (h : Plain cs) (l : Nat) (tail : List CStmt)
    (st : CState σ V) : behind I n l (cs ++ tail) st = behind I n l tail st := by
  induction cs with
  | nil => rfl
  | cons c cs ih =>
    rw [List.cons_append, behind_cons (fun l' hc => h l' (hc ▸ List.mem_cons_self)), ih h.tail]

/-- what follows a list without labels -/
def follow (I : Interp σ V) (n : Nat) (tail : List CStmt) :
    CState σ V × COut V → CState σ V × COut V
  | (st, .next) => cruns I n tail st
  | (st, .goto_ l) => behind I n l tail st
  | r => r

theorem cruns_cons (c : CStmt) (cs : List CStmt) (st : CState σ V) :
    cruns I n (c :: cs) st = follow I n cs (crun I n c st) := rfl

theorem cruns_append {cs : List CStmt} (h : Plain cs) (tail : List CStmt) (st : CState σ V) :
    cruns I n (cs ++ tail) st = follow I n tail (cruns I n cs st) := by
  induction cs generalizing st with
  | nil => rfl
  | cons c cs ih =>
    rw [List.cons_append, cruns_cons, cruns_cons]
    rcases crun I n c st with ⟨st', o⟩
    cases o with
    | next => exact ih h.tail st'
    | goto_ l =>
      have h1 : behind I n l (cs ++ tail) st' = behind I n l tail st' := behind_plain h.tail l tail st'
      have h2 := behind_plain (I := I) (n := n) h.tail l [] st'
      rw [List.append_nil] at h2
      rw [follow, h1, follow, h2]
      rfl
    | _ => rfl

theorem crun_act (a : Nat) (s : σ) (e : Env V) :
    crun I n (.act a) (s, e) = ccheck (I.act a s) e fun _ st => (st, .next) := rfl

/-- a list of actions, in the header of a `for` -/
theorem cruns_acts (as : List Nat) (tail : List CStmt) (s : σ) (e : Env V) :
    cruns I n (as.map .act ++ tail) (s, e) =
      ccheck (acts I as s) e fun _ st => cruns I n tail st := by
  induction as generalizing s with
  | nil => rfl
  | cons a as ih =>
    rw [List.map_cons, List.cons_append, cruns_cons, crun_act, acts]
    rcases I.act a s with ⟨s', o⟩
    cases o with
    | ok _ => exact ih s'
    | error v => rfl

theorem acts_one (a : Nat) (s : σ) : acts I [a] s = I.act a s := by
  rw [acts]
  rcases I.act a s with ⟨t, o⟩
  cases o <;> rfl

theorem cruns_one (c : CStmt) (st : CState σ V) : cruns I n [c] st = crun I n c st := by
  rw [cruns_cons]
  rcases crun I n c st with ⟨t, o⟩
  cases o <;> rfl

/-! ## loops and switches -/

/-- actions before the test at the end of a round -/
def actsThen (I : Interp σ V) (as : List Nat) (post : σ → σ × Except V Bool) (s : σ) :
    σ × Except V Bool :=
  match acts I as s with
  | (s, .ok _) => post s
  | (s, .error v) => (s, .error v)

/-- the end of a round: the label stands behind the body and before the steps -/
theorem Sim.endRound {r : σ × Out V} {body : List CStmt} {l : Nat} {s : σ} (hp : Plain body)
    (h : Sim I k.loop l r (cruns I n body (s, fresh I))) (as : List Nat)
    (post : σ → σ × Except V Bool) :
    Round.Sim (Start I) (Sim I k top) (endRound (actsThen I as post) r)
      (cendRound post (cruns I n (body ++ .label l :: as.map .act) (s, fresh I))) := by
  -- the steps and the test, wherever the round comes from
  have hnext : ∀ t, Round.Sim (Start I) (Sim I k top) (Emit.endRound (actsThen I as post) (t, .next))
      (cendRound post (cruns I n (as.map .act) (t, fresh I))) := by
    intro t
    have hacts := cruns_acts (I := I) (n := n) as [] t (fresh I)
    rw [List.append_nil] at hacts
    rw [hacts, Emit.endRound, actsThen]
    rcases acts I as t with ⟨t', o⟩
    cases o with
    | error v => exact .stop (Sim.thrown t' v)
    | ok _ =>
      simp only [ccheck, cruns, cendRound]
      rcases post t' with ⟨u, p⟩
      cases p with
      | error v => exact .stop (Sim.thrown u v)
      | ok b =>
        cases b with
        | true => exact .again rfl
        | false => exact .stop (Sim.next u)
  rw [cruns_append hp]
  obtain ⟨t, o⟩ := r
  rcases h with h | ⟨hn, h⟩
  · have h : o = .lost := h
    subst h
    exact .lost fun y => Sim.lost y
  · rw [h]
    cases o with
    | next => exact hnext t
    | cont =>
      rw [image_cont_in fun hc => Nat.succ_ne_zero _ hc.2, follow, behind_label]
      exact hnext t
    | brk =>
      rw [image_brk_in fun hc => Nat.succ_ne_zero _ hc.2]
      exact .stop (Sim.next t)
    | ret v =>
      have hs : Sim I k top (t, .ret v) (image I k.loop l (t, .ret v)) := .inr ⟨trivial, rfl⟩
      revert hs
      simp only [image]
      split
      · exact fun hs => .stop hs
      · exact fun hs => .stop hs
    | thrown v => exact .stop (Sim.thrown t v)
    | cut => exact .stop (Sim.cut t)
    | lost => exact .lost fun y => Sim.lost y

/-- loops agree where the ends of their rounds do -/
theorem Sim.loop {pre post cpost : σ → σ × Except V Bool} {body : σ → σ × Out V}
    {cbody : CState σ V → CState σ V × COut V}
    (h : ∀ s, Round.Sim (Start I) (Sim I k top) (Emit.endRound post (body s))
      (cendRound cpost (cbody (s, fresh I)))) (s : σ) :
    Sim I k top (loop n pre post body s) (cloop n pre cpost cbody (s, fresh I)) := by
  refine rounds_sim (P := Start I) (Q := Sim I k top) ?_ ?_ n s (s, fresh I) rfl
  · intro t st ht
    rw [ht]
    exact Sim.cut t
  · intro t st ht
    rw [ht, round, cround]
    rcases pre t with ⟨u, p⟩
    cases p with
    | error v => exact .stop (Sim.thrown u v)
    | ok b =>
      cases b with
      | true => exact h u
      | false => exact .stop (Sim.next u)

/-- the cases of a switch, or the clauses of a `try`, with what is emitted for them -/
def ListSim {β : Type} (I : Interp σ V) (k : Nest) (top : Nat) :
    List (β × (σ → σ × Out V)) → List (β × (CState σ V → CState σ V × COut V)) → Prop :=
  List.Forall₂ fun a c => a.1 = c.1 ∧ ∀ s st, Start I s st → Sim I k top (a.2 s) (c.2 st)

theorem ListSim.picked {as : List (Bool × (σ → σ × Out V))}
    {cs : List (Bool × (CState σ V → CState σ V × COut V))} (h : ListSim I k top as cs)
    (isStr : Bool) (o : Option Nat) :
    List.Forall₂ (fun f c => ∀ s st, Start I s st → Sim I k top (f s) (c st))
      (picked isStr as o) (picked isStr cs o) :=
  picked_forall₂ (R := fun (f : σ → σ × Out V) (c : CState σ V → CState σ V × COut V) =>
    ∀ s st, Start I s st → Sim I k top (f s) (c st)) h isStr o

/-- the exit of a switch, in its own place and in the place around it -/
theorem Sim.endSwitch {isStr : Bool} {r : σ × Out V} {c : CState σ V × COut V}
    (h : Sim I (k.switch isStr) top r c) :
    Sim I k top (Emit.endSwitch r) (cendSwitch c) ∧ Sim I k top (Emit.endSwitch r) (cendOnce c) := by
  obtain ⟨s, o⟩ := r
  rcases h with h | ⟨hn, h⟩
  · have h : o = .lost := h
    subst h
    exact ⟨Sim.lost _, Sim.lost _⟩
  · subst h
    cases o with
    | next => exact ⟨Sim.next s, Sim.next s⟩
    | brk =>
      rw [image_brk_in fun hc => Nat.succ_ne_zero _ hc.2]
      exact ⟨Sim.next s, Sim.next s⟩
    | cont =>
      have hs : Sim I k top (s, .cont) (image I (k.switch isStr) top (s, .cont)) := .inr ⟨hn, rfl⟩
      revert hs
      simp only [image]
      split
      · exact fun hs => ⟨hs, hs⟩
      · exact fun hs => ⟨hs, hs⟩
    | ret v =>
      have hs : Sim I k top (s, .ret v) (image I (k.switch isStr) top (s, .ret v)) :=
        .inr ⟨trivial, rfl⟩
      revert hs
      simp only [image]
      split
      · exact fun hs => ⟨hs, hs⟩
      · exact fun hs => ⟨hs, hs⟩
    | thrown v => exact ⟨Sim.thrown s v, Sim.thrown s v⟩
    | cut => exact ⟨Sim.cut s, Sim.cut s⟩
    | lost => exact ⟨Sim.lost _, Sim.lost _⟩

/-! ## `try` -/

/-- how a helper is left for an exit of what it was made of -/
def inHelper (I : Interp σ V) : σ × Out V → CState σ V × Called V
  | (s, .next) => ((s, fresh I), .returned I.null)
  | (s, .brk) => ((s, ⟨2, I.null⟩), .returned I.null)
  | (s, .cont) => ((s, ⟨3, I.null⟩), .returned I.null)
  | (s, .ret v) => ((s, ⟨1, v⟩), .returned I.null)
  | (s, .thrown v) => ((s, fresh I), .threw v)
  | (s, .cut) => ((s, fresh I), .cut)
  | (s, .lost) => ((s, fresh I), .stuck)

theorem called_image (r : σ × Out V) : called I (image I k.tried top r) = inHelper I r := by
  obtain ⟨s, o⟩ := r
  cases o with
  | brk =>
    rw [image_brk_out (Nat.succ_pos _) rfl]
    rfl
  | cont =>
    rw [image_cont_out (Nat.succ_pos _) rfl]
    rfl
  | ret v =>
    rw [image_ret_out (Nat.succ_pos _)]
    rfl
  | _ => rfl

/-- what `hp_try_run` gives for the exit that is left when the clauses have run -/
def tried (I : Interp σ V) : σ × Out V → CState σ V × Called V
  | (s, .thrown v) => ((s, fresh I), .returned v)
  | r => inHelper I r

/-- the run is lost, or both agree on the exit that waits for the final part -/
def Pending (I : Interp σ V) (k : Nest) (r : σ × Out V) (c : CState σ V × Called V) : Prop :=
  r.2 = .lost ∨ (Named k r.2 ∧ c = tried I r)

/-- the exception goes through the clauses -/
theorem Pending.handler {cl : List (Nat × (σ → σ × Out V))}
    {ccl : List (Nat × (CState σ V → CState σ V × COut V))} (h : ListSim I k.tried top cl ccl)
    (s : σ) (v : V) :
    Pending I k (handle I cl (s, .thrown v))
      (match called I (catchHelper I ccl v (s, fresh I)) with
        | (st, .threw v) => (st, .returned v)
        | r => r) := by
  cases h with
  | nil => exact .inr ⟨trivial, rfl⟩
  | @cons a c as cs hac hrest =>
    have hall : List.Forall₂ (fun f g => ∀ s st, Start I s st → Sim I k.tried top (f s) (g st))
        ((a :: as).map fun c => fun s => c.2 (I.bind c.1 v s))
        ((c :: cs).map fun c => fun st => c.2 (I.bind c.1 v st.1, st.2)) := by
      rw [List.forall₂_map_left_iff, List.forall₂_map_right_iff]
      refine List.Forall₂.imp (fun a c hac s st hst => ?_) (List.Forall₂.cons hac hrest)
      rw [hst, ← hac.1]
      exact hac.2 _ _ rfl
    have hnil : ∀ s st, Start I s st → Sim I k.tried top (s, .next) (st, .next) :=
      fun s st hst => hst ▸ Sim.next s
    have hsim := runAll_sim hnil Sim.step hall s (s, fresh I) rfl
    have hs : handle I (a :: as) (s, .thrown v) =
        runAll Out.goes .next ((a :: as).map fun c => fun s => c.2 (I.bind c.1 v s)) s := rfl
    have hc : catchHelper I (c :: cs) v (s, fresh I) =
        runAll COut.goes .next ((c :: cs).map fun c => fun st => c.2 (I.bind c.1 v st.1, st.2))
          (s, fresh I) := rfl
    rw [← hs, ← hc] at hsim
    rcases hsim with hl | ⟨hn, hi⟩
    · exact .inl hl
    · refine .inr ⟨hn, ?_⟩
      rw [hi, called_image]
      rcases handle I (a :: as) (s, .thrown v) with ⟨t, o⟩
      cases o <;> rfl

theorem Pending.of_sim {r : σ × Out V} {body : CState σ V → CState σ V × COut V}
    {cl : List (Nat × (σ → σ × Out V))} {ccl : List (Nat × (CState σ V → CState σ V × COut V))}
    {st : CState σ V} (hb : Sim I k.tried top r (body st)) (h : ListSim I k.tried top cl ccl) :
    Pending I k (handle I cl r) (tryRun I body (catchHelper I ccl) st) := by
  obtain ⟨s, o⟩ := r
  rcases hb with hl | ⟨hn, hi⟩
  · have hl : o = .lost := hl
    subst hl
    exact .inl rfl
  · rw [tryRun, hi, called_image]
    cases o with
    | thrown v => exact Pending.handler h s v
    | _ => exact .inr ⟨hn, rfl⟩

theorem dispatch_fresh (st : CState σ V) (d : Dispatch) :
    dispatch I (fresh I) st d = (st, .next) := by
  cases d with
  | forward => rfl
  | here loop =>
    cases loop with
    | none => rfl
    | some l => rfl

section dispatch
variable (hg : Matches g k)
include hg

theorem Matches.disp_helper (ht : 0 < k.tries) : g.disp = .forward := by
  rw [Codegen.disp, hg.helper, if_pos (decide_eq_true ht)]

theorem Matches.disp_here (ht : ¬ 0 < k.tries) :
    g.disp = .here (if 0 < k.depth then some g.loopLabels.head? else none) := by
  rw [Codegen.disp, hg.helper, if_neg (by simpa using ht), hg.depth]

/-- after the final part the pending exit leaves on both sides in the same way -/
theorem Sim.leave (s : σ) (o : Out V) (hn : Named k o) (hcut : o ≠ .cut) (hlost : o ≠ .lost) :
    Sim I k g.top (leave I true k s o)
      (match tried I (s, o) with
        | ((_, et), .returned tr) => afterFin I tr et g.disp (s, fresh I)
        | (st, _) => (st, .stuck)) := by
  cases o with
  | cut => exact absurd rfl hcut
  | lost => exact absurd rfl hlost
  | next =>
    simp only [tried, inHelper, afterFin, I.isNull_null, if_true, dispatch_fresh]
    exact Sim.next s
  | thrown v =>
    simp only [tried, afterFin, Emit.leave, dispatch_fresh]
    cases I.isNull v with
    | true => exact Sim.next s
    | false => exact Sim.thrown s v
  | ret v =>
    refine .inr ⟨trivial, ?_⟩
    simp only [tried, inHelper, afterFin, I.isNull_null, if_true]
    by_cases ht : 0 < k.tries
    · rw [hg.disp_helper ht]
      exact (image_ret_out ht s v).symm
    · rw [hg.disp_here ht]
      exact (image_ret_in ht s v).symm
  | brk =>
    simp only [tried, inHelper, afterFin, I.isNull_null, if_true, Emit.leave]
    by_cases ht : 0 < k.tries
    · rw [hg.disp_helper ht]
      by_cases hd : 0 < k.depth
      · rw [if_pos (by simp [ht, hd])]
        exact Sim.lost _
      · rw [if_neg (by simp [hd])]
        exact .inr ⟨hn, (image_brk_out ht (Nat.eq_zero_of_not_pos hd) s).symm⟩
    · -- the loop or switch that is left stands in the same function
      have hd : 0 < k.depth := by
        rw [(hg.own (Nat.eq_zero_of_not_pos ht)).2]
        exact hn
      rw [hg.disp_here ht, if_pos hd, if_neg (by simp [ht])]
      exact .inr ⟨hn, (image_brk_in (fun hc => ht hc.1) s).symm⟩
  | cont =>
    simp only [tried, inHelper, afterFin, I.isNull_null, if_true, Emit.leave]
    by_cases ht : 0 < k.tries
    · rw [hg.disp_helper ht]
      by_cases hd : 0 < k.loops
      · rw [if_pos (by simp [ht, hd])]
        exact Sim.lost _
      · rw [if_neg (by simp [hd])]
        exact .inr ⟨hn, (image_cont_out ht (Nat.eq_zero_of_not_pos hd) s).symm⟩
    · have hn' : 0 < k.allLoops := hn
      have hd : 0 < k.depth := by
        have h1 := (hg.own (Nat.eq_zero_of_not_pos ht)).1
        have h2 := hg.loops_le
        omega
      have hl : ∃ l ls, g.loopLabels = l :: ls := by
        rw [← hg.labels] at hn'
        exact List.exists_cons_of_length_pos hn'
      obtain ⟨l, ls, hl⟩ := hl
      have htop : g.top = l := by rw [Codegen.top, hl, List.headD_cons]
      rw [hg.disp_here ht, if_pos hd, if_neg (by simp [ht]), hl, htop]
      exact .inr ⟨hn, (image_cont_in (fun hc => ht hc.1) s).symm⟩

theorem Sim.finish {r : σ × Out V} {c : CState σ V × Called V} (h : Pending I k r c)
    {fin : σ → σ × Out V} {cfin : CState σ V → CState σ V × COut V}
    (hfin : ∀ s, Sim I k g.top (fin s) (cfin (s, fresh I))) :
    Sim I k g.top (finish I true k fin r) (ctry I cfin g.disp (fresh I) c) := by
  obtain ⟨s, o⟩ := r
  rcases h with hl | ⟨hn, rfl⟩
  · have hl : o = .lost := hl
    subst hl
    exact Sim.lost _
  · cases o with
    | cut => exact Sim.cut s
    | lost => exact Sim.lost _
    | next => exact Sim.andThen (hfin s) fun t => Sim.leave hg t _ hn nofun nofun
    | brk => exact Sim.andThen (hfin s) fun t => Sim.leave hg t _ hn nofun nofun
    | cont => exact Sim.andThen (hfin s) fun t => Sim.leave hg t _ hn nofun nofun
    | ret v => exact Sim.andThen (hfin s) fun t => Sim.leave hg t _ hn nofun nofun
    | thrown v => exact Sim.andThen (hfin s) fun t => Sim.leave hg t _ hn nofun nofun

end dispatch

/-! ## the statements -/

theorem emit_ne_label (g : Codegen) (s : Stmt) (id l : Nat) : (emit g s id).1 ≠ .label l := by
  cases s with
  | switch_ isStr c cases => cases isStr <;> exact nofun
  | break_ =>
    change g.break_ ≠ _
    rw [Codegen.break_]
    split <;> exact nofun
  | continue_ =>
    change g.continue_ ≠ _
    rw [Codegen.continue_]
    split
    · exact nofun
    · split <;> exact nofun
  | return_ value =>
    change g.return_ value ≠ _
    rw [Codegen.return_]
    split <;> exact nofun
  | _ => exact nofun

theorem emitBlock_plain (g : Codegen) (ss : List Stmt) (id : Nat) : Plain (emitBlock g ss id).1 := by
  induction ss generalizing id with
  | nil => exact nofun
  | cons s ss ih =>
    intro l hl
    rcases List.mem_cons.1 hl with h | h
    · exact emit_ne_label g s id l h.symm
    · exact ih _ l h

theorem follow_plain {cs : List CStmt} (h : Plain cs) (r : CState σ V × COut V) :
    follow I n cs r = candThen (cruns I n cs) r := by
  obtain ⟨st, o⟩ := r
  cases o with
  | goto_ l =>
    have h2 := behind_plain (I := I) (n := n) h l [] st
    rw [List.append_nil] at h2
    exact h2
  | _ => rfl

/-- a round of `while`, `do` and `foreach`: nothing stands behind the label -/
theorem Sim.endBody {r : σ × Out V} {body : List CStmt} {l : Nat} {s : σ} (hp : Plain body)
    (h : Sim I k.loop l r (cruns I n body (s, fresh I))) (post : σ → σ × Except V Bool) :
    Round.Sim (Start I) (Sim I k top) (Emit.endRound post r)
      (cendRound post (cruns I n (body ++ [.label l]) (s, fresh I))) :=
  Sim.endRound hp h [] post

section jumps
variable (hg : Matches g k)
include hg

/-- in a helper, outside of the loops and switches in it -/
theorem Matches.out_iff :
    (g.inTryHelper && decide (g.loopDepth = 0)) = decide (0 < k.tries ∧ k.depth = 0) := by
  rw [hg.helper, hg.depth, Bool.decide_and]

theorem Sim.break_ (ha : 0 < k.allDepth) (s : σ) :
    Sim I k g.top (s, .brk) (crun I n g.break_ (s, fresh I)) := by
  refine .inr ⟨ha, ?_⟩
  rw [Codegen.break_, hg.out_iff]
  by_cases h : 0 < k.tries ∧ k.depth = 0
  · rw [if_pos (decide_eq_true h), image_brk_out h.1 h.2]
    rfl
  · rw [if_neg (by simpa using h), image_brk_in h]
    rfl

theorem Sim.continue_ (hf : fits k .continue_ = true) (s : σ) :
    Sim I k g.top (s, if true && k.allLoops = 0 then .lost else .cont)
      (crun I n g.continue_ (s, fresh I)) := by
  by_cases h0 : k.allLoops = 0
  · rw [if_pos (by simp [h0])]
    exact Sim.lost _
  · rw [if_neg (by simp [h0])]
    refine .inr ⟨Nat.pos_of_ne_zero h0, ?_⟩
    rw [Codegen.continue_, hg.out_iff]
    by_cases h : 0 < k.tries ∧ k.depth = 0
    · have hl : k.loops = 0 := Nat.le_zero.1 (h.2 ▸ hg.loops_le)
      rw [if_pos (decide_eq_true h), image_cont_out h.1 hl]
      rfl
    · have hl : 0 < k.loops := by
        rw [fits, if_pos (Nat.pos_of_ne_zero h0), ← Bool.decide_and, Bool.or_eq_true] at hf
        rcases hf with hf | hf
        · exact absurd (of_decide_eq_true hf) h
        · exact of_decide_eq_true hf
      obtain ⟨l, ls, hls⟩ : ∃ l ls, g.loopLabels = l :: ls := by
        apply List.exists_cons_of_length_pos
        rw [hg.labels]
        exact Nat.pos_of_ne_zero h0
      have htop : g.top = l := by rw [Codegen.top, hls, List.headD_cons]
      rw [if_neg (by simpa using h), image_cont_in fun hc => Nat.ne_of_gt hl hc.2, hls, htop]
      rfl

theorem Sim.return_ (value : Option Nat) (s : σ) :
    Sim I k g.top (run I true n k (.return_ value) s) (crun I n (g.return_ value) (s, fresh I)) := by
  rw [Codegen.return_, hg.helper]
  by_cases ht : 0 < k.tries
  · have hret : ∀ (t : σ) (v : V), Sim I k g.top (t, .ret v) ((t, ⟨1, v⟩), .ret I.null) :=
      fun t v => .inr ⟨trivial, (image_ret_out ht t v).symm⟩
    rw [if_pos (decide_eq_true ht)]
    cases value with
    | none => exact hret s I.null
    | some a =>
      show Sim I k g.top (Emit.check (I.val a s) fun v s => (s, .ret v))
        (ccheck (I.val a s) (fresh I) fun v st => ((st.1, ⟨1, v⟩), .ret I.null))
      exact Sim.check fun v t => hret t v
  · have hret : ∀ (t : σ) (v : V), Sim I k g.top (t, .ret v) ((t, fresh I), .ret v) :=
      fun t v => .inr ⟨trivial, (image_ret_in ht t v).symm⟩
    rw [if_neg (by simpa using ht)]
    cases value with
    | none => exact hret s I.null
    | some a =>
      show Sim I k g.top (Emit.check (I.val a s) fun v s => (s, .ret v))
        (ccheck (I.val a s) (fresh I) fun v st => (st, .ret v))
      exact Sim.check fun v t => hret t v

end jumps

mutual

theorem emit_sim {k : Nest} {g : Codegen} (hg : Matches g k) :
    ∀ (c : Stmt) (id : Nat), accepts k.allDepth c = true → fits k c = true → ∀ s : σ,
      Sim I k g.top (run I true n k c s) (crun I n (emit g c id).1 (s, fresh I))
  | .act a, _, _, _, s => by
    show Sim I k g.top (check (I.act a s) fun _ s => (s, .next))
      (ccheck (I.act a s) (fresh I) fun _ st => (st, .next))
    exact Sim.check fun _ s => Sim.next s
  | .if_ c t e, id, ha, hf, s => by
    rw [accepts, Bool.and_eq_true] at ha
    rw [fits, Bool.and_eq_true] at hf
    show Sim I k g.top
      (check (I.cond c s) fun b s => if b then runs I true n k t s else runs I true n k e s)
      (ccheck (I.cond c s) (fresh I) fun b st =>
        if b then cruns I n (emitBlock g t id).1 st
        else cruns I n (emitBlock g e (emitBlock g t id).2).1 st)
    refine Sim.check fun b s => ?_
    cases b with
    | true => exact emitBlock_sim hg t id ha.1 hf.1 s
    | false => exact emitBlock_sim hg e _ ha.2 hf.2 s
  | .while_ c body, id, ha, hf, s =>
    Sim.loop (fun s => Sim.endBody (emitBlock_plain _ _ _)
      (emitBlock_sim (hg.loop id) body (id + 1) ha hf s) _) s
  | .do_ body c, id, ha, hf, s =>
    Sim.loop (fun s => Sim.endBody (emitBlock_plain _ _ _)
      (emitBlock_sim (hg.loop id) body (id + 1) ha hf s) _) s
  | .for_ init c step body, id, ha, hf, s => by
    show Sim I k g.top
      (check (acts I init s) fun _ => loop n (test I c) (steps I step) (runs I true n k.loop body))
      (cruns I n (init.map .act ++ [.while_ c ((emitBlock (g.inLoop id) body (id + 1)).1 ++
        .label id :: step.map .act)]) (s, fresh I))
    rw [cruns_acts]
    refine Sim.check fun _ t => ?_
    rw [cruns_one]
    exact Sim.loop (fun s => Sim.endRound (emitBlock_plain _ _ _)
      (emitBlock_sim (hg.loop id) body (id + 1) ha hf s) step (test I none)) t
  | .foreach_ iter next body, id, ha, hf, s => by
    show Sim I k g.top
      (check (I.act iter s) fun _ => loop n (I.cond next) (test I none) (runs I true n k.loop body))
      (cruns I n ([iter].map .act ++ [.while_ (some next)
        ((emitBlock (g.inLoop id) body (id + 1)).1 ++ [.label id])]) (s, fresh I))
    rw [cruns_acts, acts_one]
    refine Sim.check fun _ t => ?_
    rw [cruns_one]
    exact Sim.loop (fun s => Sim.endBody (emitBlock_plain _ _ _)
      (emitBlock_sim (hg.loop id) body (id + 1) ha hf s) _) t
  | .switch_ isStr c cases, id, ha, hf, s => by
    have hsim : ∀ o t, Sim I (k.switch isStr) g.top
        (runAll Out.goes .next (picked isStr (runCases I true n (k.switch isStr) cases) o) t)
        (runAll COut.goes .next
          (picked isStr (crunCases I n (emitCases g.inSwitch cases id).1) o) (t, fresh I)) := by
      intro o t
      have hcases := emitCases_sim (hg.switch isStr) cases id ha hf
      exact runAll_sim (fun s st hst => hst ▸ Sim.next s) Sim.step (hcases.picked isStr o) t _ rfl
    cases isStr with
    | false =>
      show Sim I k g.top (run I true n k (.switch_ false c cases) s)
        (ccheck (I.sel c s) (fresh I) fun o st => cendSwitch (runAll COut.goes .next
          (picked false (crunCases I n (emitCases g.inSwitch cases id).1) o) st))
      exact Sim.check fun o t => (hsim o t).endSwitch.1
    | true =>
      show Sim I k g.top (run I true n k (.switch_ true c cases) s)
        (ccheck (I.sel c s) (fresh I) fun o st => cendOnce (runAll COut.goes .next
          (picked true (crunCases I n (emitCases g.inSwitch cases id).1) o) st))
      exact Sim.check fun o t => (hsim o t).endSwitch.2
  | .break_, _, ha, _, s => Sim.break_ hg (of_decide_eq_true ha) s
  | .continue_, _, _, hf, s => Sim.continue_ hg hf s
  | .return_ value, _, _, _, s => Sim.return_ hg value s
  | .block b, id, ha, hf, s => emitBlock_sim hg b id ha hf s
  | .try_ body catches fin, id, ha, hf, s => by
    rw [accepts, Bool.and_eq_true, Bool.and_eq_true] at ha
    rw [fits, Bool.and_eq_true, Bool.and_eq_true, Bool.and_eq_true, Bool.and_eq_true] at hf
    refine Sim.finish hg ?_ (emitBlock_sim hg fin _ ha.2.2 hf.2.2.2.2)
    exact Pending.of_sim (emitBlock_sim hg.tried body id ha.1 hf.2.2.1 s)
      (emitCatches_sim hg.tried catches _ ha.2.1 hf.2.2.2.1)

theorem emitBlock_sim {k : Nest} {g : Codegen} (hg : Matches g k) :
    ∀ (cs : List Stmt) (id : Nat), acceptsAll k.allDepth cs = true → fitsAll k cs = true → ∀ s : σ,
      Sim I k g.top (runs I true n k cs s) (cruns I n (emitBlock g cs id).1 (s, fresh I))
  | [], _, _, _, s => Sim.next s
  | c :: rest, id, ha, hf, s => by
    rw [acceptsAll, Bool.and_eq_true] at ha
    rw [fitsAll, Bool.and_eq_true] at hf
    have h : cruns I n (emitBlock g (c :: rest) id).1 (s, fresh I) =
        candThen (cruns I n (emitBlock g rest (emit g c id).2).1)
          (crun I n (emit g c id).1 (s, fresh I)) :=
      (cruns_cons _ _ _).trans (follow_plain (emitBlock_plain _ _ _) _)
    rw [h]
    exact Sim.andThen (emit_sim hg c id ha.1 hf.1 s) (emitBlock_sim hg rest _ ha.2 hf.2)

theorem emitCases_sim {k : Nest} {g : Codegen} (hg : Matches g k) :
    ∀ (cs : List SwitchCase) (id : Nat), acceptsCases k.allDepth cs = true →
      fitsCases k cs = true →
      ListSim I k g.top (runCases I true n k cs) (crunCases I n (emitCases g cs id).1)
  | [], _, _, _ => .nil
  | .mk d body :: rest, id, ha, hf => by
    rw [acceptsCases, Bool.and_eq_true] at ha
    rw [fitsCases, Bool.and_eq_true] at hf
    exact .cons ⟨rfl, fun s st hst => hst ▸ emitBlock_sim hg body id ha.1 hf.1 s⟩
      (emitCases_sim hg rest _ ha.2 hf.2)

theorem emitCatches_sim {k : Nest} {g : Codegen} (hg : Matches g k) :
    ∀ (cs : List CatchClause) (id : Nat), acceptsCatches k.allDepth cs = true →
      fitsCatches k cs = true →
      ListSim I k g.top (runCatches I true n k cs) (crunClauses I n (emitCatches g cs id).1)
  | [], _, _, _ => .nil
  | .mk ty body :: rest, id, ha, hf => by
    rw [acceptsCatches, Bool.and_eq_true] at ha
    rw [fitsCatches, Bool.and_eq_true] at hf
    exact .cons ⟨rfl, fun s st hst => hst ▸ emitBlock_sim hg body id ha.1 hf.1 s⟩
      (emitCatches_sim hg rest _ ha.2 hf.2)

end

end sim

end Emit
end HolyPhp
