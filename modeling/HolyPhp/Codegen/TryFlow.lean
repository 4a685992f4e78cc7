import HolyPhp.Codegen.Legal

/-!
# A body and the C function that is emitted for it

* `run_watched`       a run that is watched and not lost is the run of the source;
* `emitted_follows`   **what is emitted for an accepted body is C if and only if the body fits,
                      and then it ends as the source says, with the variables of the source, in
                      every run that is not lost.**
-/

namespace HolyPhp
namespace Emit
open Exits

section
variable {σ V α : Type} {I : Interp σ V} {n : Nat} {k : Nest}

/-! ## runs that are watched -/

/-- the run that is watched is lost, or both are the same -/
def Watched (r r' : σ × Out V) : Prop := r.2 = .lost ∨ r = r'

theorem Watched.same (r : σ × Out V) : Watched r r := .inr rfl

theorem Watched.lost {s : σ} (r : σ × Out V) : Watched (s, .lost) r := .inl rfl

theorem Watched.step (a b : σ × Out V) (h : Watched a b) :
    (a.2.goes = true ∧ b.2.goes = true ∧ a.1 = b.1) ∨
    (a.2.goes = false ∧ (b.2.goes = true → ∀ y, Watched a y)) := by
  rcases h with h | rfl
  · refine .inr ⟨?_, fun _ y => .inl h⟩
    rw [h]
    rfl
  · cases hg : a.2.goes with
    | true => exact .inl ⟨rfl, rfl, rfl⟩
    | false => exact .inr ⟨rfl, nofun⟩

theorem Watched.check {r : σ × Except V α} {go go' : α → σ → σ × Out V}
    (h : ∀ a s, Watched (go a s) (go' a s)) : Watched (check r go) (check r go') := by
  obtain ⟨s, r⟩ := r
  cases r with
  | ok a => exact h a s
  | error v => exact Watched.same _

theorem Watched.andThen {f f' : σ × Out V} {go go' : σ → σ × Out V} (h : Watched f f')
    (hgo : ∀ s, Watched (go s) (go' s)) : Watched (andThen go f) (andThen go' f') := by
  obtain ⟨s, x⟩ := f
  rcases h with h | rfl
  · have h : x = .lost := h
    subst h
    exact Watched.lost _
  · cases x with
    | next => exact hgo s
    | _ => exact Watched.same _

theorem Watched.endRound {r r' : σ × Out V} (post : σ → σ × Except V Bool) (h : Watched r r') :
    Round.Sim Eq Watched (endRound post r) (endRound post r') := by
  obtain ⟨s, x⟩ := r
  rcases h with h | rfl
  · have h : x = .lost := h
    subst h
    exact .lost fun y => Watched.lost y
  · cases Emit.endRound post (s, x) with
    | again t => exact .again rfl
    | stop t o => exact .stop (Watched.same _)

theorem Watched.loop {pre post : σ → σ × Except V Bool} {body body' : σ → σ × Out V}
    (h : ∀ s, Watched (body s) (body' s)) (s : σ) :
    Watched (loop n pre post body s) (loop n pre post body' s) := by
  refine rounds_sim (P := Eq) (Q := Watched) ?_ ?_ n s s rfl
  · intro t t' ht
    rw [ht]
    exact Watched.same _
  · intro t t' ht
    rw [ht, round, round]
    rcases pre t' with ⟨u, p⟩
    cases p with
    | error v => exact .stop (Watched.same _)
    | ok b =>
      cases b with
      | true => exact Watched.endRound post (h u)
      | false => exact .stop (Watched.same _)

/-- the cases of a switch, or the clauses of a `try`, in both runs -/
def ListWatched {β : Type} : List (β × (σ → σ × Out V)) → List (β × (σ → σ × Out V)) → Prop :=
  List.Forall₂ fun a c => a.1 = c.1 ∧ ∀ s t, s = t → Watched (a.2 s) (c.2 t)

theorem Watched.runAll {fs gs : List (σ → σ × Out V)}
    (h : List.Forall₂ (fun f g => ∀ s t, s = t → Watched (f s) (g t)) fs gs) (s : σ) :
    Watched (runAll Out.goes .next fs s) (runAll Out.goes .next gs s) := by
  refine runAll_sim (P := Eq) (Q := Watched) ?_ Watched.step h s s rfl
  intro t t' ht
  rw [ht]
  exact Watched.same _

theorem Watched.endSwitch {r r' : σ × Out V} (h : Watched r r') :
    Watched (endSwitch r) (endSwitch r') := by
  obtain ⟨s, x⟩ := r
  rcases h with h | rfl
  · have h : x = .lost := h
    subst h
    exact Watched.lost _
  · exact Watched.same _

theorem Watched.handle {r r' : σ × Out V} (h : Watched r r') {cl cl' : List (Nat × (σ → σ × Out V))}
    (hcl : ListWatched cl cl') : Watched (handle I cl r) (handle I cl' r') := by
  obtain ⟨s, x⟩ := r
  rcases h with h | rfl
  · have h : x = .lost := h
    subst h
    exact Watched.lost _
  · cases x with
    | thrown v =>
      cases hcl with
      | nil => exact Watched.same _
      | @cons a c as cs hac hrest =>
        refine Watched.runAll ?_ s
        rw [List.forall₂_map_left_iff, List.forall₂_map_right_iff]
        refine List.Forall₂.imp (fun a c hac s t hst => ?_) (List.Forall₂.cons hac hrest)
        rw [hst, hac.1]
        exact hac.2 _ _ rfl
    | _ => exact Watched.same _

/-- only a jump is watched -/
theorem Watched.leave (s : σ) (o : Out V) : Watched (leave I true k s o) (leave I false k s o) := by
  cases o with
  | brk =>
    rw [Emit.leave, Emit.leave, Bool.false_and, if_neg Bool.false_ne_true]
    split
    · exact Watched.lost _
    · exact Watched.same _
  | cont =>
    rw [Emit.leave, Emit.leave, Bool.false_and, if_neg Bool.false_ne_true]
    split
    · exact Watched.lost _
    · exact Watched.same _
  | _ => exact Watched.same _

theorem Watched.finish {r r' : σ × Out V} (h : Watched r r') {fin fin' : σ → σ × Out V}
    (hfin : ∀ s, Watched (fin s) (fin' s)) :
    Watched (finish I true k fin r) (finish I false k fin' r') := by
  obtain ⟨s, x⟩ := r
  rcases h with h | rfl
  · have h : x = .lost := h
    subst h
    exact Watched.lost _
  · cases x with
    | cut => exact Watched.same _
    | lost => exact Watched.lost _
    | _ => exact Watched.andThen (hfin s) fun t => Watched.leave t _

mutual

theorem run_watched (k : Nest) : ∀ (c : Stmt) (s : σ),
    Watched (run I true n k c s) (run I false n k c s)
  | .act _, _ => Watched.same _
  | .if_ c t e, s => by
    refine Watched.check (r := I.cond c s) fun b s => ?_
    cases b with
    | true => exact runs_watched k t s
    | false => exact runs_watched k e s
  | .while_ c body, s => Watched.loop (runs_watched k.loop body) s
  | .do_ body c, s => Watched.loop (runs_watched k.loop body) s
  | .for_ init c step body, s =>
    Watched.check (r := acts I init s) fun _ s => Watched.loop (runs_watched k.loop body) s
  | .foreach_ iter next body, s =>
    Watched.check (r := I.act iter s) fun _ s => Watched.loop (runs_watched k.loop body) s
  | .switch_ isStr c cases, s =>
    Watched.check (r := I.sel c s) fun o s =>
      (Watched.runAll (picked_forall₂ (R := fun (f g : σ → σ × Out V) =>
        ∀ s t, s = t → Watched (f s) (g t)) (runCases_watched (k.switch isStr) cases) isStr o)
        s).endSwitch
  | .break_, _ => Watched.same _
  | .continue_, s => by
    show Watched (s, if true && k.allLoops = 0 then .lost else .cont)
      (s, if false && k.allLoops = 0 then .lost else .cont)
    rw [Bool.false_and, if_neg Bool.false_ne_true]
    split
    · exact Watched.lost _
    · exact Watched.same _
  | .return_ none, _ => Watched.same _
  | .return_ (some _), _ => Watched.same _
  | .block b, s => runs_watched k b s
  | .try_ body catches fin, s =>
    ((runs_watched k.tried body s).handle (runCatches_watched k.tried catches)).finish
      (runs_watched k fin)

theorem runs_watched (k : Nest) : ∀ (cs : List Stmt) (s : σ),
    Watched (runs I true n k cs s) (runs I false n k cs s)
  | [], _ => Watched.same _
  | c :: rest, s => (run_watched k c s).andThen (runs_watched k rest)

theorem runCases_watched (k : Nest) : ∀ cs : List SwitchCase,
    ListWatched (runCases I true n k cs) (runCases I false n k cs)
  | [] => .nil
  | .mk _ body :: rest =>
    .cons ⟨rfl, fun s _ hst => hst ▸ runs_watched k body s⟩ (runCases_watched k rest)

theorem runCatches_watched (k : Nest) : ∀ cs : List CatchClause,
    ListWatched (runCatches I true n k cs) (runCatches I false n k cs)
  | [] => .nil
  | .mk _ body :: rest =>
    .cons ⟨rfl, fun s _ hst => hst ▸ runs_watched k body s⟩ (runCatches_watched k rest)

end

end

/-! ## bodies -/

/-- how a function ends -/
inductive Done (V : Type) where
  | returned (v : V)
  | thrown (v : V)
  /-- a loop was still running after all the rounds it was given -/
  | cut

section
variable {σ V : Type} (I : Interp σ V) (n : Nat)

/-- nothing in a function is ended by a jump out of it -/
def Out.done : Out V → Option (Done V)
  | .next => some (.returned I.null)
  | .ret v => some (.returned v)
  | .thrown v => some (.thrown v)
  | .cut => some .cut
  | _ => none

def COut.done : COut V → Option (Done V)
  | .next => some (.returned I.null)
  | .ret v => some (.returned v)
  | .thrown v => some (.thrown v)
  | .cut => some .cut
  | _ => none

/-- a run of the body, by the source -/
def source (body : List Stmt) (s : σ) : σ × Option (Done V) :=
  let r := runs I false n .top body s
  (r.1, r.2.done I)

/-- a run of a C function -/
def emitted (body : List CStmt) (s : σ) : σ × Option (Done V) :=
  let r := cruns I n body (s, fresh I)
  (r.1.1, r.2.done I)

/-- a `break` or `continue` in the run leaves a `try` within a `try`, and ends a loop or switch
that is in the outer one, or a `continue` has no loop -/
def Strays (body : List Stmt) (s : σ) : Prop := (runs I true n .top body s).2 = .lost

end

theorem emitFn_legal {body : List Stmt} (ha : acceptsAll 0 body = true) (id : Nat) :
    legalFn (emitFn body id) = fitsAll .top body := by
  have hspan := emitBlock_span .init body id
  have hs : InScope (.function (labelsAll (emitFn body id))) .init .top := ⟨rfl, rfl, nofun, nofun⟩
  rw [legalFn, ← emitBlock_legal Matches.init hs body id nofun (fun l hl => hl) ha]
  exact (congrArg (· && _) (decide_eq_true hspan.nodup)).trans (Bool.true_and _)

/-- what is emitted for a body that sema accepts is legal C if and only if the body fits; and
then, in every run without stray jumps, the function ends as the source says: every `break`,
`continue` and `return` has led to its own loop, switch or end, by the final parts on its way -/
theorem emitted_follows (body : List Stmt) (ha : acceptsAll 0 body = true) (id : Nat) :
    (legalFn (emitFn body id) = true ↔ fitsAll .top body = true) ∧
    (fitsAll .top body = true → ∀ (σ V : Type) (I : Interp σ V) (n : Nat) (s : σ),
      ¬ Strays I n body s →
      ∃ t d, source I n body s = (t, some d) ∧ emitted I n (emitFn body id) s = (t, some d)) := by
  refine ⟨by rw [emitFn_legal ha], fun hf σ V I n s hstray => ?_⟩
  have hsim := emitBlock_sim (I := I) (n := n) Matches.init body id ha hf s
  have hwatched := runs_watched (I := I) (n := n) .top body s
  rw [Strays] at hstray
  rcases hsim with h | ⟨hn, hi⟩
  · exact absurd h hstray
  · rcases hwatched with h | hsame
    · exact absurd h hstray
    · rw [source, emitted, emitFn, hi, ← hsame]
      generalize runs I true n .top body s = r at hn hstray
      obtain ⟨t, o⟩ := r
      cases o with
      | next => exact ⟨t, _, rfl, rfl⟩
      | brk => exact absurd hn (Nat.lt_irrefl 0)
      | cont => exact absurd hn (Nat.lt_irrefl 0)
      | ret v => exact ⟨t, _, rfl, rfl⟩
      | thrown v => exact ⟨t, _, rfl, rfl⟩
      | cut => exact ⟨t, _, rfl, rfl⟩
      | lost => exact absurd rfl hstray

/-! ## two bodies -/

/-- the actions that were done, and tests that hold -/
def recorder : Interp (List Nat) Unit where
  act a s := (s ++ [a], .ok ())
  cond _ s := (s, .ok true)
  sel _ s := (s, .ok none)
  val _ s := (s, .ok ())
  bind _ _ s := s
  null := ()
  isNull _ := true
  isNull_null := rfl

/-- `while (..) { try { break; } catch (..) {} finally { 7 } } 1` -/
def onceNested : List Stmt := [.while_ 0 [.try_ [.break_] [.mk 0 []] [.act 7]], .act 1]

theorem emitted_follows_onceNested :
    ∃ t d, source recorder 2 onceNested [] = (t, some d) ∧
      emitted recorder 2 (emitFn onceNested 0) [] = (t, some d) :=
  (emitted_follows onceNested rfl 0).2 rfl (List Nat) Unit recorder 2 [] nofun

/-- `try { while (..) { try { break; } catch (..) {} } 1 } catch (..) {}` -/
def twiceNested : List Stmt :=
  [.try_ [.while_ 0 [.try_ [.break_] [.mk 0 []] []], .act 1] [.mk 0 []] []]

/-- the `break` leaves the outer `try` too, and what follows the loop is not done -/
theorem emitted_not_follows :
    acceptsAll 0 twiceNested = true ∧ legalFn (emitFn twiceNested 0) = true ∧
    source recorder 2 twiceNested [] = ([1], some (.returned ())) ∧
    emitted recorder 2 (emitFn twiceNested 0) [] = ([], some (.returned ())) :=
  ⟨rfl, by decide, rfl, rfl⟩

end Emit
end HolyPhp
