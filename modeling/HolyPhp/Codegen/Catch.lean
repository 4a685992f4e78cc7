import HolyPhp.Codegen.Jumps

/-!
# Exceptions and the clauses of a `try`

What the code emitted for a `try` does with an exception that its body throws.

* `Keeps`            the `_env` of a function changes only where the function returns
                     (`crun_keeps`), so that a clause that comes to its end has set no action;
* `Lawful`           the law: the first clause whose type admits the value runs, and no other; what
                     is thrown where none runs or by the clause is thrown on behind the final part;
* `try_lawful_iff`   **the emitted code keeps the law if and only if the exception `Suits` the
                     clauses**: there is none and the value is not null, or the first one admits
                     the value, does not end before another one, and throws no null.
-/

namespace HolyPhp
namespace Emit
open Exits

section
variable {σ V α : Type} {I : Interp σ V} {n : Nat} {e : Env V}

/-! ## the environment of a function -/

/-- the function returns, or its `_env` is still `e` -/
def Keeps (e : Env V) (r : CState σ V × COut V) : Prop := (∃ v, r.2 = .ret v) ∨ r.1.2 = e

theorem Keeps.ret (st : CState σ V) (v : V) : Keeps e (st, .ret v) := .inl ⟨v, rfl⟩

theorem Keeps.ccheck {r : σ × Except V α} {go : α → CState σ V → CState σ V × COut V}
    (h : ∀ a s, Keeps e (go a (s, e))) : Keeps e (ccheck r e go) := by
  obtain ⟨s, r⟩ := r
  cases r with
  | ok a => exact h a s
  | error v => exact .inr rfl

theorem Keeps.candThen {r : CState σ V × COut V} {go : CState σ V → CState σ V × COut V}
    (h : Keeps e r) (hgo : ∀ s, Keeps e (go (s, e))) : Keeps e (candThen go r) := by
  obtain ⟨st, o⟩ := r
  cases o with
  | next =>
    rcases h with ⟨_, h⟩ | h
    · cases h
    · have hst : st = (st.1, e) := by rw [← h]
      rw [hst]
      exact hgo st.1
  | _ => exact h

theorem Keeps.cendRound {r : CState σ V × COut V} (post : σ → σ × Except V Bool)
    (h : Keeps e r) : (cendRound post r).Holds (fun st => st.2 = e) (Keeps e) := by
  have hnext : ∀ s, (Emit.cendRound post ((s, e), .next)).Holds (fun st => st.2 = e) (Keeps e) := by
    intro s
    rw [Emit.cendRound]
    rcases post s with ⟨t, p⟩
    cases p with
    | error v => exact .inr rfl
    | ok b =>
      cases b with
      | true => exact rfl
      | false => exact .inr rfl
  obtain ⟨⟨s, e'⟩, o⟩ := r
  rcases h with ⟨v, h⟩ | h
  · have h : o = .ret v := h
    subst h
    exact Keeps.ret _ v
  · have h : e' = e := h
    subst h
    cases o with
    | next => exact hnext s
    | cont => exact hnext s
    | ret v => exact Keeps.ret _ v
    | _ => exact .inr rfl

theorem Keeps.cloop {pre post : σ → σ × Except V Bool} {body : CState σ V → CState σ V × COut V}
    (h : ∀ s, Keeps e (body (s, e))) (s : σ) : Keeps e (cloop n pre post body (s, e)) := by
  refine rounds_inv (I := fun st : CState σ V => st.2 = e) (Q := Keeps e) ?_ ?_ n (s, e) rfl
  · intro st hst
    exact .inr hst
  · intro st hst
    obtain ⟨t, e'⟩ := st
    have hst : e' = e := hst
    subst hst
    rw [cround]
    rcases pre t with ⟨u, p⟩
    cases p with
    | error v => exact .inr rfl
    | ok b =>
      cases b with
      | false => exact .inr rfl
      | true => exact (h u).cendRound post

theorem Keeps.runAll {fs : List (CState σ V → CState σ V × COut V)}
    (h : ∀ f ∈ fs, ∀ s, Keeps e (f (s, e))) (s : σ) :
    Keeps e (runAll COut.goes .next fs (s, e)) := by
  refine runAll_inv (I := fun st : CState σ V => st.2 = e) (Q := Keeps e) ?_ ?_ ?_ (s, e) rfl
  · intro st hst
    exact .inr hst
  · intro x hx hgo
    rcases hx with ⟨v, hx⟩ | hx
    · rw [hx] at hgo
      cases hgo
    · exact hx
  · intro f hf st hst
    obtain ⟨t, e'⟩ := st
    have hst : e' = e := hst
    subst hst
    exact h f hf t

/-- an exit of a switch or a loop is no return -/
theorem Keeps.exit {r r' : CState σ V × COut V} (h : Keeps e r) (h1 : r'.1 = r.1)
    (h2 : ∀ v, r.2 = .ret v → r' = r) : Keeps e r' := by
  rcases h with ⟨v, h⟩ | h
  · rw [h2 v h]
    exact .inl ⟨v, h⟩
  · exact .inr (h1 ▸ h)

theorem Keeps.cendSwitch {r : CState σ V × COut V} (h : Keeps e r) : Keeps e (cendSwitch r) := by
  obtain ⟨st, o⟩ := r
  cases o with
  | brk => exact h.exit rfl nofun
  | _ => exact h

theorem Keeps.cendOnce {r : CState σ V × COut V} (h : Keeps e r) : Keeps e (cendOnce r) := by
  obtain ⟨st, o⟩ := r
  cases o with
  | brk => exact h.exit rfl nofun
  | cont => exact h.exit rfl nofun
  | _ => exact h

theorem Keeps.dispatch (s : σ) (et : Env V) (disp : Dispatch) :
    Keeps e (dispatch I et (s, e) disp) := by
  cases disp with
  | forward =>
    rw [Emit.dispatch]
    split
    · exact .inr rfl
    · exact Keeps.ret _ _
  | here loop =>
    cases loop with
    | none =>
      show Keeps e (if et.act = 1 then ((s, e), .ret et.ret) else ((s, e), .next))
      split
      · exact Keeps.ret _ _
      · exact .inr rfl
    | some l =>
      have hjump : ∀ go : COut V, Keeps e (if et.act = 1 then ((s, e), .ret et.ret)
          else if et.act = 2 then ((s, e), .brk)
          else if et.act = 3 then ((s, e), go) else ((s, e), .next)) := by
        intro go
        split
        · exact Keeps.ret _ _
        · split
          · exact .inr rfl
          · split <;> exact .inr rfl
      exact hjump _

theorem Keeps.ctry {fin : CState σ V → CState σ V × COut V} (h : ∀ s, Keeps e (fin (s, e)))
    (disp : Dispatch) (r : CState σ V × Called V) : Keeps e (ctry I fin disp e r) := by
  obtain ⟨⟨s, et⟩, o⟩ := r
  cases o with
  | returned tr =>
    refine (h s).candThen fun t => ?_
    rw [afterFin]
    split
    · exact Keeps.dispatch t et disp
    · exact .inr rfl
  | _ => exact .inr rfl

theorem mem_picked {β : Type} {isStr : Bool} {cases : List (Bool × β)} {o : Option Nat} {f : β}
    (h : f ∈ picked isStr cases o) : f ∈ cases.map fun c => c.2 := by
  cases isStr with
  | false => exact List.map_subset _ (List.drop_subset _ _) h
  | true =>
    cases o with
    | some i =>
      exact List.map_subset _ (List.Subset.trans (List.take_subset _ _) (List.drop_subset _ _)) h
    | none => exact List.map_subset _ (List.filter_subset_self _) h

mutual

theorem crun_keeps : ∀ (c : CStmt) (s : σ) (e : Env V), Keeps e (crun I n c (s, e))
  | .act a, s, e => Keeps.ccheck (r := I.act a s) fun _ _ => .inr rfl
  | .if_ c t els, s, e => by
    refine Keeps.ccheck (r := I.cond c s) fun b s => ?_
    cases b with
    | true => exact cruns_keeps t s e
    | false => exact cruns_keeps els s e
  | .while_ c body, s, e => Keeps.cloop (fun s => cruns_keeps body s e) s
  | .doWhile body c, s, e => Keeps.cloop (fun s => cruns_keeps body s e) s
  | .switch_ c cases, s, e =>
    Keeps.ccheck (r := I.sel c s) fun o s =>
      (Keeps.runAll (fun f hf s => crunCases_keeps cases f (mem_picked hf) s e) s).cendSwitch
  | .once c cases, s, e =>
    Keeps.ccheck (r := I.sel c s) fun o s =>
      (Keeps.runAll (fun f hf s => crunCases_keeps cases f (mem_picked hf) s e) s).cendOnce
  | .block b, s, e => cruns_keeps b s e
  | .break_, _, _ => .inr rfl
  | .continue_, _, _ => .inr rfl
  | .goto_ _, _, _ => .inr rfl
  | .label _, _, _ => .inr rfl
  | .return_ none, s, e => Keeps.ret _ _
  | .return_ (some a), s, e => Keeps.ccheck (r := I.val a s) fun v s => Keeps.ret _ v
  | .leave _ none, _, _ => Keeps.ret _ _
  | .leave _ (some a), s, e => Keeps.ccheck (r := I.val a s) fun _ s => Keeps.ret _ _
  | .try_ _ body catches fin disp, s, e => Keeps.ctry (fun s => cruns_keeps fin s e) disp _

theorem cruns_keeps : ∀ (cs : List CStmt) (s : σ) (e : Env V), Keeps e (cruns I n cs (s, e))
  | [], _, _ => .inr rfl
  | c :: rest, s, e => by
    have h := crun_keeps c s e
    show Keeps e (match crun I n c (s, e) with
      | (st, .next) => cruns I n rest st
      | (st, .goto_ l) => behind I n l rest st
      | r => r)
    generalize crun I n c (s, e) = r at h
    obtain ⟨⟨t, e'⟩, o⟩ := r
    rcases h with ⟨v, h⟩ | h
    · have h : o = .ret v := h
      subst h
      exact Keeps.ret _ v
    · have h : e' = e := h
      subst h
      cases o with
      | next => exact cruns_keeps rest t e'
      | goto_ l => exact behind_keeps l rest t e'
      | _ => exact .inr rfl

theorem behind_keeps (l : Nat) : ∀ (cs : List CStmt) (s : σ) (e : Env V),
    Keeps e (behind I n l cs (s, e))
  | [], _, _ => .inr rfl
  | c :: rest, s, e => by
    by_cases hc : ∃ l', c = .label l'
    · obtain ⟨l', rfl⟩ := hc
      rw [behind]
      split
      · exact cruns_keeps rest s e
      · exact behind_keeps l rest s e
    · rw [behind_cons fun l' h => hc ⟨l', h⟩]
      exact behind_keeps l rest s e

theorem crunCases_keeps : ∀ (cs : List CCase), ∀ f ∈ (crunCases I n cs).map (fun c => c.2),
    ∀ (s : σ) (e : Env V), Keeps e (f (s, e))
  | [], f, hf => absurd hf List.not_mem_nil
  | .mk _ body :: rest, f, hf => by
    rcases List.mem_cons.1 hf with rfl | hf
    · exact cruns_keeps body
    · exact crunCases_keeps rest f hf

end

/-! ## the law -/

/-- the clauses of an emitted `try`, each with its type -/
abbrev Clauses (σ V : Type) : Type := List (Nat × (CState σ V → CState σ V × COut V))

/-- a clause takes the exception; the `_env` of the `try` is fresh -/
def takes (I : Interp σ V) (c : Nat × (CState σ V → CState σ V × COut V)) (ex : V) (s : σ) :
    CState σ V × COut V :=
  c.2 (I.bind c.1 ex s, fresh I)

/-- the clauses that the catch helper starts -/
def ran (I : Interp σ V) (clauses : Clauses σ V) (ex : V) (s : σ) : List Nat :=
  List.range (runCount COut.goes
    (clauses.map fun c => fun st => c.2 (I.bind c.1 ex st.1, st.2)) (s, fresh I))

/-- those that it does not start do not matter -/
theorem runAll_ran (clauses : Clauses σ V) (ex : V) (s : σ) :
    runAll COut.goes .next ((clauses.take (ran I clauses ex s).length).map fun c =>
        fun st => c.2 (I.bind c.1 ex st.1, st.2)) (s, fresh I) =
      runAll COut.goes .next (clauses.map fun c => fun st => c.2 (I.bind c.1 ex st.1, st.2))
        (s, fresh I) := by
  rw [ran, List.length_range, List.map_take, runAll_take]

/-- the exit of the `try` behind the final part, where it does not leave by itself -/
def behindFin (fin : CState σ V → CState σ V × COut V) (s : σ) (e : Env V) (o : COut V) :
    CState σ V × COut V :=
  candThen (fun st => (st, o)) (fin (s, e))

/-- the exit of the `try` for the exit of the clause: what it throws is thrown on, and where it
comes to its end what follows the `try` is next -/
def ClauseLaw (fin : CState σ V → CState σ V × COut V) (e : Env V) (r : CState σ V × COut V) :
    CState σ V × COut V → Prop
  | ((t, _), .thrown v) => r = behindFin fin t e (.thrown v)
  | ((t, _), .next) => r = behindFin fin t e .next
  | _ => True

/-- of the clauses that have been started and the exit of the `try`: the first clause that
admits the exception has been started, and no other; where there is none, the exception is thrown
on behind the final part -/
def Lawful (I : Interp σ V) (admits : Nat → V → Bool) (clauses : Clauses σ V)
    (fin : CState σ V → CState σ V × COut V) (ex : V) (s : σ) (e : Env V) (started : List Nat)
    (r : CState σ V × COut V) : Prop :=
  match clauses.findIdx? fun c => admits c.1 ex with
  | none => started = [] ∧ r = behindFin fin s e (.thrown ex)
  | some i =>
    started = [i] ∧ ∀ c, clauses[i]? = some c → ClauseLaw fin e r (takes I c ex s)

/-- `v` is not null, or the final part leaves by itself -/
def Seen (I : Interp σ V) (fin : CState σ V → CState σ V × COut V) (e : Env V) (t : σ) (v : V) :
    Prop :=
  I.isNull v = false ∨ (fin (t, e)).2.goes = false

/-- the exit of the first clause: at its end there is no other clause, and it throws no null -/
def ClauseSuits (I : Interp σ V) (rest : Clauses σ V) (fin : CState σ V → CState σ V × COut V)
    (e : Env V) : CState σ V × COut V → Prop
  | ((t, _), .thrown v) => Seen I fin e t v
  | (_, .next) => rest = []
  | _ => True

/-- there is no clause, and the exception is not null; or the first clause admits it -/
def Suits (I : Interp σ V) (admits : Nat → V → Bool) (clauses : Clauses σ V)
    (fin : CState σ V → CState σ V × COut V) (ex : V) (s : σ) (e : Env V) : Prop :=
  match clauses with
  | [] => Seen I fin e s ex
  | c :: rest => admits c.1 ex = true ∧ ClauseSuits I rest fin e (takes I c ex s)

section law
variable {admits : Nat → V → Bool} {clauses : Clauses σ V} {ex : V} {s : σ}
  {fin : CState σ V → CState σ V × COut V}

theorem dispatch_fresh' (st : CState σ V) (disp : Dispatch) (tr : V) :
    afterFin I tr (fresh I) disp st = (st, if I.isNull tr then .next else .thrown tr) := by
  rw [afterFin, dispatch_fresh]
  split <;> rfl

/-- a null is not thrown on -/
theorem behindFin_eq_iff (v : V) :
    behindFin fin s e (if I.isNull v then .next else .thrown v) = behindFin fin s e (.thrown v) ↔
      Seen I fin e s v := by
  rw [behindFin, behindFin, Seen]
  rcases fin (s, e) with ⟨st, o⟩
  cases hv : I.isNull v with
  | false => exact ⟨fun _ => .inl rfl, fun _ => rfl⟩
  | true =>
    cases o with
    | next =>
      refine ⟨fun h => ?_, fun h => ?_⟩
      · cases congrArg Prod.snd h
      · rcases h with h | h <;> cases h
    | _ => exact ⟨fun _ => .inr rfl, fun _ => rfl⟩

/-- what `hp_try_run` hands back of an exception -/
def handled (I : Interp σ V) (clauses : Clauses σ V) (ex : V) (s : σ) : CState σ V × Called V :=
  match called I (catchHelper I clauses ex (s, fresh I)) with
  | (st, .threw v) => (st, .returned v)
  | r => r

theorem ctry_returned (disp : Dispatch) (t : σ) (v : V) :
    ctry I fin disp e ((t, fresh I), .returned v) =
      behindFin fin t e (if I.isNull v then .next else .thrown v) := by
  have h : afterFin I v (fresh I) disp =
      fun st => (st, if I.isNull v then .next else .thrown v) := by
    funext st
    exact dispatch_fresh' st disp v
  rw [ctry, h]
  rfl

theorem catchHelper_cons (c : Nat × (CState σ V → CState σ V × COut V)) (rest : Clauses σ V) :
    catchHelper I (c :: rest) ex (s, fresh I) =
      if (takes I c ex s).2.goes then
        runAll COut.goes .next (rest.map fun c => fun st => c.2 (I.bind c.1 ex st.1, st.2))
          (takes I c ex s).1
      else takes I c ex s := rfl

theorem ran_cons (c : Nat × (CState σ V → CState σ V × COut V)) (rest : Clauses σ V) :
    ran I (c :: rest) ex s =
      List.range (1 + if (takes I c ex s).2.goes then
        runCount COut.goes (rest.map fun c => fun st => c.2 (I.bind c.1 ex st.1, st.2))
          (takes I c ex s).1
      else 0) := rfl

/-- the clause that takes the exception leaves, or is the last one, and it is the only one -/
theorem ran_eq_iff (c : Nat × (CState σ V → CState σ V × COut V)) (rest : Clauses σ V) :
    ran I (c :: rest) ex s = [0] ↔ ((takes I c ex s).2.goes = true → rest = []) := by
  rw [ran_cons]
  cases hg : (takes I c ex s).2.goes with
  | false => exact ⟨fun _ => nofun, fun _ => rfl⟩
  | true =>
    cases rest with
    | nil => exact ⟨fun _ _ => rfl, fun _ => rfl⟩
    | cons d rest =>
      refine ⟨fun h => ?_, fun h => absurd (h rfl) nofun⟩
      have hlen := congrArg List.length h
      rw [List.length_range, if_pos rfl, List.map_cons, runCount, List.length_singleton] at hlen
      omega

theorem ran_head {c : Nat × (CState σ V → CState σ V × COut V)} {rest : Clauses σ V} :
    (ran I (c :: rest) ex s).head? = some 0 := by
  rw [ran_cons, Nat.add_comm, List.range_succ_eq_map]
  rfl

theorem ran_ne_nil {c : Nat × (CState σ V → CState σ V × COut V)} {rest : Clauses σ V} :
    ran I (c :: rest) ex s ≠ [] := by
  intro h
  have h0 : (ran I (c :: rest) ex s).head? = some 0 := ran_head
  rw [h] at h0
  cases h0

theorem handled_lawful_iff (hk : ∀ c ∈ clauses, ∀ s, Keeps (fresh I) (c.2 (s, fresh I)))
    (disp : Dispatch) :
    Lawful I admits clauses fin ex s e (ran I clauses ex s)
      (ctry I fin disp e (handled I clauses ex s)) ↔ Suits I admits clauses fin ex s e := by
  cases clauses with
  | nil =>
    have hr : ctry I fin disp e (handled I [] ex s) =
        behindFin fin s e (if I.isNull ex then .next else .thrown ex) := ctry_returned disp s ex
    rw [Lawful, hr, List.findIdx?_nil, Suits]
    exact ⟨fun h => (behindFin_eq_iff ex).1 h.2, fun h => ⟨rfl, (behindFin_eq_iff ex).2 h⟩⟩
  | cons c rest =>
    cases ha : admits c.1 ex with
    | false =>
      -- the first clause has been started, though it does not admit the value
      refine ⟨fun h => ?_, fun h => ?_⟩
      · rw [Lawful, List.findIdx?_cons, ha, if_neg Bool.false_ne_true] at h
        cases hf : rest.findIdx? (fun c => admits c.1 ex) with
        | none =>
          rw [hf] at h
          exact absurd h.1 ran_ne_nil
        | some i =>
          rw [hf] at h
          have h0 := congrArg List.head? h.1
          rw [ran_head] at h0
          cases h0
      · cases ha.symm.trans h.1
    | true =>
      have hlaw : ∀ r, Lawful I admits (c :: rest) fin ex s e (ran I (c :: rest) ex s) r ↔
          ran I (c :: rest) ex s = [0] ∧ ClauseLaw fin e r (takes I c ex s) := by
        intro r
        rw [Lawful, List.findIdx?_cons, ha, if_pos rfl]
        refine ⟨fun h => ⟨h.1, h.2 c rfl⟩, fun h => ⟨h.1, fun d hd => ?_⟩⟩
        cases hd
        exact h.2
      have hkeeps : Keeps (fresh I) (takes I c ex s) := hk c List.mem_cons_self _
      rw [hlaw, ran_eq_iff, Suits, handled, catchHelper_cons]
      generalize takes I c ex s = r at hkeeps
      obtain ⟨⟨t, e'⟩, o⟩ := r
      cases o with
      | next =>
        have he : e' = fresh I := hkeeps.resolve_left nofun
        subst he
        refine ⟨fun h => ⟨ha, h.1 rfl⟩, fun h => ⟨fun _ => h.2, ?_⟩⟩
        have hrest : rest = [] := h.2
        subst hrest
        refine (ctry_returned disp t I.null).trans ?_
        rw [I.isNull_null]
        rfl
      | thrown v =>
        have he : e' = fresh I := hkeeps.resolve_left nofun
        subst he
        have hr : ctry I fin disp e ((t, fresh I), .returned v) =
            behindFin fin t e (if I.isNull v then .next else .thrown v) :=
          ctry_returned disp t v
        refine ⟨fun h => ⟨ha, ?_⟩, fun h => ⟨nofun, ?_⟩⟩
        · exact (behindFin_eq_iff v).1 (hr.symm.trans h.2)
        · exact hr.trans ((behindFin_eq_iff v).2 h.2)
      | _ => exact ⟨fun _ => ⟨ha, trivial⟩, fun _ => ⟨nofun, trivial⟩⟩

end law

/-! ## the emitted `try` -/

theorem crunClauses_keeps : ∀ (cs : List CClause), ∀ c ∈ crunClauses I n cs,
    ∀ s, Keeps (fresh I) (c.2 (s, fresh I))
  | [], _, hc => absurd hc List.not_mem_nil
  | .mk _ body :: rest, c, hc => by
    rcases List.mem_cons.1 hc with rfl | hc
    · exact fun s => cruns_keeps body s (fresh I)
    · exact crunClauses_keeps rest c hc

section emitted
variable (I n) (g : Codegen) (body : List Stmt) (catches : List CatchClause) (fin : List Stmt)
  (id : Nat)

/-- the body helper -/
def tryBody : CState σ V → CState σ V × COut V := cruns I n (emitBlock g.inHelper body id).1

/-- the clauses in the catch helper -/
def tryClauses : Clauses σ V :=
  crunClauses I n (emitCatches g.inHelper catches (emitBlock g.inHelper body id).2).1

/-- the final part -/
def tryFin : CState σ V → CState σ V × COut V :=
  cruns I n (emitBlock g fin
    (emitCatches g.inHelper catches (emitBlock g.inHelper body id).2).2).1

variable {I n g body catches fin id}

theorem crun_try (s : σ) (e : Env V) :
    crun I n (emit g (.try_ body catches fin) id).1 (s, e) =
      ctry I (tryFin I n g body catches fin id) g.disp e
        (tryRun I (tryBody I n g body id) (catchHelper I (tryClauses I n g body catches id))
          (s, fresh I)) := rfl

/-- the emitted code deals with an exception that the body throws by the law, if and only if the
exception suits the clauses -/
theorem try_lawful_iff (admits : Nat → V → Bool) {s t : σ} {e e' : Env V} {ex : V}
    (hbody : tryBody I n g body id (s, fresh I) = ((t, e'), .thrown ex)) :
    Lawful I admits (tryClauses I n g body catches id) (tryFin I n g body catches fin id) ex t e
        (ran I (tryClauses I n g body catches id) ex t)
        (crun I n (emit g (.try_ body catches fin) id).1 (s, e)) ↔
      Suits I admits (tryClauses I n g body catches id) (tryFin I n g body catches fin id) ex t e := by
  have hk : Keeps (fresh I) (tryBody I n g body id (s, fresh I)) := cruns_keeps _ s (fresh I)
  rw [hbody] at hk
  have he : e' = fresh I := hk.resolve_left nofun
  subst he
  rw [crun_try, tryRun, hbody]
  exact handled_lawful_iff (crunClauses_keeps _) g.disp

end emitted

end

/-! ## two statements -/

/-- the actions and clauses that have run; action 0 throws, and what it throws is not null -/
def thrower : Interp (List Nat) Bool where
  act a s := (s ++ [a], if a = 0 then .error true else .ok ())
  cond _ s := (s, .ok true)
  sel _ s := (s, .ok none)
  val _ s := (s, .ok true)
  bind ty _ s := s ++ [ty]
  null := false
  isNull v := !v
  isNull_null := rfl

/-- `try { 0 } catch (..) { 1 } finally { 3 }` -/
theorem try_lawful_one :
    Lawful thrower (fun _ _ => true) (tryClauses thrower 0 .init [.act 0] [.mk 5 [.act 1]] 0)
      (tryFin thrower 0 .init [.act 0] [.mk 5 [.act 1]] [.act 3] 0) true [0] (fresh thrower)
      (ran thrower (tryClauses thrower 0 .init [.act 0] [.mk 5 [.act 1]] 0) true [0])
      (crun thrower 0 (emit .init (.try_ [.act 0] [.mk 5 [.act 1]] [.act 3]) 0).1
        ([], fresh thrower)) :=
  (try_lawful_iff (s := []) (fun _ _ => true) rfl).2 ⟨rfl, rfl⟩

/-- `try { 0 } catch (..) { 1 } catch (..) { 2 }`: both clauses run -/
theorem try_not_lawful_two :
    (crun thrower 0 (emit .init (.try_ [.act 0] [.mk 5 [.act 1], .mk 6 [.act 2]] []) 0).1
      ([], fresh thrower)).1.1 = [0, 5, 1, 6, 2] ∧
    ¬ Lawful thrower (fun _ _ => true)
      (tryClauses thrower 0 .init [.act 0] [.mk 5 [.act 1], .mk 6 [.act 2]] 0)
      (tryFin thrower 0 .init [.act 0] [.mk 5 [.act 1], .mk 6 [.act 2]] [] 0) true [0]
      (fresh thrower)
      (ran thrower (tryClauses thrower 0 .init [.act 0] [.mk 5 [.act 1], .mk 6 [.act 2]] 0) true [0])
      (crun thrower 0 (emit .init (.try_ [.act 0] [.mk 5 [.act 1], .mk 6 [.act 2]] []) 0).1
        ([], fresh thrower)) := by
  refine ⟨rfl, fun h => ?_⟩
  have h2 : [0, 1] = [0] := h.1
  cases h2

end Emit
end HolyPhp
