import HolyPhp.Lib.Runs
import Mathlib.Data.List.Perm.Basic
import Mathlib.Data.List.Count

/-!
# Critical sections under one lock

The operations of an object run one after the other in a critical section; a section is a list of
small steps on the memory and the registers of its thread, and threads interleave between them.

* `Object`       the sections of the operations and the answer that each leaves in the registers;
* `sys O`        the threads: `call`, `lock`, the steps of the section, `unlock`, `ret`;
* `Spec`         the operations as functions on what the memory stands for;
* `atomic f`     the system of a `Spec`: between the call and the return of an operation there is
                 one point at which all of it happens;
* `Object.refines`  every reachable state of `sys O` has the history of a reachable state of
                 `atomic f`;
* `linear`       the points in their order are a run of the `Spec`, and thread by thread they are
                 the returns of the history and at most one more;
* `Linear.subperm`, `Linear.rest_perm`  what returned had its point; when no thread is inside an
                 operation, the returns are the points.
-/

set_option autoImplicit false

namespace Sections
open Function Runs

/-- `enter` are the registers at the start of a section -/
structure Object (σ ρ ι α : Type*) where
  enter : ι → ρ
  body : ι → List (σ × ρ → σ × ρ)
  answer : ι → ρ → α

/-- the operations at once -/
abbrev Spec (κ ι α : Type*) := ι → κ → κ × α

inductive Event (ι α : Type*) where
  | call (t : Nat) (op : ι)
  | ret (t : Nat) (op : ι) (a : α)

inductive Pc (σ ρ ι α : Type*) where
  | idle
  | waiting (op : ι)
  /-- the registers and the steps that are left -/
  | inside (op : ι) (r : ρ) (rest : List (σ × ρ → σ × ρ))
  | leaving (op : ι) (a : α)

structure State (σ ρ ι α : Type*) where
  mem : σ
  holder : Option Nat
  pc : Nat → Pc σ ρ ι α
  hist : List (Event ι α)

inductive Act (ι : Type*) where
  | call (t : Nat) (op : ι)
  | lock (t : Nat)
  | micro (t : Nat)
  | unlock (t : Nat)
  | ret (t : Nat)

section object
variable {σ ρ ι α : Type*} (O : Object σ ρ ι α)

def runs (l : List (σ × ρ → σ × ρ)) (x : σ × ρ) : σ × ρ := l.foldl (fun y f => f y) x

/-- a section that nobody else interrupts -/
def Object.exec (op : ι) (m : σ) : σ × α :=
  let x := runs (O.body op) (m, O.enter op)
  (x.1, O.answer op x.2)

def next (s : State σ ρ ι α) : Act ι → Option (State σ ρ ι α)
  | .call t op =>
    match s.pc t with
    | .idle => some { s with pc := update s.pc t (.waiting op), hist := s.hist ++ [.call t op] }
    | _ => none
  | .lock t =>
    match s.holder, s.pc t with
    | none, .waiting op =>
      some { s with holder := some t, pc := update s.pc t (.inside op (O.enter op) (O.body op)) }
    | _, _ => none
  | .micro t =>
    match s.pc t with
    | .inside op r (f :: rest) =>
      let x := f (s.mem, r)
      some { s with mem := x.1, pc := update s.pc t (.inside op x.2 rest) }
    | _ => none
  | .unlock t =>
    match s.pc t with
    | .inside op r [] =>
      some { s with holder := none, pc := update s.pc t (.leaving op (O.answer op r)) }
    | _ => none
  | .ret t =>
    match s.pc t with
    | .leaving op a =>
      some { s with pc := update s.pc t .idle, hist := s.hist ++ [.ret t op a] }
    | _ => none

def start (m : σ) : State σ ρ ι α := ⟨m, none, fun _ => .idle, []⟩

def sys (I : σ → Prop) : Sys (State σ ρ ι α) (Act ι) :=
  ⟨fun s => ∃ m, I m ∧ s = start m, next O⟩

end object

/-- the threads call nothing but operations in `P` -/
def Only {τ ι : Type*} (P : ι → Prop) (_ : τ) : Act ι → Prop
  | .call _ op => P op
  | _ => True

/-! ## operations at one point -/

inductive Phase (ι α : Type*) where
  | idle
  | called (op : ι)
  | done (op : ι) (a : α)

/-- `log` is a history: the points of the operations, in their order -/
structure Atom (κ ι α : Type*) where
  mem : κ
  phase : Nat → Phase ι α
  hist : List (Event ι α)
  log : List (Nat × ι × α)

inductive Move (ι : Type*) where
  | call (t : Nat) (op : ι)
  | point (t : Nat)
  | ret (t : Nat)

section spec
variable {κ ι α : Type*} (f : Spec κ ι α)

def step (a : Atom κ ι α) : Move ι → Option (Atom κ ι α)
  | .call t op =>
    match a.phase t with
    | .idle =>
      some { a with phase := update a.phase t (.called op), hist := a.hist ++ [.call t op] }
    | _ => none
  | .point t =>
    match a.phase t with
    | .called op =>
      some { a with
        mem := (f op a.mem).1
        phase := update a.phase t (.done op (f op a.mem).2)
        log := a.log ++ [(t, op, (f op a.mem).2)] }
    | _ => none
  | .ret t =>
    match a.phase t with
    | .done op x => some { a with phase := update a.phase t .idle, hist := a.hist ++ [.ret t op x] }
    | _ => none

def fresh (m : κ) : Atom κ ι α := ⟨m, fun _ => .idle, [], []⟩

def atomic (I : κ → Prop) : Sys (Atom κ ι α) (Move ι) :=
  ⟨fun a => ∃ m, I m ∧ a = fresh m, step f⟩

/-- the operations of the list, one after the other from `m`, give its answers and end in `m'` -/
def Legal (m m' : κ) : List (Nat × ι × α) → Prop
  | [] => m = m'
  | (_, op, x) :: l => (f op m).2 = x ∧ Legal (f op m).1 m' l

def OnlyOps (P : ι → Prop) (_ : Atom κ ι α) : Move ι → Prop
  | .call _ op => P op
  | _ => True

end spec

/-! ## the points of a run -/

section points
variable {κ ι α : Type*} {f : Spec κ ι α} {I : κ → Prop} {P : ι → Prop}

/-- the returns of a history -/
def rets (h : List (Event ι α)) : List (Nat × ι × α) :=
  h.filterMap fun
    | .call _ _ => none
    | .ret t op a => some (t, op, a)

/-- the operation of thread `t` that has had its point and has not returned -/
def Phase.pending (t : Nat) : Phase ι α → List (Nat × ι × α)
  | .done op a => [(t, op, a)]
  | _ => []

/-- what thread `t` did -/
def mine (t : Nat) (l : List (Nat × ι × α)) : List (Nat × ι × α) := l.filter fun e => e.1 == t

theorem mine_append (t : Nat) (l l' : List (Nat × ι × α)) :
    mine t (l ++ l') = mine t l ++ mine t l' := List.filter_append ..

theorem mine_self (t : Nat) (e : ι × α) : mine t [(t, e)] = [(t, e)] := by
  rw [mine, List.filter_cons_of_pos (by simp), List.filter_nil]

theorem mine_other {t t' : Nat} (h : t ≠ t') (e : ι × α) : mine t' [(t, e)] = [] := by
  rw [mine, List.filter_cons_of_neg (by simpa using h), List.filter_nil]

theorem rets_call (h : List (Event ι α)) (t : Nat) (op : ι) :
    rets (h ++ [.call t op]) = rets h := by
  rw [rets, List.filterMap_append]
  exact List.append_nil _

theorem rets_ret (h : List (Event ι α)) (t : Nat) (op : ι) (a : α) :
    rets (h ++ [.ret t op a]) = rets h ++ [(t, op, a)] := by
  rw [rets, List.filterMap_append]
  rfl

theorem Legal.concat {m m' : κ} {l : List (Nat × ι × α)} (h : Legal f m m' l) (t : Nat) (op : ι) :
    Legal f m (f op m').1 (l ++ [(t, op, (f op m').2)]) := by
  induction l generalizing m with
  | nil =>
    obtain rfl : m = m' := h
    exact ⟨rfl, rfl⟩
  | cons e l ih => exact ⟨h.1, ih h.2⟩

theorem Legal.append {m m' : κ} {l l' : List (Nat × ι × α)} (h : Legal f m m' (l ++ l')) :
    ∃ u, Legal f m u l ∧ Legal f u m' l' := by
  induction l generalizing m with
  | nil => exact ⟨m, rfl, h⟩
  | cons e l ih =>
    obtain ⟨u, h1, h2⟩ := ih h.2
    exact ⟨u, ⟨h.1, h1⟩, h2⟩

/-- an operation that was called is one of `P` -/
def Phase.Ok (P : ι → Prop) (c : Phase ι α) : Prop := ∀ op, c = .called op → P op

/-- thread `t` stands at `c`: its points are its returns and the one that is pending -/
def Ordered (log : List (Nat × ι × α)) (h : List (Event ι α)) (t : Nat) (c : Phase ι α) : Prop :=
  mine t log = mine t (rets h) ++ c.pending t

/-- the points of the operations and what is left of them in the phases and in the history -/
structure Points (f : Spec κ ι α) (P : ι → Prop) (I : κ → Prop) (a : Atom κ ι α) : Prop where
  legal : ∃ m, I m ∧ Legal f m a.mem a.log
  only : ∀ e ∈ a.log, P e.2.1
  called : ∀ t, (a.phase t).Ok P
  order : ∀ t, Ordered a.log a.hist t (a.phase t)

theorem points_step {a b : Atom κ ι α} {l : Move ι} (ha : Points f P I a) (hl : OnlyOps P a l)
    (h : step f a l = some b) : Points f P I b := by
  cases l with
  | call t op =>
    simp only [step] at h
    split at h
    · next hp =>
      obtain rfl := Option.some.inj h
      refine ⟨ha.legal, ha.only, ?_, ?_⟩
      · refine (forall_update_iff a.phase fun _ c => c.Ok P).2 ⟨?_, fun t' _ => ha.called t'⟩
        intro op' h'
        exact Phase.called.inj h' ▸ hl
      · refine (forall_update_iff a.phase (Ordered a.log (a.hist ++ [.call t op]))).2 ⟨?_, ?_⟩
        · rw [Ordered, rets_call, ha.order t, hp]
          rfl
        · intro t' _
          rw [Ordered, rets_call]
          exact ha.order t'
    · cases h
  | point t =>
    simp only [step] at h
    split at h
    · next op hp =>
      obtain rfl := Option.some.inj h
      obtain ⟨m, hm, hlegal⟩ := ha.legal
      refine ⟨⟨m, hm, hlegal.concat t op⟩, ?_, ?_, ?_⟩
      · intro e he
        rcases List.mem_append.1 he with he | he
        · exact ha.only e he
        · obtain rfl := List.mem_singleton.1 he
          exact ha.called t op hp
      · refine (forall_update_iff a.phase fun _ c => c.Ok P).2 ⟨?_, fun t' _ => ha.called t'⟩
        intro op' h'
        cases h'
      · refine (forall_update_iff a.phase
          (Ordered (a.log ++ [(t, op, (f op a.mem).2)]) a.hist)).2 ⟨?_, ?_⟩
        · rw [Ordered, mine_append, mine_self, ha.order t, hp]
          exact congrArg (· ++ _) (List.append_nil _)
        · intro t' e
          rw [Ordered, mine_append, mine_other (Ne.symm e), List.append_nil]
          exact ha.order t'
    · cases h
  | ret t =>
    simp only [step] at h
    split at h
    · next op x hp =>
      obtain rfl := Option.some.inj h
      refine ⟨ha.legal, ha.only, ?_, ?_⟩
      · refine (forall_update_iff a.phase fun _ c => c.Ok P).2 ⟨?_, fun t' _ => ha.called t'⟩
        intro op' h'
        cases h'
      · refine (forall_update_iff a.phase (Ordered a.log (a.hist ++ [.ret t op x]))).2 ⟨?_, ?_⟩
        · rw [Ordered, rets_ret, mine_append, mine_self, ha.order t, hp]
          exact (List.append_nil _).symm
        · intro t' e
          rw [Ordered, rets_ret, mine_append, mine_other (Ne.symm e), List.append_nil]
          exact ha.order t'
    · cases h

theorem points_reach {a : Atom κ ι α} (h : (atomic f I).ReachIf (OnlyOps P) a) :
    Points f P I a := by
  refine h.inv ?_ fun a l b ha hl hn => points_step ha hl hn
  rintro a ⟨m, hm, rfl⟩
  refine ⟨⟨m, hm, rfl⟩, ?_, ?_, fun t => rfl⟩
  · intro e he
    cases he
  · intro t op h
    cases h

end points

/-! ## sections are atomic -/

section refine
variable {σ ρ κ ι α : Type*} {O : Object σ ρ ι α} {f : Spec κ ι α} {abs : σ → κ}
  {I : σ → Prop} {J : κ → Prop} {P : ι → Prop}

/-- the state of the memory when the holder is through with its section -/
def State.settled (s : State σ ρ ι α) : σ :=
  match s.holder with
  | some t =>
    match s.pc t with
    | .inside _ r rest => (runs rest (s.mem, r)).1
    | _ => s.mem
  | none => s.mem

/-- an operation has its point when it gets the lock -/
def Pc.phase (O : Object σ ρ ι α) (m : σ) : Pc σ ρ ι α → Phase ι α
  | .idle => .idle
  | .waiting op => .called op
  | .inside op r rest => .done op (O.answer op (runs rest (m, r)).2)
  | .leaving op a => .done op a

def Pc.isInside : Pc σ ρ ι α → Prop
  | .inside _ _ _ => True
  | _ => False

/-- who is inside a section holds the lock, and nobody else does -/
def Held (s : State σ ρ ι α) : Prop := ∀ t, (s.pc t).isInside ↔ s.holder = some t

structure Refines (O : Object σ ρ ι α) (abs : σ → κ) (s : State σ ρ ι α) (a : Atom κ ι α) :
    Prop where
  held : Held s
  mem : a.mem = abs s.settled
  phase : ∀ t, a.phase t = (s.pc t).phase O s.mem
  hist : a.hist = s.hist

/-- the phase of a thread outside does not depend on the memory -/
theorem Pc.phase_outside {c : Pc σ ρ ι α} (h : ¬ c.isInside) (m m' : σ) :
    c.phase O m = c.phase O m' := by
  cases c with
  | inside op r rest => exact absurd trivial h
  | _ => rfl

theorem settled_inside {s : State σ ρ ι α} {t : Nat} {op : ι} {r : ρ}
    {rest : List (σ × ρ → σ × ρ)} (h : s.holder = some t) (hp : s.pc t = .inside op r rest) :
    s.settled = (runs rest (s.mem, r)).1 := by
  unfold State.settled
  rw [h]
  dsimp only
  rw [hp]

theorem settled_at (m : σ) (t : Nat) (pc : Nat → Pc σ ρ ι α) (op : ι) (r : ρ)
    (rest : List (σ × ρ → σ × ρ)) (h : List (Event ι α)) :
    State.settled ⟨m, some t, update pc t (.inside op r rest), h⟩ = (runs rest (m, r)).1 :=
  settled_inside rfl (update_self ..)

theorem settled_free {s : State σ ρ ι α} (h : s.holder = none) : s.settled = s.mem := by
  unfold State.settled
  rw [h]

/-- no step of a thread outside changes what the memory will be -/
theorem settled_other {s : State σ ρ ι α} {t : Nat} {c : Pc σ ρ ι α} (hs : Held s)
    (h : ¬ (s.pc t).isInside) (hist : List (Event ι α)) :
    State.settled { s with pc := update s.pc t c, hist := hist } = s.settled := by
  unfold State.settled
  cases ho : s.holder with
  | none => rfl
  | some u =>
    have hne : u ≠ t := by
      intro e
      subst e
      exact h ((hs u).2 ho)
    dsimp only
    rw [update_of_ne hne]

theorem Held.move {s : State σ ρ ι α} {t : Nat} {c : Pc σ ρ ι α} (hs : Held s)
    (h : ¬ (s.pc t).isInside) (hc : ¬ c.isInside) (hist : List (Event ι α)) :
    Held { s with pc := update s.pc t c, hist := hist } := by
  refine (forall_update_iff s.pc fun u c => c.isInside ↔ s.holder = some u).2
    ⟨?_, fun u _ => hs u⟩
  exact ⟨fun hi => absurd hi hc, fun ho => absurd ((hs t).2 ho) h⟩

theorem phase_update {p : Nat → Phase ι α} {pc : Nat → Pc σ ρ ι α} {m : σ}
    (h : ∀ u, p u = (pc u).phase O m) (t : Nat) {c : Pc σ ρ ι α} {d : Phase ι α}
    (hd : d = c.phase O m) (u : Nat) : update p t d u = (update pc t c u).phase O m := by
  by_cases e : u = t
  · rw [e, update_self, update_self, hd]
  · rw [update_of_ne e, update_of_ne e, h u]

/-- a thread outside goes on to a place outside -/
theorem Refines.move {s : State σ ρ ι α} {a : Atom κ ι α} (h : Refines O abs s a) {t : Nat}
    {c : Pc σ ρ ι α} (h1 : ¬ (s.pc t).isInside) (h2 : ¬ c.isInside) {d : Phase ι α}
    (hd : d = c.phase O s.mem) (l : List (Event ι α)) :
    Refines O abs { s with pc := update s.pc t c, hist := s.hist ++ l }
      { a with phase := update a.phase t d, hist := a.hist ++ l } where
  held := h.held.move h1 h2 _
  mem := h.mem.trans (congrArg abs (settled_other h.held h1 _).symm)
  phase := phase_update h.phase t hd
  hist := congrArg (· ++ l) h.hist

/-- **A step of the threads is a step of the atomic system or does nothing there**, if a section
does what its operation does. -/
theorem refines_step (hf : ∀ op m, f op (abs m) = (abs (O.exec op m).1, (O.exec op m).2))
    {s t : State σ ρ ι α} {a : Atom κ ι α} {l : Act ι} (h : Refines O abs s a) (hl : Only P s l)
    (hn : next O s l = some t) :
    Refines O abs t a ∨ ∃ k b, OnlyOps P a k ∧ step f a k = some b ∧ Refines O abs t b := by
  cases l with
  | call u op =>
    simp only [next] at hn
    split at hn
    · next hp =>
      obtain rfl := Option.some.inj hn
      have ha : a.phase u = .idle := by
        rw [h.phase, hp]
        rfl
      have hb : step f a (.call u op) = some { a with
          phase := update a.phase u (.called op), hist := a.hist ++ [.call u op] } := by
        simp only [step, ha]
      refine .inr ⟨.call u op, _, hl, hb, h.move ?_ id rfl _⟩
      · rw [hp]
        exact id
    · cases hn
  | lock u =>
    simp only [next] at hn
    split at hn
    · next op ho hp =>
      obtain rfl := Option.some.inj hn
      have ha : a.phase u = .called op := by
        rw [h.phase, hp]
        rfl
      have hmem : f op a.mem = (abs (O.exec op s.mem).1, (O.exec op s.mem).2) := by
        rw [h.mem, settled_free ho, hf]
      have hb : step f a (.point u) = some { a with
          mem := (f op a.mem).1
          phase := update a.phase u (.done op (f op a.mem).2)
          log := a.log ++ [(u, op, (f op a.mem).2)] } := by
        simp only [step, ha]
      refine .inr ⟨.point u, _, trivial, hb, ?_, ?_, ?_, h.hist⟩
      · refine (forall_update_iff s.pc fun v c => c.isInside ↔ some u = some v).2 ⟨?_, ?_⟩
        · exact ⟨fun _ => rfl, fun _ => trivial⟩
        · intro v e
          rw [h.held v, ho, Option.some_inj]
          exact iff_of_false (Option.some_ne_none v).symm (Ne.symm e)
      · rw [settled_at]
        exact congrArg Prod.fst hmem
      · refine phase_update h.phase u ?_
        rw [hmem]
        rfl
    · cases hn
  | micro u =>
    simp only [next] at hn
    split at hn
    · next op r g rest hp =>
      obtain rfl := Option.some.inj hn
      have ho : s.holder = some u := (h.held u).1 (by rw [hp]; trivial)
      refine .inl ⟨?_, ?_, ?_, h.hist⟩
      · refine (forall_update_iff s.pc fun v c => c.isInside ↔ s.holder = some v).2
          ⟨?_, fun v _ => h.held v⟩
        exact ⟨fun _ => ho, fun _ => trivial⟩
      · rw [h.mem, settled_inside ho hp, ho, settled_at]
        rfl
      · intro v
        show a.phase v = (update s.pc u _ v).phase O (g (s.mem, r)).1
        by_cases e : v = u
        · subst e
          rw [h.phase, hp, update_self]
          rfl
        · have hout : ¬ (s.pc v).isInside := by
            rw [h.held v, ho]
            exact fun h' => e (Option.some.inj h').symm
          rw [update_of_ne e, h.phase]
          exact Pc.phase_outside hout _ _
    · cases hn
  | unlock u =>
    simp only [next] at hn
    split at hn
    · next op r hp =>
      obtain rfl := Option.some.inj hn
      have ho : s.holder = some u := (h.held u).1 (by rw [hp]; trivial)
      refine .inl ⟨?_, ?_, ?_, h.hist⟩
      · refine (forall_update_iff s.pc fun v c => c.isInside ↔ none = some v).2 ⟨?_, ?_⟩
        · exact iff_of_false id (Option.some_ne_none _).symm
        · intro v e
          rw [h.held v, ho, Option.some_inj]
          exact iff_of_false (Ne.symm e) (Option.some_ne_none v).symm
      · rw [h.mem, settled_inside ho hp, settled_free rfl]
        rfl
      · intro v
        show a.phase v = (update s.pc u _ v).phase O s.mem
        by_cases e : v = u
        · subst e
          rw [h.phase, hp, update_self]
          rfl
        · rw [update_of_ne e, h.phase]
    · cases hn
  | ret u =>
    simp only [next] at hn
    split at hn
    · next op x hp =>
      obtain rfl := Option.some.inj hn
      have ha : a.phase u = .done op x := by
        rw [h.phase, hp]
        rfl
      have hb : step f a (.ret u) = some { a with
          phase := update a.phase u .idle, hist := a.hist ++ [.ret u op x] } := by
        simp only [step, ha]
      refine .inr ⟨.ret u, _, trivial, hb, h.move ?_ id rfl _⟩
      · rw [hp]
        exact id
    · cases hn

/-- **Sections are atomic.** -/
theorem Object.refines (hf : ∀ op m, f op (abs m) = (abs (O.exec op m).1, (O.exec op m).2))
    (hI : ∀ m, I m → J (abs m)) {s : State σ ρ ι α} (hs : (sys O I).ReachIf (Only P) s) :
    ∃ a, (atomic f J).ReachIf (OnlyOps P) a ∧ Refines O abs s a := by
  refine hs.rel (Refines O abs) ?_ fun s a l t h hl hn => refines_step hf h hl hn
  rintro s ⟨m, hm, rfl⟩
  refine ⟨fresh (abs m), ⟨abs m, hI m hm, rfl⟩, ?_, rfl, fun t => rfl, rfl⟩
  exact fun t => iff_of_false id (Option.some_ne_none _).symm

/-- what the threads did so far: `log` are the points in their order -/
structure Linear (f : Spec κ ι α) (abs : σ → κ) (P : ι → Prop) (J : κ → Prop)
    (s : State σ ρ ι α) (log : List (Nat × ι × α)) : Prop where
  legal : ∃ m, J m ∧ Legal f m (abs s.settled) log
  only : ∀ e ∈ log, P e.2.1
  order : ∀ t, mine t (rets s.hist) <+: mine t log
  rest : (∀ t, s.pc t = .idle) → ∀ t, mine t log = mine t (rets s.hist)

theorem linear (hf : ∀ op m, f op (abs m) = (abs (O.exec op m).1, (O.exec op m).2))
    (hI : ∀ m, I m → J (abs m)) {s : State σ ρ ι α} (hs : (sys O I).ReachIf (Only P) s) :
    ∃ log, Linear f abs P J s log := by
  obtain ⟨a, ha, hr⟩ := O.refines hf hI hs
  have hp := points_reach ha
  refine ⟨a.log, hr.mem ▸ hp.legal, hp.only, fun t => ?_, fun h t => ?_⟩
  · rw [hp.order t, hr.hist]
    exact List.prefix_append _ _
  · rw [hp.order t, hr.hist, hr.phase t, h t]
    exact List.append_nil _

/-- with no thread inside a section the memory is as it stands -/
theorem settled_rest (hf : ∀ op m, f op (abs m) = (abs (O.exec op m).1, (O.exec op m).2))
    {s : State σ ρ ι α} (hs : (sys O I).ReachIf (Only P) s) (h : ∀ t, s.pc t = .idle) :
    s.settled = s.mem := by
  obtain ⟨a, _, hr⟩ := O.refines (J := fun _ => True) hf (fun _ _ => trivial) hs
  cases ho : s.holder with
  | none => exact settled_free ho
  | some t =>
    have hin := (hr.held t).2 ho
    rw [h t] at hin
    exact hin.elim

end refine

section count
variable {σ ρ κ ι α : Type*} [BEq ι] [BEq α] [LawfulBEq ι] [LawfulBEq α] {f : Spec κ ι α}
  {abs : σ → κ} {P : ι → Prop} {J : κ → Prop} {s : State σ ρ ι α} {log : List (Nat × ι × α)}

theorem count_mine (l : List (Nat × ι × α)) (e : Nat × ι × α) :
    l.count e = (mine e.1 l).count e := by
  rw [mine, List.count_filter]
  exact beq_self_eq_true e.1

/-- nothing returns that had no point -/
theorem Linear.subperm (h : Linear f abs P J s log) : List.Subperm (rets s.hist) log := by
  refine List.subperm_ext_iff.2 fun e _ => ?_
  rw [count_mine, count_mine log]
  exact (h.order e.1).sublist.count_le e

/-- **At rest the returns are the points.** -/
theorem Linear.rest_perm (h : Linear f abs P J s log) (hr : ∀ t, s.pc t = .idle) :
    List.Perm (rets s.hist) log := by
  classical
  refine List.perm_iff_count.2 fun e => ?_
  rw [count_mine, count_mine log, h.rest hr]

end count
end Sections
