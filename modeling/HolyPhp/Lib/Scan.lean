import Mathlib.Data.List.Basic
import Mathlib.Tactic.Common

/-!
# Computations with a cursor on a text

`Run α τ` is a computation that reads a text of `α` at a cursor; it may not come to its end.  The
cursor keeps every index that was read and every place it was at.

* `Cursor.Sound len`  all reads are below `len`, and the cursor went forward, up to `len` at most;
* `Safe len P m Q`    from a place in `P` the computation keeps that, and ends in `Q`;
* `Reads p m s o`     in front of `s` the computation has the result of `o` and stops where `o`
                      says; `o` is a function of the rest of the text alone.
-/

set_option autoImplicit false

namespace Scan

/-- `path` and `reads` have the last place first -/
structure Cursor where
  pos : Nat
  reads : List Nat
  path : List Nat

def Cursor.start (i : Nat) : Cursor := { pos := i, reads := [], path := [i] }

/-- `none` means that it has not come to its end; the cursor is where it has got to -/
def Run (τ : Type) : Type := Cursor → Option τ × Cursor

section
variable {α τ ρ : Type}

protected def bind (m : Run τ) (f : τ → Run ρ) : Run ρ := fun c =>
  match m c with
  | (none, c) => (none, c)
  | (some a, c) => f a c

instance : Monad Run where
  pure a := fun c => (some a, c)
  bind := Scan.bind

def never : Run τ := fun c => (none, c)

def place : Run Nat := fun c => (some c.pos, c)

def advance (n : Nat) : Run Unit := fun c =>
  (some (), { c with pos := c.pos + n, path := (c.pos + n) :: c.path })

variable (p : List α)

/-- `pos + n <= len` -/
def room (n : Nat) : Run Bool := fun c => (some (decide (c.pos + n ≤ p.length)), c)

variable [Inhabited α]

/-- `p[i]` -/
def readAt (i : Nat) : Run α := fun c => (some (p.getD i default), { c with reads := i :: c.reads })

/-- `p[pos]` -/
def peek : Run α := fun c => readAt p c.pos c

/-- `p[pos++]` -/
def next : Run α := do
  let c ← peek p
  advance 1
  pure c

/-- the `n` elements from `i` on -/
def readMany : Nat → Nat → Run (List α)
  | _, 0 => pure []
  | i, n + 1 => do
    let c ← readAt p i
    let cs ← readMany (i + 1) n
    pure (c :: cs)

/-- `pos < len && p[pos] == c` -/
def isAt [BEq α] (c : α) : Run Bool := do
  if ← room p 1 then
    let d ← peek p
    pure (d == c)
  else pure false

end

/-! ## safe computations -/

structure Cursor.Sound (len : Nat) (c : Cursor) : Prop where
  reads : ∀ i ∈ c.reads, i < len
  path : c.path.Pairwise (· ≥ ·)
  bound : ∀ i ∈ c.path, i ≤ c.pos
  le : c.pos ≤ len

theorem Cursor.Sound.start {len i : Nat} (h : i ≤ len) : (Cursor.start i).Sound len where
  reads := nofun
  path := List.pairwise_singleton _ _
  bound _ hj := Nat.le_of_eq (List.mem_singleton.1 hj)
  le := h

def Safe {τ : Type} (len : Nat) (P : Nat → Prop) (m : Run τ) (Q : τ → Nat → Prop) : Prop :=
  ∀ c : Cursor, c.Sound len → P c.pos →
    (m c).2.Sound len ∧ ∀ a, (m c).1 = some a → Q a (m c).2.pos

section
variable {α τ ρ : Type} {len n i : Nat} {P P' : Nat → Prop} {Q Q' : τ → Nat → Prop}
variable {R : ρ → Nat → Prop} {m m' : Run τ} {f : τ → Run ρ}

theorem Safe.pure {a : τ} (h : ∀ i, P i → Q a i) : Safe len P (pure a) Q :=
  fun c hc hp => ⟨hc, fun _ ha => Option.some.inj ha ▸ h c.pos hp⟩

theorem Safe.never : Safe len P (never : Run τ) Q := fun _ hc _ => ⟨hc, nofun⟩

theorem Safe.conseq (h : Safe len P m Q) (hp : ∀ i, P' i → P i) (hq : ∀ a i, Q a i → Q' a i) :
    Safe len P' m Q' :=
  fun c hc hpc => ⟨(h c hc (hp _ hpc)).1, fun a ha => hq a _ ((h c hc (hp _ hpc)).2 a ha)⟩

theorem Safe.bind (h : Safe len P m Q) (hf : ∀ a, Safe len (Q a) (f a) R) :
    Safe len P (m >>= f) R := by
  intro c hc hp
  obtain ⟨hs, hq⟩ := h c hc hp
  show (Scan.bind m f c).2.Sound len ∧ _
  have hb : (m >>= f) c = Scan.bind m f c := rfl
  rw [hb]
  unfold Scan.bind
  cases hm : m c with
  | mk o c' =>
    rw [hm] at hs hq
    cases o with
    | none => exact ⟨hs, nofun⟩
    | some a => exact hf a c' hs (hq a rfl)

theorem Safe.ite {b : Bool} (ht : b = true → Safe len P m Q) (hf : b = false → Safe len P m' Q) :
    Safe len P (if b then m else m') Q := by
  cases b with
  | true => exact ht rfl
  | false => exact hf rfl

theorem Safe.ite_prop {c : Prop} [Decidable c] (ht : c → Safe len P m Q)
    (hf : ¬ c → Safe len P m' Q) : Safe len P (if c then m else m') Q := by
  split
  · exact ht ‹_›
  · exact hf ‹_›

theorem Safe.place {Q : Nat → Nat → Prop} (h : ∀ i, P i → i ≤ len → Q i i) :
    Safe len P place Q :=
  fun c hc hp => ⟨hc, fun _ ha => Option.some.inj ha ▸ h c.pos hp hc.le⟩

theorem Safe.advance {Q : Unit → Nat → Prop} (h : ∀ i, P i → i + n ≤ len ∧ Q () (i + n)) :
    Safe len P (advance n) Q := by
  intro c hc hp
  refine ⟨⟨hc.reads, ?_, ?_, (h _ hp).1⟩, fun a _ => (h _ hp).2⟩
  · refine List.pairwise_cons.2 ⟨fun j hj => ?_, hc.path⟩
    exact Nat.le_trans (hc.bound j hj) (Nat.le_add_right ..)
  · intro j hj
    rcases List.mem_cons.1 hj with rfl | hj
    · exact Nat.le_refl _
    · exact Nat.le_trans (hc.bound j hj) (Nat.le_add_right ..)

variable {p : List α}

theorem Safe.room {Q : Bool → Nat → Prop} (ht : ∀ i, P i → i + n ≤ p.length → Q true i)
    (hf : ∀ i, P i → ¬ i + n ≤ p.length → Q false i) : Safe p.length P (room p n) Q := by
  intro c hc hp
  refine ⟨hc, fun a ha => ?_⟩
  obtain rfl := Option.some.inj ha
  by_cases hr : c.pos + n ≤ p.length
  · rw [decide_eq_true hr]
    exact ht _ hp hr
  · rw [decide_eq_false hr]
    exact hf _ hp hr

variable [Inhabited α]

theorem Safe.readAt {Q : α → Nat → Prop} (hi : ∀ j, P j → i < len) (h : ∀ a j, P j → Q a j) :
    Safe len P (readAt p i) Q := by
  intro c hc hp
  refine ⟨⟨fun j hj => ?_, hc.path, hc.bound, hc.le⟩, fun a _ => h a _ hp⟩
  rcases List.mem_cons.1 hj with rfl | hj
  · exact hi _ hp
  · exact hc.reads j hj

theorem Safe.peek {Q : α → Nat → Prop} (hi : ∀ j, P j → j < len) (h : ∀ a j, P j → Q a j) :
    Safe len P (peek p) Q :=
  fun c hc hp => Safe.readAt (P := P) (fun _ _ => hi _ hp) h c hc hp

theorem Safe.next {Q : α → Nat → Prop} (hi : ∀ j, P j → j < len) (h : ∀ a j, P j → Q a (j + 1)) :
    Safe len P (next p) Q := by
  refine (Safe.peek (Q := fun _ => P) hi fun _ _ hj => hj).bind fun a => ?_
  refine (Safe.advance (Q := fun _ j => Q a j) fun j hj => ⟨hi j hj, h a j hj⟩).bind fun _ => ?_
  exact Safe.pure fun _ hj => hj

theorem Safe.readMany (hi : ∀ j, P j → i + n ≤ len) :
    Safe len P (readMany p i n) fun _ => P := by
  induction n generalizing i with
  | zero => exact Safe.pure fun _ hj => hj
  | succ n ih =>
    have hlt : ∀ j, P j → i < len := fun j hj => by
      have := hi j hj
      omega
    have hle : ∀ j, P j → i + 1 + n ≤ len := fun j hj => by
      have := hi j hj
      omega
    refine (Safe.readAt (Q := fun _ => P) hlt fun _ _ hj => hj).bind fun a => ?_
    exact (ih hle).bind fun as => Safe.pure fun _ hj => hj

/-- behind the test the cursor is not at the end -/
theorem Safe.isAt [BEq α] {c : α} {Q : Bool → Nat → Prop} (ht : ∀ i, P i → i < p.length → Q true i)
    (hf : ∀ i, P i → Q false i) : Safe p.length P (isAt p c) Q := by
  refine (Safe.room (Q := fun b i => P i ∧ (b = true → i < p.length))
    (fun _ hj hr => ⟨hj, fun _ => hr⟩) fun _ hj _ => ⟨hj, nofun⟩).bind fun b => ?_
  refine Safe.ite (fun hb => ?_) fun _ => Safe.pure fun i hi => hf i hi.1
  refine (Safe.peek (Q := fun _ i => P i ∧ i < p.length) (fun j hj => hj.2 hb)
    fun _ j hj => ⟨hj.1, hj.2 hb⟩).bind fun d => ?_
  refine Safe.pure fun i hi => ?_
  cases d == c with
  | true => exact ht i hi.1 hi.2
  | false => exact hf i hi.1

end

/-! ## the result by the rest of the text -/

section
variable {α τ ρ : Type} {p : List α}

def Reads (p : List α) (m : Run τ) (s : List α) (o : Option (τ × List α)) : Prop :=
  ∀ c : Cursor, p.drop c.pos = s → c.pos ≤ p.length →
    (m c).1 = o.map Prod.fst ∧ ∀ r ∈ o, p.drop (m c).2.pos = r.2 ∧ (m c).2.pos ≤ p.length

variable {m m' : Run τ} {f : τ → Run ρ} {s r : List α} {a : τ} {x : α} {n i : Nat}
variable {o : Option (τ × List α)} {g : τ × List α → Option (ρ × List α)}

theorem length_of_drop {c : Nat} (h : p.drop c = s) (hc : c ≤ p.length) :
    c + s.length = p.length := by
  rw [← h, List.length_drop]
  omega

theorem Reads.of_suffix (h : s <:+ p → Reads p m s o) : Reads p m s o :=
  fun c hd hc => h (hd ▸ List.drop_suffix _ _) c hd hc

theorem Reads.pure : Reads p (pure a) s (some (a, s)) := by
  intro c hd hc
  refine ⟨rfl, fun r hr => ?_⟩
  obtain rfl := Option.some.inj hr
  exact ⟨hd, hc⟩

theorem Reads.never : Reads p (never : Run τ) s none := fun _ _ _ => ⟨rfl, nofun⟩

theorem Reads.bind (h : Reads p m s o) (hf : ∀ a r, o = some (a, r) → Reads p (f a) r (g (a, r))) :
    Reads p (m >>= f) s (o.bind g) := by
  intro c hd hc
  obtain ⟨h1, h2⟩ := h c hd hc
  have hb : (m >>= f) c = Scan.bind m f c := rfl
  rw [hb]
  unfold Scan.bind
  cases hm : m c with
  | mk a c' =>
    rw [hm] at h1 h2
    cases o with
    | none =>
      obtain rfl : a = none := h1
      exact ⟨rfl, nofun⟩
    | some r =>
      obtain rfl : a = some r.1 := h1
      obtain ⟨hd', hc'⟩ := h2 r rfl
      exact hf r.1 r.2 rfl c' hd' hc'

/-- a first part that comes to its end -/
theorem Reads.seq {o : Option (ρ × List α)} (h : Reads p m s (some (a, r))) (hf : Reads p (f a) r o) :
    Reads p (m >>= f) s o :=
  Reads.bind (g := fun _ => o) h fun a' r' he => by
    obtain ⟨rfl, rfl⟩ := Prod.mk.inj (Option.some.inj he)
    exact hf

theorem Reads.ite {b : Bool} (ht : b = true → Reads p m s o) (hf : b = false → Reads p m' s o) :
    Reads p (if b then m else m') s o := by
  cases b with
  | true => exact ht rfl
  | false => exact hf rfl

theorem Reads.ite_pos {b : Bool} (hb : b = true) (h : Reads p m s o) :
    Reads p (if b then m else m') s o := .ite (fun _ => h) fun hf => nomatch hb.symm.trans hf

theorem Reads.ite_neg {b : Bool} (hb : b = false) (h : Reads p m' s o) :
    Reads p (if b then m else m') s o := .ite (fun ht => nomatch hb.symm.trans ht) fun _ => h

theorem Reads.room : Reads p (room p n) s (some (decide (n ≤ s.length), s)) := by
  intro c hd hc
  have hlen := length_of_drop hd hc
  refine ⟨congrArg some (decide_eq_decide.2 (by omega)), fun r hr => ?_⟩
  obtain rfl := Option.some.inj hr
  exact ⟨hd, hc⟩

theorem Reads.place : Reads p place s (some (p.length - s.length, s)) := by
  intro c hd hc
  have hlen := length_of_drop hd hc
  refine ⟨congrArg some (by omega), fun r hr => ?_⟩
  obtain rfl := Option.some.inj hr
  exact ⟨hd, hc⟩

theorem Reads.advance (hn : n ≤ s.length) : Reads p (advance n) s (some ((), s.drop n)) := by
  intro c hd hc
  have hlen := length_of_drop hd hc
  refine ⟨rfl, fun r hr => ?_⟩
  obtain rfl := Option.some.inj hr
  refine ⟨?_, Nat.le_trans (Nat.add_le_add_left hn _) (Nat.le_of_eq hlen)⟩
  show p.drop (c.pos + n) = s.drop n
  rw [← hd, List.drop_drop]

/-- the test that the cursor is not at the end -/
theorem Reads.inside (hnil : s = [] → Reads p m' [] o) (hcons : ∀ x t, s = x :: t → Reads p m s o) :
    Reads p (Scan.room p 1 >>= fun b => if b then m else m') s o := by
  refine Reads.room.seq (Reads.ite (fun hr => ?_) fun hr => ?_)
  · cases s with
    | nil => exact absurd (of_decide_eq_true hr) (Nat.not_succ_le_zero 0)
    | cons x s => exact hcons x s rfl
  · cases s with
    | nil => exact hnil rfl
    | cons x s => exact absurd (Nat.le_add_left 1 _) (of_decide_eq_false hr)

variable [Inhabited α]

theorem Reads.peek : Reads p (peek p) (x :: s) (some (x, x :: s)) := by
  intro c hd hc
  refine ⟨?_, fun r hr => ?_⟩
  · show some (p.getD c.pos default) = some x
    have h0 := congrArg List.head? hd
    rw [List.head?_drop] at h0
    rw [List.getD_eq_getElem?_getD, h0]
    rfl
  · obtain rfl := Option.some.inj hr
    exact ⟨hd, hc⟩

theorem Reads.next : Reads p (next p) (x :: s) (some (x, s)) :=
  Reads.peek.seq ((Reads.advance (Nat.le_add_left 1 _)).seq Reads.pure)

theorem Reads.readMany (h : i + n ≤ p.length) :
    Reads p (readMany p i n) s (some ((p.drop i).take n, s)) := by
  induction n generalizing i with
  | zero => exact Reads.pure
  | succ n ih =>
    have hi : i < p.length := by omega
    have hread : Reads p (readAt p i) s (some (p[i], s)) := by
      intro c hd hc
      refine ⟨congrArg some ?_, fun r hr => ?_⟩
      · rw [List.getD_eq_getElem?_getD, List.getElem?_eq_getElem hi]
        rfl
      · obtain rfl := Option.some.inj hr
        exact ⟨hd, hc⟩
    refine hread.seq ((ih (by omega)).seq ?_)
    rw [List.drop_eq_getElem_cons hi, List.take_succ_cons]
    exact Reads.pure

theorem Reads.isAt [BEq α] {c : α} : Reads p (isAt p c) s
    (some ((s.head?.map (· == c)).getD false, s)) := by
  cases s with
  | nil => exact Reads.inside (fun _ => Reads.pure) nofun
  | cons x s => exact Reads.inside nofun fun _ _ _ => Reads.peek.seq Reads.pure

end
end Scan
