import Mathlib.Data.Fintype.Card
import Mathlib.Order.WellFounded
import Mathlib.Logic.Relation
import Mathlib.Tactic.Common

/-!
# Loops that follow a pointer

`next` leads from a node to the next, or nowhere; a loop follows it until `stop` gives something.

* `climb n`      the loop, for at most `n` nodes; `Ends` when some number is enough;
* `ends_iff`     it ends when it comes to a node where it stops or that has no next;
* `ends_of_acyclic`  **without cycles, among finitely many nodes, every loop ends**;
* `not_ends_of_cycle`  on a cycle where it never stops it does not;
* `ends_iff_acyclic`   so a loop that never stops, and comes to finitely many nodes, ends if and
                       only if it comes to no cycle.
-/

namespace Climb
open Relation

variable {α β : Type*} (next : α → Option α) (stop : α → Option β)

/-- `none`: not done yet -/
def climb : Nat → α → Option (Option β)
  | 0, _ => none
  | n + 1, a =>
    match stop a with
    | some b => some (some b)
    | none =>
      match next a with
      | none => some none
      | some a' => climb n a'

def Ends (a : α) : Prop := ∃ n r, climb next stop n a = some r

def Next (a b : α) : Prop := next a = some b

variable {next stop} {a b : α}

theorem ends_of_stop {x : β} (h : stop a = some x) : Ends next stop a :=
  ⟨1, some x, by rw [climb, h]⟩

theorem ends_of_last (h : next a = none) : Ends next stop a := by
  cases hs : stop a with
  | some x => exact ends_of_stop hs
  | none => exact ⟨1, none, by rw [climb, hs, h]⟩

theorem climb_succ (hs : stop a = none) (h : next a = some b) (n : Nat) :
    climb next stop (n + 1) a = climb next stop n b := by
  rw [climb, hs, h]

/-- more nodes do not change what is found -/
theorem climb_mono {n m : Nat} {r : Option β} (h : climb next stop n a = some r) (hm : n ≤ m) :
    climb next stop m a = some r := by
  induction n generalizing a m with
  | zero => cases h
  | succ n ih =>
    obtain ⟨m, rfl⟩ := Nat.exists_eq_add_of_le' (Nat.le_trans (Nat.le_add_left 1 n) hm)
    rw [climb] at h ⊢
    cases hs : stop a with
    | some x => rwa [hs] at h
    | none =>
      rw [hs] at h
      cases hn : next a with
      | none => rwa [hn] at h
      | some b =>
        rw [hn] at h
        exact ih h (Nat.le_of_succ_le_succ hm)

theorem Ends.head (h : next a = some b) (hb : Ends next stop b) : Ends next stop a := by
  cases hs : stop a with
  | some x => exact ends_of_stop hs
  | none =>
    obtain ⟨n, r, hr⟩ := hb
    exact ⟨n + 1, r, by rw [climb_succ hs h, hr]⟩

/-- **Where a loop ends.** -/
theorem ends_iff : Ends next stop a ↔
    ∃ b, ReflTransGen (Next next) a b ∧ (stop b ≠ none ∨ next b = none) := by
  constructor
  · rintro ⟨n, r, hr⟩
    induction n generalizing a with
    | zero => cases hr
    | succ n ih =>
      cases hs : stop a with
      | some x => exact ⟨a, .refl, .inl (by rw [hs]; exact Option.some_ne_none x)⟩
      | none =>
        cases hn : next a with
        | none => exact ⟨a, .refl, .inr hn⟩
        | some a' =>
          rw [climb_succ hs hn] at hr
          obtain ⟨b, hb, hd⟩ := ih hr
          exact ⟨b, .head hn hb, hd⟩
  · rintro ⟨b, hb, hd⟩
    induction hb using ReflTransGen.head_induction_on with
    | refl =>
      rcases hd with hd | hd
      · obtain ⟨x, hx⟩ := Option.ne_none_iff_exists'.1 hd
        exact ends_of_stop hx
      · exact ends_of_last hd
    | head h _ ih => exact ih.head h

/-- who follows a cycle stays on it -/
theorem transGen_of_cycle (h : TransGen (Next next) a a) (hab : ReflTransGen (Next next) a b) :
    TransGen (Next next) b b := by
  induction hab with
  | refl => exact h
  | @tail b c _ hbc ih =>
    obtain ⟨d, hbd, hdb⟩ := TransGen.head'_iff.1 ih
    obtain rfl : d = c := Option.some.inj (hbd.symm.trans hbc)
    exact TransGen.tail' hdb hbc

theorem not_ends_of_cycle (h : TransGen (Next next) a a)
    (hs : ∀ b, ReflTransGen (Next next) a b → stop b = none) : ¬ Ends next stop a := by
  intro he
  obtain ⟨b, hab, hd⟩ := ends_iff.1 he
  obtain ⟨c, hbc, -⟩ := TransGen.head'_iff.1 (transGen_of_cycle h hab)
  rcases hd with hd | hd
  · exact hd (hs b hab)
  · rw [Next, hd] at hbc
    cases hbc

/-- **Without cycles** every loop ends. -/
theorem ends_of_acyclic [Finite α] (h : ∀ a, ¬ TransGen (Next next) a a) (a : α) :
    Ends next stop a := by
  have htrans : IsTrans α (TransGen fun b a => Next next a b) := ⟨fun _ _ _ => TransGen.trans⟩
  have hirr : Std.Irrefl (TransGen fun b a => Next next a b) :=
    ⟨fun c hc => h c (transGen_swap.1 hc)⟩
  have hwf : WellFounded (TransGen fun b a => Next next a b) :=
    Finite.wellFounded_of_trans_of_irrefl _
  induction a using hwf.induction with
  | _ a ih =>
    cases hn : next a with
    | none => exact ends_of_last hn
    | some b => exact (ih b (.single hn)).head hn

/-- the loop among the nodes that it comes to -/
def within (a : α) (b : { b // ReflTransGen (Next next) a b }) :
    Option { b // ReflTransGen (Next next) a b } :=
  (next b.1).attach.map fun c => ⟨c.1, b.2.tail c.2⟩

theorem next_of_within {c d : { b // ReflTransGen (Next next) a b }}
    (h : Next (within a) c d) : Next next c.1 d.1 := by
  obtain ⟨x, -, rfl⟩ := Option.map_eq_some_iff.1 h
  exact x.2

theorem ends_within {c : { b // ReflTransGen (Next next) a b }}
    (h : Ends (within a) (fun _ => (none : Option β)) c) :
    Ends next (fun _ => (none : Option β)) c.1 := by
  obtain ⟨d, hcd, hd⟩ := ends_iff.1 h
  refine ends_iff.2 ⟨d.1, hcd.lift Subtype.val fun _ _ h => next_of_within h, .inr ?_⟩
  have hlast := hd.resolve_left fun h => h rfl
  rwa [within, Option.map_eq_none_iff, Option.attach_eq_none_iff] at hlast

/-- **Where there are finitely many nodes to come to**, a loop that never stops ends if and only if
there is no cycle among them. -/
theorem ends_iff_acyclic (hfin : {b | ReflTransGen (Next next) a b}.Finite) :
    Ends next (fun _ => (none : Option β)) a ↔
      ∀ b, ReflTransGen (Next next) a b → ¬ TransGen (Next next) b b := by
  constructor
  · intro h b hab hcycle
    obtain ⟨c, hac, hc⟩ := ends_iff.1 h
    have hlast := hc.resolve_left fun h => h rfl
    have hunique : Relator.RightUnique (Next next) := fun x y z hy hz =>
      Option.some.inj (hy.symm.trans hz)
    -- the last node is behind the cycle, so it is on it
    have hbc : ReflTransGen (Next next) b c := by
      rcases ReflTransGen.total_of_right_unique hunique hab hac with h | h
      · exact h
      · rcases ReflTransGen.cases_head h with rfl | ⟨d, hd, -⟩
        · exact .refl
        · rw [Next, hlast] at hd
          cases hd
    obtain ⟨d, hd, -⟩ := TransGen.head'_iff.1 (transGen_of_cycle hcycle hbc)
    rw [Next, hlast] at hd
    cases hd
  · intro h
    have : Finite { b // ReflTransGen (Next next) a b } := hfin
    refine ends_within (c := ⟨a, .refl⟩) (ends_of_acyclic ?_ _)
    intro b hb
    refine h b.1 b.2 ?_
    exact hb.lift Subtype.val fun _ _ h => next_of_within h

end Climb
