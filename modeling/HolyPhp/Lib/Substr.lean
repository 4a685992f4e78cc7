import Mathlib.Data.List.Infix
import Mathlib.Data.List.TakeWhile

/-!
# The first place where a list stands in another one

`strstr pat s` is the rest of `s` from the first place on where `pat` stands.  A pattern that begins
with `q` is not found before the first `q`, and one that also ends with `q` stands behind a `q`
exactly where its inside is all up to the next one.

`strpos pat s` is that place itself.  More text behind `s` leaves it where it is
(`strpos_append`), and it is not found before the text that holds all of the pattern is there.
-/

set_option linter.unusedSectionVars false

namespace Substr

def strstr {α : Type} [BEq α] (pat : List α) : List α → Option (List α)
  | [] => if pat.isEmpty then some [] else none
  | c :: s => if pat.isPrefixOf (c :: s) then some (c :: s) else strstr pat s

section
variable {α : Type} [BEq α] [LawfulBEq α] {pat k l r s t : List α} {c q : α}

theorem strstr_here (h : pat <+: c :: s) : strstr pat (c :: s) = some (c :: s) :=
  if_pos (List.isPrefixOf_iff_prefix.2 h)

theorem strstr_next (h : ¬ pat <+: c :: s) : strstr pat (c :: s) = strstr pat s :=
  if_neg fun h' => h (List.isPrefixOf_iff_prefix.1 h')

/-- no other first element matches -/
theorem strstr_ne (h : c ≠ q) : strstr (q :: pat) (c :: s) = strstr (q :: pat) s :=
  strstr_next fun h' => h (List.cons_prefix_cons.1 h').1.symm

theorem strstr_skip (h : q ∉ l) : strstr (q :: pat) (l ++ s) = strstr (q :: pat) s := by
  induction l with
  | nil => rfl
  | cons c l ih =>
    rw [List.mem_cons, not_or] at h
    rw [List.cons_append, strstr_ne fun he => h.1 he.symm, ih h.2]

/-- a pattern with its delimiters -/
theorem strstr_quoted (q : α) (k r : List α) :
    strstr (q :: (k ++ [q])) (q :: (k ++ q :: r)) = some (q :: (k ++ q :: r)) := by
  refine strstr_here ⟨r, ?_⟩
  rw [List.cons_append, List.append_assoc]
  rfl

theorem strstr_spec (h : strstr pat s = some t) : pat <+: t ∧ t <:+ s := by
  induction s with
  | nil =>
    rw [strstr] at h
    split at h
    · next hp =>
      cases h
      rw [List.isEmpty_iff.1 hp]
      exact ⟨List.nil_prefix, List.suffix_refl []⟩
    · cases h
  | cons c s ih =>
    by_cases hp : pat <+: c :: s
    · rw [strstr_here hp] at h
      cases h
      exact ⟨hp, List.suffix_refl _⟩
    · rw [strstr_next hp] at h
      exact ⟨(ih h).1, (ih h).2.trans (List.suffix_cons c s)⟩

/-- up to the next delimiter -/
theorem prefix_delim (hk : q ∉ k) (hs : q ∉ s) : k ++ [q] <+: s ++ q :: r ↔ k = s := by
  induction k generalizing s with
  | nil =>
    cases s with
    | nil => exact ⟨fun _ => rfl, fun _ => List.prefix_append [q] r⟩
    | cons d s =>
      refine ⟨fun h => ?_, fun h => nomatch h⟩
      have hq := (List.cons_prefix_cons.1 h).1
      exact absurd (hq ▸ List.mem_cons_self) hs
  | cons c k ih =>
    rw [List.mem_cons, not_or] at hk
    cases s with
    | nil =>
      refine ⟨fun h => ?_, fun h => nomatch h⟩
      exact absurd (List.cons_prefix_cons.1 h).1.symm hk.1
    | cons d s =>
      rw [List.mem_cons, not_or] at hs
      show c :: (k ++ [q]) <+: d :: (s ++ q :: r) ↔ _
      rw [List.cons_prefix_cons, ih hk.2 hs.2, List.cons.injEq]

theorem strstr_isSome (hne : pat ≠ []) : (strstr pat s).isSome = true ↔ pat <:+: s := by
  induction s with
  | nil =>
    rw [strstr, if_neg (by simpa using hne), List.infix_nil]
    refine ⟨fun h => ?_, fun h => absurd h hne⟩
    cases h
  | cons c s ih =>
    rw [List.infix_cons_iff]
    by_cases hp : pat <+: c :: s
    · rw [strstr_here hp, Option.isSome_some]
      exact iff_of_true rfl (.inl hp)
    · rw [strstr_next hp, ih]
      exact ⟨.inr, fun h => h.resolve_left hp⟩

theorem strstr_nil (hne : pat ≠ []) : strstr pat [] = none := if_neg (by simpa using hne)

theorem strstr_eq_none (hne : pat ≠ []) : strstr pat s = none ↔ ¬ pat <:+: s := by
  rw [← strstr_isSome hne, Bool.not_eq_true, Option.isSome_eq_false_iff, Option.isNone_iff_eq_none]

/-- **In a text that is cut off** the pattern is found if it is all there. -/
theorem strstr_take (hne : pat ≠ []) (h : strstr pat s = some (pat ++ t)) (n : Nat) :
    strstr pat (s.take n) = if s.length - t.length ≤ n then
      some (pat ++ t.take (n - (s.length - t.length))) else none := by
  have hpos := List.length_pos_iff.2 hne
  induction s generalizing n with
  | nil =>
    rw [strstr_nil hne] at h
    cases h
  | cons c s ih =>
    by_cases hp : pat <+: c :: s
    · rw [strstr_here hp] at h
      have hs : c :: s = pat ++ t := Option.some.inj h
      have hlen : (c :: s).length - t.length = pat.length := by
        rw [hs, List.length_append]
        omega
      rw [hlen, hs, List.take_append]
      split
      · next hle =>
        rw [List.take_of_length_le hle]
        obtain ⟨d, l, rfl⟩ := List.exists_cons_of_ne_nil hne
        exact strstr_here (List.prefix_append _ _)
      · next hlt =>
        rw [strstr_eq_none hne]
        intro hin
        have hle := hin.length_le
        rw [List.length_append, List.length_take, List.length_take] at hle
        omega
    · rw [strstr_next hp] at h
      have hle := (strstr_spec h).2.length_le
      rw [List.length_append] at hle
      cases n with
      | zero =>
        rw [List.take_zero, strstr_nil hne, if_neg]
        rw [List.length_cons]
        omega
      | succ n =>
        have hp' : ¬ pat <+: c :: s.take n := fun h' =>
          hp (h'.trans (List.cons_prefix_cons.2 ⟨rfl, List.take_prefix n s⟩))
        rw [List.take_succ_cons, strstr_next hp', ih h, List.length_cons]
        by_cases hn : s.length - t.length ≤ n
        · rw [if_pos hn, if_pos (by omega)]
          congr 3
          omega
        · rw [if_neg hn, if_neg (by omega)]

/-! ## places -/

/-- the first place -/
def strpos {α : Type} [BEq α] (pat : List α) : List α → Option Nat
  | [] => if pat.isEmpty then some 0 else none
  | c :: s => if pat.isPrefixOf (c :: s) then some 0 else (strpos pat s).map (· + 1)

theorem strpos_here (h : pat <+: c :: s) : strpos pat (c :: s) = some 0 :=
  if_pos (List.isPrefixOf_iff_prefix.2 h)

theorem strpos_next (h : ¬ pat <+: c :: s) : strpos pat (c :: s) = (strpos pat s).map (· + 1) :=
  if_neg fun h' => h (List.isPrefixOf_iff_prefix.1 h')

theorem strpos_nil (hne : pat ≠ []) : strpos pat [] = none := by
  rw [strpos, if_neg (by simpa using hne)]

theorem strpos_skip (h : q ∉ l) :
    strpos (q :: pat) (l ++ s) = (strpos (q :: pat) s).map (· + l.length) := by
  induction l with
  | nil =>
    show strpos (q :: pat) s = _
    cases strpos (q :: pat) s <;> rfl
  | cons c l ih =>
    rw [List.mem_cons, not_or] at h
    rw [List.cons_append, strpos_next fun h' => h.1 (List.cons_prefix_cons.1 h').1, ih h.2,
      Option.map_map]
    rfl

/-- where the pattern ends, the text goes on -/
theorem strpos_le {i : Nat} (h : strpos pat s = some i) : i + pat.length ≤ s.length := by
  induction s generalizing i with
  | nil =>
    rw [strpos] at h
    split at h
    · next hp =>
      cases h
      rw [List.isEmpty_iff.1 hp]
      exact Nat.le_refl 0
    · cases h
  | cons c s ih =>
    by_cases hp : pat <+: c :: s
    · rw [strpos_here hp] at h
      cases h
      rw [Nat.zero_add]
      exact hp.length_le
    · rw [strpos_next hp] at h
      obtain ⟨j, hj, rfl⟩ := Option.map_eq_some_iff.1 h
      have hle := ih hj
      rw [List.length_cons]
      omega

/-- **The first place in a beginning of the text** is the first place in the text, if the pattern
is all there. -/
theorem strpos_of_append {i : Nat} (hne : pat ≠ []) (h : strpos pat (s ++ t) = some i) :
    strpos pat s = if i + pat.length ≤ s.length then some i else none := by
  induction s generalizing i with
  | nil =>
    have hpos := List.length_pos_iff.2 hne
    rw [strpos_nil hne, if_neg]
    show ¬ i + pat.length ≤ 0
    omega
  | cons c s ih =>
    rw [List.cons_append] at h
    by_cases hp : pat <+: c :: (s ++ t)
    · rw [strpos_here hp] at h
      cases h
      rw [Nat.zero_add]
      split
      · next hle => exact strpos_here (List.prefix_of_prefix_length_le hp
          (List.prefix_append (c :: s) t) hle)
      · next hle =>
        have hpos := List.length_pos_iff.2 hne
        cases hs : strpos pat (c :: s) with
        | none => rfl
        | some j =>
          have hj := strpos_le hs
          omega
    · have hp' : ¬ pat <+: c :: s := fun h' => hp (h'.trans (List.prefix_append (c :: s) t))
      rw [strpos_next hp] at h
      obtain ⟨j, hj, rfl⟩ := Option.map_eq_some_iff.1 h
      rw [strpos_next hp', ih hj, List.length_cons]
      by_cases hle : j + pat.length ≤ s.length
      · rw [if_pos hle, if_pos (by omega)]
        rfl
      · rw [if_neg hle, if_neg (by omega)]
        rfl

/-! ## runs of elements -/

/-- a run ends where the next element is none of it -/
theorem takeWhile_stop {p : α → Bool} (hl : ∀ c ∈ l, p c = true) (hr : ∀ c ∈ r.head?, p c = false) :
    (l ++ r).takeWhile p = l ∧ (l ++ r).dropWhile p = r := by
  rw [List.takeWhile_append_of_pos hl, List.dropWhile_append_of_pos hl]
  cases r with
  | nil => exact ⟨List.append_nil l, rfl⟩
  | cons c r =>
    have hc : ¬ p c = true := by simp [hr c rfl]
    rw [List.takeWhile_cons_of_neg hc, List.dropWhile_cons_of_neg hc, List.append_nil]
    exact ⟨rfl, rfl⟩

/-- a run that is read up to `n` elements, and what is behind them -/
theorem takeWhile_upTo {p : α → Bool} (hl : ∀ c ∈ l, p c = true)
    (hr : ∀ c ∈ r.head?, p c = false) (n : Nat) :
    ((l ++ r).takeWhile p).take n = l.take n ∧
      (l ++ r).drop (l.take n).length = l.drop n ++ r := by
  refine ⟨by rw [(takeWhile_stop hl hr).1], ?_⟩
  rw [List.drop_append_of_le_length (List.length_take_le' ..), List.length_take]
  rcases Nat.le_total n l.length with h | h
  · rw [Nat.min_eq_left h]
  · rw [Nat.min_eq_right h, List.drop_length, List.drop_eq_nil_of_le h]

/-! ## lines -/

section
variable [DecidableEq α]

theorem takeWhile_ne_iff : l.takeWhile (fun c => c ≠ q) = l ↔ q ∉ l := by
  rw [List.takeWhile_eq_self_iff]
  constructor
  · intro h hq
    exact of_decide_eq_true (h q hq) rfl
  · intro h c hc
    apply decide_eq_true
    rintro rfl
    exact h hc

theorem takeWhile_delim (h : q ∉ l) (r : List α) :
    (l ++ q :: r).takeWhile (fun c => c ≠ q) = l := by
  rw [List.takeWhile_append_of_pos, List.takeWhile_cons_of_neg (by simp), List.append_nil]
  intro c hc
  apply decide_eq_true
  rintro rfl
  exact h hc

theorem dropWhile_delim (h : q ∉ l) (r : List α) :
    (l ++ q :: r).dropWhile (fun c => c ≠ q) = q :: r := by
  rw [List.dropWhile_append_of_pos, List.dropWhile_cons_of_neg (by simp)]
  intro c hc
  apply decide_eq_true
  rintro rfl
  exact h hc

/-! ## between two delimiters -/

/-- what stands between the first two `q` -/
def between (q : α) (s : List α) : Option (List α) :=
  match s.dropWhile fun c => c ≠ q with
  | [] => none
  | _ :: p => if q ∈ p then some (p.takeWhile fun c => c ≠ q) else none

theorem between_iff {v : List α} : between q s = some v ↔
    ∃ a r, s = a ++ q :: (v ++ q :: r) ∧ q ∉ a ∧ q ∉ v := by
  constructor
  · intro h
    rw [between] at h
    split at h
    · cases h
    · next c p hp =>
      obtain ⟨hq, hv⟩ := Option.ite_none_right_eq_some.mp h
      obtain rfl := Option.some.inj hv
      have hc : c = q := by
        have hhead := List.head?_dropWhile_not (fun c => decide (c ≠ q)) s
        rw [hp] at hhead
        simpa using hhead
      obtain ⟨v, r, rfl, hqv⟩ := List.eq_append_cons_of_mem hq
      have hs := List.takeWhile_append_dropWhile (p := fun c => decide (c ≠ q)) (l := s)
      rw [hp, hc] at hs
      rw [takeWhile_delim hqv]
      refine ⟨_, r, hs.symm, fun h => ?_, hqv⟩
      simpa using List.mem_takeWhile_imp h
  · rintro ⟨a, r, rfl, ha, hv⟩
    rw [between, dropWhile_delim ha]
    dsimp only
    rw [if_pos (List.mem_append_right v List.mem_cons_self), takeWhile_delim hv]

end

end

end Substr
