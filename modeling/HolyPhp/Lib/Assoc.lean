import Mathlib.Tactic.Common

/-!
# Association lists

`assign l k v` writes the value `v` under the key `k`: in place if the key is there, else at the
end; `assignAll` does that for many.  `find l k` is the value under `k`, and `update l k f` changes
it by `f`.
-/

namespace Assoc

def assign {κ β : Type} [DecidableEq κ] : List (κ × β) → κ → β → List (κ × β)
  | [], k, v => [(k, v)]
  | p :: l, k, v => if p.1 = k then (k, v) :: l else p :: assign l k v

section
variable {κ β : Type} [DecidableEq κ] {l : List (κ × β)} {k : κ} {v : β}

theorem assign_cons (p : κ × β) (l : List (κ × β)) (k : κ) (v : β) :
    assign (p :: l) k v = if p.1 = k then (k, v) :: l else p :: assign l k v := rfl

theorem assign_new (h : ∀ p ∈ l, p.1 ≠ k) : assign l k v = l ++ [(k, v)] := by
  induction l with
  | nil => rfl
  | cons p l ih =>
    rw [assign_cons, if_neg (h p List.mem_cons_self), ih fun q hq => h q (List.mem_cons_of_mem p hq)]
    rfl

theorem assign_old {i : Nat} (hi : i < l.length) (hk : l[i].1 = k)
    (hnew : ∀ j (hj : j < i), (l.get ⟨j, Nat.lt_trans hj hi⟩).1 ≠ k) :
    assign l k v = l.set i (k, v) := by
  induction l generalizing i with
  | nil => exact absurd hi (Nat.not_lt_zero i)
  | cons p l ih =>
    rw [assign_cons]
    cases i with
    | zero => exact if_pos hk
    | succ i =>
      rw [if_neg (show ¬ p.1 = k from hnew 0 (Nat.succ_pos i)), List.set_cons_succ,
        ih (Nat.lt_of_succ_lt_succ hi) hk fun j hj => hnew (j + 1) (Nat.succ_lt_succ hj)]

theorem length_assign_mem (h : ∃ p ∈ l, p.1 = k) : (assign l k v).length = l.length := by
  induction l with
  | nil =>
    obtain ⟨p, hp, -⟩ := h
    cases hp
  | cons p l ih =>
    rw [assign_cons]
    split
    · rfl
    · rename_i hne
      obtain ⟨q, hq, hk⟩ := h
      rcases List.mem_cons.mp hq with rfl | hq
      · exact absurd hk hne
      · rw [List.length_cons, List.length_cons, ih ⟨q, hq, hk⟩]

theorem keys_assign_mem (h : k ∈ l.map Prod.fst) :
    (assign l k v).map Prod.fst = l.map Prod.fst := by
  induction l with
  | nil => nomatch h
  | cons p l ih =>
    rw [assign_cons]
    split
    · rename_i he
      rw [List.map_cons, List.map_cons, he]
    · rename_i hne
      rw [List.map_cons, List.map_cons, ih ((List.mem_cons.1 h).resolve_left (Ne.symm hne))]

theorem length_assign_le (l : List (κ × β)) (k : κ) (v : β) :
    (assign l k v).length ≤ l.length + 1 := by
  induction l with
  | nil => exact Nat.le_refl _
  | cons p l ih =>
    rw [assign_cons]
    split
    · exact Nat.le_succ _
    · exact Nat.succ_le_succ ih

theorem mem_assign_self (l : List (κ × β)) (k : κ) (v : β) : (k, v) ∈ assign l k v := by
  induction l with
  | nil => exact List.mem_cons_self
  | cons p l ih =>
    rw [assign_cons]
    split
    · exact List.mem_cons_self
    · exact List.mem_cons_of_mem p ih

theorem mem_assign_of_ne {p : κ × β} (hp : p ∈ l) (hk : p.1 ≠ k) : p ∈ assign l k v := by
  induction l with
  | nil => cases hp
  | cons q l ih =>
    rw [assign_cons]
    rcases List.mem_cons.mp hp with rfl | hp
    · rw [if_neg hk]
      exact List.mem_cons_self
    · split
      · exact List.mem_cons_of_mem _ hp
      · exact List.mem_cons_of_mem _ (ih hp)

theorem length_le_assign (l : List (κ × β)) (k : κ) (v : β) :
    l.length ≤ (assign l k v).length := by
  induction l with
  | nil => exact Nat.zero_le _
  | cons p l ih =>
    rw [assign_cons]
    split
    · exact Nat.le_refl _
    · exact Nat.succ_le_succ ih

end

/-! ## writing many -/

section
variable {κ β κ' β' : Type} [DecidableEq κ] [DecidableEq κ'] {l es : List (κ × β)} {k j : κ} {v : β}

theorem assign_map {f : κ → κ'} {g : β → β'} (hf : Function.Injective f) :
    (assign l k v).map (Prod.map f g) = assign (l.map (Prod.map f g)) (f k) (g v) := by
  induction l with
  | nil => rfl
  | cons p l ih =>
    have hfst : (Prod.map f g p).1 = f p.1 := rfl
    rw [assign_cons, List.map_cons, assign_cons, hfst]
    by_cases hp : p.1 = k
    · rw [if_pos hp, if_pos (by rw [hp])]
      rfl
    · rw [if_neg hp, if_neg fun h => hp (hf h), List.map_cons, ih]

theorem keys_assign_new (h : k ∉ l.map Prod.fst) :
    (assign l k v).map Prod.fst = l.map Prod.fst ++ [k] := by
  have hne : ∀ p ∈ l, p.1 ≠ k := by
    rintro p hp rfl
    exact h (List.mem_map_of_mem hp)
  rw [assign_new hne, List.map_append]
  rfl

theorem nodup_assign (h : (l.map Prod.fst).Nodup) : ((assign l k v).map Prod.fst).Nodup := by
  by_cases hk : k ∈ l.map Prod.fst
  · rwa [keys_assign_mem hk]
  · rw [keys_assign_new hk]
    rw [List.nodup_append]
    refine ⟨h, List.pairwise_singleton _ k, ?_⟩
    rintro x hx y hy rfl
    rw [List.mem_singleton.1 hy] at hx
    exact hk hx

theorem mem_keys_assign : j ∈ (assign l k v).map Prod.fst ↔ j ∈ l.map Prod.fst ∨ j = k := by
  by_cases hk : k ∈ l.map Prod.fst
  · rw [keys_assign_mem hk]
    refine ⟨.inl, ?_⟩
    rintro (h | rfl)
    exacts [h, hk]
  · rw [keys_assign_new hk, List.mem_append, List.mem_singleton]

/-- one write after the other -/
def assignAll (l es : List (κ × β)) : List (κ × β) := es.foldl (fun l e => assign l e.1 e.2) l

theorem assignAll_cons (l : List (κ × β)) (e : κ × β) (es : List (κ × β)) :
    assignAll l (e :: es) = assignAll (assign l e.1 e.2) es := rfl

theorem assignAll_append (l es es' : List (κ × β)) :
    assignAll l (es ++ es') = assignAll (assignAll l es) es' := List.foldl_append

theorem nodup_assignAll (h : (l.map Prod.fst).Nodup) (es : List (κ × β)) :
    ((assignAll l es).map Prod.fst).Nodup := by
  induction es generalizing l with
  | nil => exact h
  | cons e es ih => exact ih (nodup_assign h)

theorem mem_keys_assignAll :
    j ∈ (assignAll l es).map Prod.fst ↔ j ∈ l.map Prod.fst ∨ j ∈ es.map Prod.fst := by
  induction es generalizing l with
  | nil => simp [assignAll]
  | cons e es ih => rw [assignAll_cons, ih, mem_keys_assign, List.map_cons, List.mem_cons, or_assoc]

theorem length_le_assignAll (l es : List (κ × β)) : l.length ≤ (assignAll l es).length := by
  induction es generalizing l with
  | nil => exact Nat.le_refl _
  | cons e es ih => exact Nat.le_trans (length_le_assign l e.1 e.2) (ih _)

theorem length_assignAll_le (l es : List (κ × β)) :
    (assignAll l es).length ≤ l.length + es.length := by
  induction es generalizing l with
  | nil => exact Nat.le_refl _
  | cons e es ih =>
    have h1 := ih (assign l e.1 e.2)
    have h2 := length_assign_le l e.1 e.2
    rw [assignAll_cons, List.length_cons]
    omega

/-- the keys stay where they are, and new ones come behind them -/
theorem keys_prefix_assignAll (l es : List (κ × β)) :
    l.map Prod.fst <+: (assignAll l es).map Prod.fst := by
  induction es generalizing l with
  | nil => exact List.prefix_refl _
  | cons e es ih =>
    refine List.IsPrefix.trans ?_ (ih _)
    by_cases hk : e.1 ∈ l.map Prod.fst
    · exact ⟨[], by rw [List.append_nil, keys_assign_mem hk]⟩
    · rw [keys_assign_new hk]
      exact List.prefix_append _ _

omit [DecidableEq κ] in
/-- lists with the same keys, each once -/
theorem eq_of_keys {m : List (κ × β)} (hk : l.map Prod.fst = m.map Prod.fst)
    (hn : (m.map Prod.fst).Nodup) (h : ∀ p ∈ l, p ∈ m) : l = m := by
  induction l generalizing m with
  | nil =>
    rw [List.map_nil] at hk
    exact (List.map_eq_nil_iff.1 hk.symm).symm
  | cons p l ih =>
    cases m with
    | nil => nomatch hk
    | cons q m =>
      obtain ⟨hpq, hlm⟩ := List.cons.inj hk
      rw [List.map_cons, List.nodup_cons] at hn
      have hp : p = q := by
        rcases List.mem_cons.1 (h p List.mem_cons_self) with hp | hp
        · exact hp
        · exact absurd (List.mem_map_of_mem hp) (hpq ▸ hn.1)
      rw [hp, ih hlm hn.2]
      intro r hr
      rcases List.mem_cons.1 (h r (List.mem_cons_of_mem p hr)) with rfl | hr'
      · exact absurd (hlm ▸ List.mem_map_of_mem hr) hn.1
      · exact hr'

/-- new keys, each once -/
theorem assignAll_new (h : ((l ++ es).map Prod.fst).Nodup) : assignAll l es = l ++ es := by
  induction es generalizing l with
  | nil => rw [List.append_nil]; rfl
  | cons e es ih =>
    have hne : ∀ p ∈ l, p.1 ≠ e.1 := by
      intro p hp he
      rw [List.map_append, List.map_cons, List.nodup_append] at h
      exact h.2.2 p.1 (List.mem_map_of_mem hp) e.1 List.mem_cons_self he
    rw [← List.singleton_append, ← List.append_assoc] at h ⊢
    rw [List.singleton_append, assignAll_cons, assign_new hne]
    exact ih h

end

/-! ## reading and changing -/

def find {κ β : Type} [DecidableEq κ] : List (κ × β) → κ → Option β
  | [], _ => none
  | p :: l, k => if p.1 = k then some p.2 else find l k

def update {κ β : Type} [DecidableEq κ] (l : List (κ × β)) (k : κ) (f : β → β) : List (κ × β) :=
  l.map fun p => if p.1 = k then (p.1, f p.2) else p

section
variable {κ β : Type} [DecidableEq κ] {l : List (κ × β)} {k j : κ} {v : β} {f : β → β}

theorem find_cons (p : κ × β) (l : List (κ × β)) (k : κ) :
    find (p :: l) k = if p.1 = k then some p.2 else find l k := rfl

theorem mem_of_find (h : find l k = some v) : (k, v) ∈ l := by
  induction l with
  | nil => cases h
  | cons p l ih =>
    rw [find_cons] at h
    split at h
    · next hk =>
      cases h
      rw [← hk]
      exact List.mem_cons_self
    · exact List.mem_cons_of_mem p (ih h)

theorem find_of_mem (hn : (l.map Prod.fst).Nodup) (h : (k, v) ∈ l) : find l k = some v := by
  induction l with
  | nil => cases h
  | cons p l ih =>
    rw [List.map_cons, List.nodup_cons] at hn
    rw [find_cons]
    rcases List.mem_cons.1 h with rfl | h
    · exact if_pos rfl
    · rw [if_neg, ih hn.2 h]
      rintro rfl
      exact hn.1 (List.mem_map.2 ⟨(p.1, v), h, rfl⟩)

theorem find_assign : find (assign l k v) j = if k = j then some v else find l j := by
  induction l with
  | nil => rfl
  | cons p l ih =>
    rw [assign_cons]
    by_cases hp : p.1 = k
    · rw [if_pos hp, find_cons, find_cons, hp]
      split <;> rfl
    · rw [if_neg hp, find_cons, find_cons, ih]
      by_cases hj : p.1 = j
      · rw [if_pos hj, if_pos hj, if_neg fun hk => hp (hj.trans hk.symm)]
      · rw [if_neg hj, if_neg hj]

theorem keys_update : (update l k f).map Prod.fst = l.map Prod.fst := by
  rw [update, List.map_map]
  apply List.map_congr_left
  intro p _
  show (if p.1 = k then (p.1, f p.2) else p).1 = p.1
  split <;> rfl

theorem find_update : find (update l k f) j = if k = j then (find l j).map f else find l j := by
  induction l with
  | nil =>
    show none = if k = j then Option.map f none else none
    split <;> rfl
  | cons p l ih =>
    show find ((if p.1 = k then (p.1, f p.2) else p) :: update l k f) j = _
    by_cases hp : p.1 = k
    · rw [if_pos hp, find_cons, find_cons, ih]
      by_cases hj : p.1 = j
      · rw [if_pos hj, if_pos hj, if_pos (hp.symm.trans hj)]
        rfl
      · rw [if_neg hj, if_neg hj]
    · rw [if_neg hp, find_cons, find_cons, ih]
      by_cases hj : p.1 = j
      · rw [if_pos hj, if_pos hj, if_neg fun h => hp (hj.trans h.symm)]
      · rw [if_neg hj, if_neg hj]

/-- an entry after a change -/
theorem mem_update {p : κ × β} : p ∈ update l k f ↔
    (p ∈ l ∧ p.1 ≠ k) ∨ ∃ v, (k, v) ∈ l ∧ p = (k, f v) := by
  rw [update, List.mem_map]
  constructor
  · rintro ⟨q, hq, rfl⟩
    by_cases hk : q.1 = k
    · rw [if_pos hk]
      refine .inr ⟨q.2, ?_, ?_⟩
      · rw [← hk]
        exact hq
      · rw [hk]
    · rw [if_neg hk]
      exact .inl ⟨hq, hk⟩
  · rintro (⟨hp, hk⟩ | ⟨v, hv, rfl⟩)
    · exact ⟨p, hp, if_neg hk⟩
    · exact ⟨(k, v), hv, if_pos rfl⟩

end

end Assoc
