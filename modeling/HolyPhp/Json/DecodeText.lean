import HolyPhp.Json.DecodeSpec

/-!
# `hpbi_json_decode` on JSON texts

`jpValue_text` is the induction over the trees of texts.  It takes any raw bytes in strings but
quotes and backslashes (`Lax`); the texts of the grammar are among these.
-/

set_option linter.unusedVariables false

namespace HolyPhp
namespace Std
open Arr hiding Key
open Json Assoc

/-- with enough fuel, and only then, the run gives the value `j`, new arrays at the end of the
heap, and leaves `rest` -/
def Returns (f : Nat → Option (Val × Heap × Bytes)) (h : Heap) (lo : Nat) (j : Value)
    (rest : Bytes) : Prop :=
  ∃ n v new, (∀ fuel, f fuel = if n ≤ fuel then some (v, h ++ new, rest) else none) ∧
    Rep (h ++ new) lo v j

/-- the table of the map has room for the keys of the object -/
def Fits (ms : Members) : Prop := (ms.denote []).length < full

def Lax (t : Cst) : Prop := t.All LaxStr Number.Int64 Fits

section
variable {strtod : Bytes → Double} {junk : Nat → Val} {h : Heap} {lo fuel : Nat} {w : List Ws}
variable {c : UInt8} {cs rest : Bytes} {f : Nat → Option (Val × Heap × Bytes)} {j : Value}
variable {M : Members → Prop}

theorem Returns.const {v : Val} {new : Heap} (hr : Rep (h ++ new) lo v j) :
    Returns (fun _ => some (v, h ++ new, rest)) h lo j rest :=
  ⟨0, v, new, fun fuel => (if_pos (Nat.zero_le fuel)).symm, hr⟩

theorem Returns.leaf {v : Val} (hr : Rep h lo v j) :
    Returns (fun _ => some (v, h, rest)) h lo j rest := by
  rw [← List.append_nil h] at hr
  have : Returns (fun _ => some (v, h ++ [], rest)) h lo j rest := .const hr
  rwa [List.append_nil] at this

/-- a run that starts another one -/
theorem Returns.step {g : Nat → Option (Val × Heap × Bytes)} (hg : Returns g h lo j rest)
    (h0 : f 0 = none) (hf : ∀ fuel, f (fuel + 1) = g fuel) : Returns f h lo j rest := by
  obtain ⟨n, v, new, hrun, hr⟩ := hg
  refine ⟨n + 1, v, new, fun fuel => ?_, hr⟩
  cases fuel with
  | zero => rw [h0, if_neg (Nat.not_succ_le_zero n)]
  | succ fuel =>
    rw [hf, hrun]
    simp only [Nat.succ_le_succ_iff]

/-- a run that goes on with what another one has given -/
theorem Returns.bind {g : Nat → Option (Val × Heap × Bytes)} {j' : Value} {rest' : Bytes}
    {K : Val → Heap → Bytes → Nat → Option (Val × Heap × Bytes)} (hg : Returns g h lo j rest)
    (h0 : f 0 = none) (hf : ∀ fuel, f (fuel + 1) = (g fuel).bind fun r => K r.1 r.2.1 r.2.2 fuel)
    (hk : ∀ v new, Rep (h ++ new) lo v j → Returns (K v (h ++ new) rest) (h ++ new) lo j' rest') :
    Returns f h lo j' rest' := by
  obtain ⟨n, v, new, hrun, hr⟩ := hg
  obtain ⟨n', v', new', hrun', hr'⟩ := hk v new hr
  refine ⟨max n n' + 1, v', new ++ new', fun fuel => ?_, ?_⟩
  · cases fuel with
    | zero => rw [h0, if_neg (Nat.not_succ_le_zero _)]
    | succ fuel =>
      rw [hf, hrun]
      by_cases hn : n ≤ fuel
      · rw [if_pos hn, Option.bind_some, hrun', List.append_assoc]
        simp only [Nat.succ_le_succ_iff, Nat.max_le, hn, true_and]
      · rw [if_neg hn, Option.bind_none, if_neg (by omega)]
  · rw [← List.append_assoc]
    exact hr'

theorem jpValue_jpWs (s : Bytes) :
    jpValue strtod junk fuel h (jpWs s) = jpValue strtod junk fuel h s := by
  cases fuel with
  | zero => rfl
  | succ fuel => rw [jpValue, jpValue, jpWs_jpWs]

theorem jpValue_ws (w : List Ws) (s : Bytes) :
    jpValue strtod junk fuel h (ws w ++ s) = jpValue strtod junk fuel h s := by
  rw [← jpValue_jpWs, jpWs_ws, jpValue_jpWs]

theorem jpElems_jpWs {a : Harr} (s : Bytes) :
    jpElems strtod junk fuel h a (jpWs s) = jpElems strtod junk fuel h a s := by
  cases fuel with
  | zero => rfl
  | succ fuel => rw [jpElems, jpElems, jpValue_jpWs]

theorem jpMembers_jpWs {m : Harr} (s : Bytes) :
    jpMembers strtod junk fuel h m (jpWs s) = jpMembers strtod junk fuel h m s := by
  cases fuel with
  | zero => rfl
  | succ fuel => rw [jpMembers, jpMembers, jpWs_jpWs]

theorem jpValue_num (hc : isDigit c = true ∨ c = 45) (hw : jpWs (c :: cs) = c :: cs) :
    jpValue strtod junk (fuel + 1) h (c :: cs) =
      some ((jpNumber strtod (c :: cs)).1, h, (jpNumber strtod (c :: cs)).2) := by
  rw [jpValue, hw]
  split
  case h_8 => rfl
  all_goals
    rename_i e
    cases e <;> exact absurd hc (by decide)

/-- the first byte of a value -/
theorem text_head (t : Cst) (ht : t.All LaxStr Number.Int64 M) :
    ∃ c cs, t.text = c :: cs ∧ Solid c ∧ c ≠ 93 := by
  cases t with
  | num n =>
    obtain ⟨c, cs, hc, hd⟩ := decimal_cons n.int
    rw [Cst.text, text_int ht, hc]
    cases n.neg with
    | true => exact ⟨45, c :: cs, rfl, by decide, by decide⟩
    | false =>
      refine ⟨c, cs, rfl, ?_, ?_⟩
      · rintro (rfl | rfl | rfl | rfl) <;> cases hd
      · rintro rfl
        cases hd
  | null | true | false | str s | arrEmpty w | arr xs | objEmpty w | obj ms =>
    exact ⟨_, _, rfl, by decide, by decide⟩

theorem jpValue_obj (cs : Bytes) :
    jpValue strtod junk (fuel + 1) h (123 :: cs) =
      match jpWs cs with
      | 125 :: cs => some (.arr (some h.length), h ++ [emptyMap junk], cs)
      | cs => jpMembers strtod junk fuel h (emptyMap junk) cs := rfl

theorem jpValue_arr (cs : Bytes) :
    jpValue strtod junk (fuel + 1) h (91 :: cs) =
      match jpWs cs with
      | 93 :: cs => some (.arr (some h.length), h ++ [hpArrNew junk], cs)
      | cs => jpElems strtod junk fuel h (hpArrNew junk) cs := rfl

/-- `{` in front of a member -/
theorem jpValue_brace {d : UInt8} {ds : Bytes} (hd : jpWs cs = d :: ds) (h125 : d ≠ 125) :
    jpValue strtod junk (fuel + 1) h (123 :: cs) =
      jpMembers strtod junk fuel h (emptyMap junk) cs := by
  rw [← jpMembers_jpWs cs, jpValue_obj, hd]
  split
  · rename_i e
    cases e
    exact absurd rfl h125
  · rfl

/-- `[` in front of an element -/
theorem jpValue_bracket {d : UInt8} {ds : Bytes} (hd : jpWs cs = d :: ds) (h93 : d ≠ 93) :
    jpValue strtod junk (fuel + 1) h (91 :: cs) =
      jpElems strtod junk fuel h (hpArrNew junk) cs := by
  rw [← jpElems_jpWs cs, jpValue_arr, hd]
  split
  · rename_i e
    cases e
    exact absurd rfl h93
  · rfl

theorem num_head {n : Number} (hn : n.Int64) :
    ∃ c cs, n.text = c :: cs ∧ (isDigit c = true ∨ c = 45) := by
  obtain ⟨c, cs, hc, hd⟩ := decimal_cons n.int
  rw [text_int hn, hc]
  cases n.neg with
  | true => exact ⟨45, c :: cs, rfl, .inr rfl⟩
  | false => exact ⟨c, cs, rfl, .inl hd⟩

theorem items_head (xs : Items) (hx : xs.All LaxStr Number.Int64 M) (rest : Bytes) :
    ∃ c cs, jpWs (xs.text ++ rest) = c :: cs ∧ c ≠ 93 := by
  have hws : ∀ (v : Cst) (s : Bytes), v.All LaxStr Number.Int64 M →
      ∃ c cs, jpWs (v.text ++ s) = c :: cs ∧ c ≠ 93 := by
    intro v s hv
    obtain ⟨c, cs, e, hs, h93⟩ := text_head v hv
    rw [e, List.cons_append, jpWs_solid hs]
    exact ⟨c, _, rfl, h93⟩
  cases xs with
  | last w v w' =>
    rw [Items.text, List.append_assoc, List.append_assoc, jpWs_ws]
    exact hws v _ hx
  | cons w v w' xs =>
    rw [Items.text, List.append_assoc, List.append_assoc, List.append_assoc, jpWs_ws]
    exact hws v _ hx.1

theorem members_head (ms : Members) (rest : Bytes) : ∃ cs, jpWs (ms.text ++ rest) = 34 :: cs := by
  cases ms with
  | last w k w₁ w₂ v w' =>
    rw [Members.text, List.append_assoc, List.append_assoc, List.append_assoc, jpWs_ws]
    exact ⟨_, jpWs_solid (by decide)⟩
  | cons w k w₁ w₂ v w' ms =>
    rw [Members.text, List.append_assoc, List.append_assoc, List.append_assoc, List.append_assoc,
      jpWs_ws]
    exact ⟨_, jpWs_solid (by decide)⟩

theorem le_append {new : Heap} (hlo : lo ≤ h.length) : lo ≤ (h ++ new).length :=
  Nat.le_trans hlo (List.length_append ▸ Nat.le_add_right ..)

theorem length_denote_le : ∀ (ms : Members) (kvs : List (Key × Value)),
    kvs.length ≤ (ms.denote kvs).length
  | .last _ k _ _ v _, kvs => length_le_assign kvs _ _
  | .cons _ k _ _ v _ ms, kvs => Nat.le_trans (length_le_assign kvs _ _) (length_denote_le ms _)

variable (strtod junk)

/-- the loop behind `[` behind an element -/
def elemNext (fuel : Nat) (h : Heap) (a : Harr) (s : Bytes) : Option (Val × Heap × Bytes) :=
  match jpWs s with
  | 44 :: cs => jpElems strtod junk fuel h a cs
  | cs => some (.arr (some h.length), h ++ [a], skip 93 cs)

/-- the loop behind `{` behind a value -/
def memberNext (fuel : Nat) (h : Heap) (m : Harr) (k : Bytes) (v : Val) (s : Bytes) :
    Option (Val × Heap × Bytes) :=
  (hpArrSet m (.str (some k)) v).bind fun m =>
    match jpWs s with
    | 44 :: cs => jpMembers strtod junk fuel h m cs
    | cs => some (.arr (some h.length), h ++ [m], skip 125 cs)

/-- the loop behind `{` up to a value -/
theorem jpMembers_member {m : Harr} {w₁ w₂ : List Ws} {k : List Ch} (hk : LaxStr k) :
    jpMembers strtod junk (fuel + 1) h m (ws w ++ (string k ++ (ws w₁ ++ 58 :: (ws w₂ ++ cs)))) =
      (jpValue strtod junk fuel h cs).bind fun r =>
        memberNext strtod junk fuel r.2.1 m (bytes k) r.1 r.2.2 := by
  have hs : jpWs (string k ++ (ws w₁ ++ 58 :: (ws w₂ ++ cs))) =
      string k ++ (ws w₁ ++ 58 :: (ws w₂ ++ cs)) := jpWs_solid (by decide)
  rw [jpMembers, jpWs_ws, hs, jpString_string hk]
  dsimp only
  rw [jpWs_ws, jpWs_solid (by decide), skip, if_pos rfl, jpValue_ws]
  rfl

end

/-! ## the induction -/

section
variable (strtod : Bytes → Double) (junk : Nat → Val)

mutual

/-- **A value is read**, and the cursor stops at its end. -/
theorem jpValue_text : ∀ (t : Cst) (ht : Lax t) (h : Heap) (lo : Nat) (rest : Bytes),
    lo ≤ h.length → Ends rest →
    Returns (fun fuel => jpValue strtod junk fuel h (t.text ++ rest)) h lo t.denote rest
  | .null, _, h, lo, rest, _, _ => (Returns.leaf .null).step rfl fun _ => rfl
  | .true, _, h, lo, rest, _, _ => (Returns.leaf (.bool Bool.true)).step rfl fun _ => rfl
  | .false, _, h, lo, rest, _, _ => (Returns.leaf (.bool Bool.false)).step rfl fun _ => rfl
  | .num n, ht, h, lo, rest, _, hr => by
    refine (Returns.leaf (.int (Int64.ofInt n.value))).step rfl fun fuel => ?_
    obtain ⟨c, cs, hc, hd⟩ := num_head ht
    obtain ⟨c', cs', hc', hs, -⟩ := text_head (.num n) ht
    obtain ⟨rfl, rfl⟩ := List.cons.inj (hc.symm.trans hc')
    have := jpNumber_text strtod ht hr
    rw [hc] at this
    rw [Cst.text, hc, List.cons_append, jpValue_num hd (jpWs_solid hs), ← List.cons_append, this]
  | .str s, ht, h, lo, rest, _, _ => by
    refine (Returns.leaf (.str (bytes s))).step rfl fun fuel => ?_
    have : jpValue strtod junk (fuel + 1) h (string s ++ rest) =
        some (.str (some (jpString (string s ++ rest)).1), h, (jpString (string s ++ rest)).2) :=
      rfl
    rw [Cst.text, this, jpString_string ht]
  | .arrEmpty w, _, h, lo, rest, hlo, _ => by
    refine (Returns.const (ListOf.rep (.new junk) hlo)).step rfl fun fuel => ?_
    rw [Cst.text, List.cons_append, List.append_assoc, jpValue_arr, jpWs_ws]
    rfl
  | .objEmpty w, _, h, lo, rest, hlo, _ => by
    refine (Returns.const (MapOf.rep (.new junk) hlo)).step rfl fun fuel => ?_
    rw [Cst.text, List.cons_append, List.append_assoc, jpValue_obj, jpWs_ws]
    rfl
  | .arr xs, ht, h, lo, rest, hlo, _ => by
    obtain ⟨c, cs, hc, h93⟩ := items_head xs ht (93 :: rest)
    refine (jpElems_text xs ht h lo _ [] rest hlo (.new junk)).step rfl fun fuel => ?_
    rw [Cst.text, List.cons_append, List.append_assoc]
    exact jpValue_bracket hc h93
  | .obj ms, ht, h, lo, rest, hlo, _ => by
    obtain ⟨cs, hc⟩ := members_head ms (125 :: rest)
    refine (jpMembers_text ms ht.2 h lo _ [] rest hlo (.new junk) ht.1).step rfl fun fuel => ?_
    rw [Cst.text, List.cons_append, List.append_assoc]
    exact jpValue_brace hc (by decide)

theorem jpElems_text : ∀ (xs : Items) (hx : xs.All LaxStr Number.Int64 Fits) (h : Heap) (lo : Nat)
    (a : Harr) (ys : List Value) (rest : Bytes), lo ≤ h.length → ListOf h lo a ys →
    Returns (fun fuel => jpElems strtod junk fuel h a (xs.text ++ 93 :: rest)) h lo
      (.list (ys ++ xs.denote)) rest
  | .last w v w', hx, h, lo, a, ys, rest, hlo, ha => by
    refine (jpValue_text v hx h lo (ws w' ++ 93 :: rest) hlo (.ws (.cons rfl))).bind
      (K := fun v h s fuel => elemNext strtod junk fuel h (hpArrPush a v) s) rfl (fun fuel => ?_)
      fun x new hv => ?_
    · rw [Items.text, List.append_assoc, List.append_assoc, jpElems, jpValue_ws]
      rfl
    · have hstop : ∀ fuel, elemNext strtod junk fuel (h ++ new) (hpArrPush a x)
          (ws w' ++ 93 :: rest) = some (.arr (some (h ++ new).length), h ++ new ++ [hpArrPush a x],
            rest) := by
        intro fuel
        rw [elemNext, jpWs_ws, jpWs_solid (by decide)]
        rfl
      rw [funext hstop]
      exact .const (((ha.append new).push hv).rep (le_append hlo))
  | .cons w v w' xs, hx, h, lo, a, ys, rest, hlo, ha => by
    refine (jpValue_text v hx.1 h lo (ws w' ++ 44 :: (xs.text ++ 93 :: rest)) hlo
      (.ws (.cons rfl))).bind (K := fun v h s fuel => elemNext strtod junk fuel h (hpArrPush a v) s)
      rfl (fun fuel => ?_) fun x new hv => ?_
    · rw [Items.text]
      simp only [List.append_assoc, List.cons_append]
      rw [jpElems, jpValue_ws]
      rfl
    · have hnext : ∀ fuel, elemNext strtod junk fuel (h ++ new) (hpArrPush a x)
          (ws w' ++ 44 :: (xs.text ++ 93 :: rest)) =
            jpElems strtod junk fuel (h ++ new) (hpArrPush a x) (xs.text ++ 93 :: rest) := by
        intro fuel
        rw [elemNext, jpWs_ws, jpWs_solid (by decide)]
        rfl
      have := jpElems_text xs hx.2 (h ++ new) lo (hpArrPush a x) (ys ++ [v.denote]) rest
        (le_append hlo) ((ha.append new).push hv)
      rw [List.append_assoc] at this
      rw [funext hnext]
      exact this

theorem jpMembers_text : ∀ (ms : Members) (hm : ms.All LaxStr Number.Int64 Fits) (h : Heap)
    (lo : Nat) (m : Harr) (kvs : List (Key × Value)) (rest : Bytes), lo ≤ h.length →
    MapOf h lo m kvs →
    (ms.denote kvs).length < full →
    Returns (fun fuel => jpMembers strtod junk fuel h m (ms.text ++ 125 :: rest)) h lo
      (.map (ms.denote kvs)) rest
  | .last w k w₁ w₂ v w', hm, h, lo, m, kvs, rest, hlo, ha, hfull => by
    refine (jpValue_text v hm.2 h lo (ws w' ++ 125 :: rest) hlo (.ws (.cons rfl))).bind
      (K := fun v h s fuel => memberNext strtod junk fuel h m (bytes k) v s) rfl (fun fuel => ?_)
      fun x new hv => ?_
    · rw [Members.text]
      simp only [List.append_assoc, List.cons_append]
      exact jpMembers_member strtod junk hm.1
    · obtain ⟨b, hb, hmap⟩ := (ha.append new).set hv hfull
      have hstop : ∀ fuel, memberNext strtod junk fuel (h ++ new) m (bytes k) x
          (ws w' ++ 125 :: rest) = some (.arr (some (h ++ new).length), h ++ new ++ [b], rest) := by
        intro fuel
        rw [memberNext, hb, Option.bind_some, jpWs_ws, jpWs_solid (by decide)]
        rfl
      rw [funext hstop]
      exact .const (hmap.rep (le_append hlo))
  | .cons w k w₁ w₂ v w' ms, hm, h, lo, m, kvs, rest, hlo, ha, hfull => by
    refine (jpValue_text v hm.2.1 h lo (ws w' ++ 44 :: (ms.text ++ 125 :: rest)) hlo
      (.ws (.cons rfl))).bind
      (K := fun v h s fuel => memberNext strtod junk fuel h m (bytes k) v s) rfl (fun fuel => ?_)
      fun x new hv => ?_
    · rw [Members.text]
      simp only [List.append_assoc, List.cons_append]
      exact jpMembers_member strtod junk hm.1
    · obtain ⟨b, hb, hmap⟩ := (ha.append new).set hv
        (Nat.lt_of_le_of_lt (length_denote_le ms _) hfull)
      have hnext : ∀ fuel, memberNext strtod junk fuel (h ++ new) m (bytes k) x
          (ws w' ++ 44 :: (ms.text ++ 125 :: rest)) =
            jpMembers strtod junk fuel (h ++ new) b (ms.text ++ 125 :: rest) := by
        intro fuel
        rw [memberNext, hb, Option.bind_some, jpWs_ws, jpWs_solid (by decide)]
        rfl
      rw [funext hnext]
      exact jpMembers_text ms hm.2.2 (h ++ new) lo b _ rest (le_append hlo) hmap hfull

end

/-! ## too many keys -/

/-- the conditions of `Lax` without the room for keys -/
abbrev Loose (t : Cst) : Prop := t.All LaxStr Number.Int64 fun _ => True

theorem Returns.none_or {f : Nat → Option (Val × Heap × Bytes)} {h : Heap} {lo : Nat} {j : Value}
    {rest : Bytes} (hf : Returns f h lo j rest) (fuel : Nat) :
    f fuel = none ∨ ∃ v new, f fuel = some (v, h ++ new, rest) ∧ Rep (h ++ new) lo v j := by
  obtain ⟨n, v, new, hrun, hr⟩ := hf
  rw [hrun]
  split
  · exact .inr ⟨v, new, rfl, hr⟩
  · exact .inl rfl

mutual

/-- a text with an object that has too many keys is never read to its end -/
theorem jpValue_full : ∀ (t : Cst) (ht : Loose t) (hn : ¬ Lax t) (h : Heap) (lo : Nat)
    (rest : Bytes), lo ≤ h.length → ∀ fuel, jpValue strtod junk fuel h (t.text ++ rest) = none
  | .null, _, hn, _, _, _, _, _ => absurd trivial hn
  | .true, _, hn, _, _, _, _, _ => absurd trivial hn
  | .false, _, hn, _, _, _, _, _ => absurd trivial hn
  | .num n, ht, hn, _, _, _, _, _ => absurd ht hn
  | .str s, ht, hn, _, _, _, _, _ => absurd ht hn
  | .arrEmpty w, _, hn, _, _, _, _, _ => absurd trivial hn
  | .objEmpty w, _, hn, _, _, _, _, _ => absurd trivial hn
  | .arr xs, ht, hn, h, lo, rest, hlo, fuel => by
    cases fuel with
    | zero => rfl
    | succ fuel =>
      obtain ⟨c, cs, hc, h93⟩ := items_head xs ht (93 :: rest)
      rw [Cst.text, List.cons_append, List.append_assoc]
      exact (jpValue_bracket hc h93).trans
        (jpElems_full xs ht hn h lo _ [] rest hlo (.new junk) fuel)
  | .obj ms, ht, hn, h, lo, rest, hlo, fuel => by
    cases fuel with
    | zero => rfl
    | succ fuel =>
      obtain ⟨cs, hc⟩ := members_head ms (125 :: rest)
      rw [Cst.text, List.cons_append, List.append_assoc]
      refine (jpValue_brace hc (by decide)).trans
        (jpMembers_full ms ht.2 h lo _ [] rest hlo (.new junk) (by decide) ?_ fuel)
      by_cases hf : Fits ms
      · exact .inl fun hm => hn ⟨hf, hm⟩
      · exact .inr (Nat.le_of_not_lt hf)

theorem jpElems_full : ∀ (xs : Items) (hx : xs.All LaxStr Number.Int64 fun _ => True)
    (hn : ¬ xs.All LaxStr Number.Int64 Fits) (h : Heap) (lo : Nat) (a : Harr) (ys : List Value)
    (rest : Bytes), lo ≤ h.length → ListOf h lo a ys →
    ∀ fuel, jpElems strtod junk fuel h a (xs.text ++ 93 :: rest) = none
  | .last w v w', hx, hn, h, lo, a, ys, rest, hlo, ha, fuel => by
    cases fuel with
    | zero => rfl
    | succ fuel =>
      rw [Items.text, List.append_assoc, List.append_assoc, jpElems, jpValue_ws,
        jpValue_full v hx hn h lo _ hlo fuel]
      rfl
  | .cons w v w' xs, hx, hn, h, lo, a, ys, rest, hlo, ha, fuel => by
    cases fuel with
    | zero => rfl
    | succ fuel =>
      rw [Items.text]
      simp only [List.append_assoc, List.cons_append]
      rw [jpElems, jpValue_ws]
      by_cases hv : Lax v
      · rcases (jpValue_text strtod junk v hv h lo (ws w' ++ 44 :: (xs.text ++ 93 :: rest)) hlo
          (.ws (.cons rfl))).none_or fuel with he | ⟨x, new, he, hx'⟩
        · rw [he]
          rfl
        · rw [he]
          show elemNext strtod junk fuel (h ++ new) (hpArrPush a x) _ = none
          rw [elemNext, jpWs_ws, jpWs_solid (by decide)]
          exact jpElems_full xs hx.2 (fun h => hn ⟨hv, h⟩) (h ++ new) lo (hpArrPush a x)
            (ys ++ [v.denote]) rest (le_append hlo) ((ha.append new).push hx') fuel
      · rw [jpValue_full v hx.1 hv h lo _ hlo fuel]
        rfl

theorem jpMembers_full : ∀ (ms : Members) (hm : ms.All LaxStr Number.Int64 fun _ => True) (h : Heap)
    (lo : Nat) (m : Harr) (kvs : List (Key × Value)) (rest : Bytes), lo ≤ h.length →
    MapOf h lo m kvs → kvs.length < full →
    (¬ ms.All LaxStr Number.Int64 Fits ∨ full ≤ (ms.denote kvs).length) →
    ∀ fuel, jpMembers strtod junk fuel h m (ms.text ++ 125 :: rest) = none
  | .last w k w₁ w₂ v w', hm, h, lo, m, kvs, rest, hlo, ha, hlt, hn, fuel => by
    cases fuel with
    | zero => rfl
    | succ fuel =>
      rw [Members.text]
      simp only [List.append_assoc, List.cons_append]
      rw [jpMembers_member strtod junk hm.1]
      by_cases hv : Lax v
      · rcases (jpValue_text strtod junk v hv h lo (ws w' ++ 125 :: rest) hlo
          (.ws (.cons rfl))).none_or fuel with he | ⟨x, new, he, hx⟩
        · rw [he]
          rfl
        · rw [he, Option.bind_some, memberNext]
          dsimp only
          rw [(ha.append new).set_full hx hlt (hn.resolve_left fun h => h ⟨hm.1, hv⟩)]
          rfl
      · rw [jpValue_full v hm.2 hv h lo _ hlo fuel]
        rfl
  | .cons w k w₁ w₂ v w' ms, hm, h, lo, m, kvs, rest, hlo, ha, hlt, hn, fuel => by
    cases fuel with
    | zero => rfl
    | succ fuel =>
      rw [Members.text]
      simp only [List.append_assoc, List.cons_append]
      rw [jpMembers_member strtod junk hm.1]
      by_cases hv : Lax v
      · rcases (jpValue_text strtod junk v hv h lo (ws w' ++ 44 :: (ms.text ++ 125 :: rest)) hlo
          (.ws (.cons rfl))).none_or fuel with he | ⟨x, new, he, hx⟩
        · rw [he]
          rfl
        · rw [he, Option.bind_some, memberNext]
          dsimp only
          by_cases hfit : (assign kvs (.str (bytes k)) v.denote).length < full
          · obtain ⟨b, hb, hmap⟩ := (ha.append new).set hx hfit
            rw [hb, Option.bind_some, jpWs_ws, jpWs_solid (by decide)]
            refine jpMembers_full ms hm.2.2 (h ++ new) lo b _ rest (le_append hlo) hmap hfit ?_ fuel
            exact hn.imp (fun h h' => h ⟨hm.1, hv, h'⟩) id
          · rw [(ha.append new).set_full hx hlt (Nat.le_of_not_lt hfit)]
            rfl
      · rw [jpValue_full v hm.2.1 hv h lo _ hlo fuel]
        rfl

end

end

/-! ## texts of the grammar -/

/-- the escapes of a string are not surrogates -/
def NoSurrogate (s : List Ch) : Prop := ∀ c ∈ s, match c with
  | .hex a b c d => codePoint a b c d < 0xD800 ∨ 0xE000 ≤ codePoint a b c d
  | _ => True

/-- every object has fewer than `2^31 - 4` distinct keys -/
def Roomy (t : Cst) : Prop := t.All (fun _ => True) (fun _ => True) Fits

theorem lax_of_ok {s : List Ch} (hs : StrOk s) (hn : NoSurrogate s) : LaxStr s := by
  intro c hc
  cases c with
  | raw b => exact (hs.raw_plain hc).2
  | esc e => trivial
  | hex d₁ d₂ d₃ d₄ => exact hn (.hex d₁ d₂ d₃ d₄) hc

section
variable (strtod : Bytes → Double) (junk : Nat → Val) (fromDouble : Double → Bytes)
variable (h : Heap) (w w' : List Ws) (t : Cst)

/-- on the text of `t` between blanks `hpbi_json_decode` returns what `t` denotes, and `jp_value`
stops in front of the blanks behind it -/
def Decodes : Prop :=
  Returns (fun fuel => hpbiJsonDecode strtod junk fromDouble fuel h
    (.str (some (ws w ++ t.text ++ ws w')))) h h.length t.denote (ws w')

variable {strtod junk fromDouble h w w' t}

theorem decodes_of_lax (ht : Lax t) : Decodes strtod junk fromDouble h w w' t := by
  have hends : Ends (ws w') := by
    have := Ends.ws (w := w') (s := []) fun c hc => by cases hc
    rwa [List.append_nil] at this
  have := jpValue_text strtod junk t ht h h.length (ws w') (Nat.le_refl _) hends
  unfold Decodes hpbiJsonDecode hpValToStr
  simp only [List.append_assoc, jpValue_ws]
  exact this

theorem not_decodes (ht : Loose t) (hn : ¬ Lax t) : ¬ Decodes strtod junk fromDouble h w w' t := by
  rintro ⟨n, v, new, hrun, -⟩
  have := hrun n
  dsimp only [hpbiJsonDecode, hpValToStr] at this
  rw [if_pos (Nat.le_refl n), List.append_assoc, jpValue_ws,
    jpValue_full strtod junk t ht hn h h.length (ws w') (Nat.le_refl _)] at this
  cases this

/-- **Every text of the grammar** with integers of 64 bits and without surrogates is read as what it
denotes exactly when its objects have room for their keys. -/
theorem hpbiJsonDecode_iff (hr : t.Rfc) (hi : t.All NoSurrogate Number.Int64 fun _ => True) :
    Decodes strtod junk fromDouble h w w' t ↔ Roomy t := by
  have hloose : Loose t := Cst.All.and (fun _ => lax_of_ok) (fun _ _ => id) (fun _ _ => id) t hr hi
  constructor
  · intro hd
    by_contra hn
    exact not_decodes hloose (fun hl => hn (Cst.All.and (fun _ _ _ => trivial)
      (fun _ _ _ => trivial) (fun _ h _ => h) t hl hl)) hd
  · intro hf
    exact decodes_of_lax (Cst.All.and (fun _ h _ => h) (fun _ h _ => h) (fun _ _ => id) t hloose hf)

end

/-- `{"é": [-12]}` -/
theorem hpbiJsonDecode_pair : Decodes (fun _ => ⟨0⟩) (fun _ => .null) (fun _ => []) [] [] []
    (.obj (.last [] [.raw 195, .raw 169] [] [.space]
      (.arr (.last [] (.num ⟨true, 12, [], none⟩) [])) [])) := by
  refine (hpbiJsonDecode_iff ?_ ?_).mpr ?_
  · exact ⟨trivial, .char (c := 'é') (by decide) (by decide) (by decide) .nil, trivial⟩
  · exact ⟨trivial, by simp [NoSurrogate], rfl, rfl, by decide, by decide⟩
  · exact ⟨by unfold Fits; decide, trivial, trivial⟩

/-! ## an object with `2^31 - 4` keys -/

def numbered (i : Nat) : List Ch := (decimal i).map Ch.raw

/-- the members `"n":null`, ..., `"0":null` -/
def countdown : Nat → Members
  | 0 => .last [] (numbered 0) [] [] .null []
  | n + 1 => .cons [] (numbered (n + 1)) [] [] .null [] (countdown n)

theorem bytes_numbered (i : Nat) : bytes (numbered i) = decimal i := by
  unfold bytes numbered
  induction decimal i with
  | nil => rfl
  | cons c cs ih => exact congrArg (c :: ·) ih

theorem numbered_ok (i : Nat) : StrOk (numbered i) ∧ NoSurrogate (numbered i) := by
  constructor
  · exact .of_raw fun b hb => isDigit_plain (decimal_digits i b hb)
  · intro c hc
    obtain ⟨b, -, rfl⟩ := List.mem_map.mp hc
    trivial

theorem length_countdown {kvs : List (Key × Value)} (n : Nat)
    (hk : ∀ p ∈ kvs, ∀ i ≤ n, p.1 ≠ .str (decimal i)) :
    ((countdown n).denote kvs).length = kvs.length + (n + 1) := by
  have hnew : ∀ (m : Nat) (l : List (Key × Value)), (∀ p ∈ l, ∀ i ≤ m, p.1 ≠ .str (decimal i)) →
      assign l (.str (bytes (numbered m))) .null = l ++ [(.str (decimal m), .null)] := by
    intro m l hl
    rw [bytes_numbered]
    exact assign_new fun p hp => hl p hp m (Nat.le_refl m)
  induction n generalizing kvs with
  | zero =>
    rw [countdown, Members.denote, Cst.denote, hnew 0 kvs hk, List.length_append]
    rfl
  | succ n ih =>
    rw [countdown, Members.denote, Cst.denote, hnew (n + 1) kvs hk, ih, List.length_append,
      List.length_singleton]
    · omega
    · intro p hp i hi he
      rcases List.mem_append.mp hp with hp | hp
      · exact hk p hp i (Nat.le_succ_of_le hi) he
      · obtain rfl := List.mem_singleton.mp hp
        have := congrArg (leadingNat 0) (Key.str.inj he)
        rw [leadingNat_decimal, leadingNat_decimal] at this
        omega

theorem countdown_all {S : List Ch → Prop} {N : Number → Prop} (hS : ∀ i, S (numbered i))
    (n : Nat) : (countdown n).All S N fun _ => True := by
  induction n with
  | zero => exact ⟨hS 0, trivial⟩
  | succ n ih => exact ⟨hS (n + 1), trivial, ih⟩

/-- the object with too many keys -/
def overfull : Cst := .obj (countdown (full - 1))

theorem overfull_rfc : overfull.Rfc := ⟨trivial, countdown_all (fun i => (numbered_ok i).1) (full - 1)⟩

theorem overfull_plain : overfull.All NoSurrogate Number.Int64 fun _ => True :=
  ⟨trivial, countdown_all (fun i => (numbered_ok i).2) (full - 1)⟩

theorem overfull_loose : Loose overfull :=
  Cst.All.and (fun _ => lax_of_ok) (fun _ _ => id) (fun _ _ => id) _ overfull_rfc overfull_plain

theorem overfull_not_lax : ¬ Lax overfull := by
  intro hl
  have hlen : ((countdown (full - 1)).denote []).length = full := by
    rw [length_countdown (full - 1) fun p hp => by cases hp]
    rfl
  have : ((countdown (full - 1)).denote []).length < full := hl.1
  omega

theorem hpbiJsonDecode_fails : ¬ ∀ (strtod : Bytes → Double) (junk : Nat → Val)
    (fromDouble : Double → Bytes) (h : Heap) (w w' : List Ws) (t : Cst), t.Rfc →
    t.All NoSurrogate Number.Int64 (fun _ => True) → Decodes strtod junk fromDouble h w w' t := by
  intro hall
  exact not_decodes overfull_loose overfull_not_lax (hall (fun _ => ⟨0⟩) (fun _ => .null)
    (fun _ => []) [] [] [] overfull overfull_rfc overfull_plain)

end Std
end HolyPhp
