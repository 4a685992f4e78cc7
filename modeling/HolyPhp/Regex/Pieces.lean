import HolyPhp.Regex.Scan

/-!
# What `preg_split` keeps of the subject

* `Weaves ps ds w`  `w` is the pieces `ps` with the separators `ds` between them;
* `split_lengths`   a byte at least is lost for each match that is empty;
* `split_full`      nothing is lost if none is.
-/

set_option autoImplicit false

namespace HolyPhp
namespace Regex

section
variable {tree : Rx} {s : Bytes} {ng off e : Nat} {m : Found} {ms : List Found}

/-- the pieces with the separators between them -/
inductive Weaves : List Bytes → List Bytes → Bytes → Prop
  | last (p : Bytes) : Weaves [p] [] p
  | cons (p d : Bytes) {ps ds : List Bytes} {w : Bytes} : Weaves ps ds w →
      Weaves (p :: ps) (d :: ds) (p ++ d ++ w)

/-- the texts of the matches that take something -/
def seps (s : Bytes) (ms : List Found) : List Bytes :=
  (ms.filter fun m => !m.isEmpty).map fun m => (s.drop m.ms).take (m.me - m.ms)

theorem Weaves.length {ps ds : List Bytes} {w : Bytes} (h : Weaves ps ds w) :
    w.length = ps.flatten.length + ds.flatten.length := by
  induction h with
  | last p => simp
  | cons p d _ ih =>
    simp only [List.length_append, ih, List.flatten_cons]
    omega

theorem splitBody_next (off : Nat) (m : Found) (b : List Bytes) (x : Nat × List Bytes)
    (hm : Within s ng off m) (h : splitBody s off m b = .ok x) : x.1 = nextOff m := by
  have hspan := hm.span
  unfold splitBody at h
  split at h
  · next heq =>
    cases h
    exact (if_neg (by omega)).symm
  · next hne =>
    obtain ⟨a, -, h⟩ := Res.bind_ok.mp h
    cases h
    exact (if_pos (by omega)).symm

theorem splitBody_ret (off : Nat) (m : Found) (b : List Bytes) :
    ∃ o, splitBody s off m b = .ret o := by
  unfold splitBody
  split
  · exact ⟨_, rfl⟩
  · exact Res.bind_ret ⟨_, rfl⟩ fun a _ => ⟨_, rfl⟩

theorem seps_cons (h : m.ms < m.me) :
    seps s (m :: ms) = (s.drop m.ms).take (m.me - m.ms) :: seps s ms := by
  rw [seps, List.filter_cons_of_pos (by simpa [Found.isEmpty] using h), List.map_cons, seps]

/-- an empty match loses a byte at least -/
theorem split_lengths (ht : tree.Ends False s ng) (h : Scan tree ng s off ms e)
    {b : List Bytes} {x : Nat × List Bytes} {t : Bytes}
    (hr : runBody (splitBody s) ms off b = .ok x) (hst : slice s x.1 s.length = .ok t) :
    x.2.flatten.length + t.length + (seps s ms).flatten.length + off +
      ms.countP Found.isEmpty ≤ b.flatten.length + s.length := by
  induction h generalizing b with
  | past hlt =>
    cases hr
    have := (slice_inv hst).1
    omega
  | stop hle _ =>
    cases hr
    have := (slice_inv hst).2.2.2
    simp only [seps, List.filter_nil, List.map_nil, List.flatten_nil, List.length_nil,
      List.countP_nil]
    omega
  | @more off e m ms hle hm _ ih =>
    have hin := found_within ht hm
    obtain ⟨h1, h2, h3, -⟩ := hin
    obtain ⟨y, hb, hr⟩ := Res.bind_ok.mp hr
    have hnext := splitBody_next off m b y (found_within ht hm) hb
    rw [hnext] at hr
    have hlen := ih hr
    unfold splitBody at hb
    by_cases heq : m.me = m.ms
    · rw [if_pos heq] at hb
      cases hb
      have he : m.isEmpty = true := decide_eq_true (Nat.le_of_eq heq)
      have hnx : nextOff m = m.ms + 1 := if_neg (by omega)
      rw [List.countP_cons_of_pos he, show seps s (m :: ms) = seps s ms by simp [seps, he]]
      rw [hnx] at hlen
      dsimp only at hlen
      omega
    · rw [if_neg heq] at hb
      obtain ⟨a, ha, hb⟩ := Res.bind_ok.mp hb
      cases hb
      have hlt : m.ms < m.me := by omega
      have hne : ¬ m.isEmpty = true := by simpa [Found.isEmpty] using hlt
      have hal := (slice_inv ha).2.2.2
      have hnx : nextOff m = m.me := if_pos hlt
      rw [hnx] at hlen
      rw [List.countP_cons_of_neg hne, seps_cons hlt]
      simp only [List.flatten_append, List.flatten_cons, List.flatten_nil, List.length_append,
        List.length_nil, List.length_take, List.length_drop] at hlen ⊢
      omega

/-- no match is empty: nothing is lost -/
theorem split_full (ht : tree.Ends False s ng) (h : Scan tree ng s off ms e)
    (hoff : off ≤ s.length) (hne : ∀ m ∈ ms, m.ms < m.me) (b : List Bytes) :
    ∃ x t ps, runBody (splitBody s) ms off b = .ok x ∧ slice s x.1 s.length = .ok t ∧
      x.2 ++ [t] = b ++ ps ∧ Weaves ps (seps s ms) (s.drop off) := by
  induction h generalizing b with
  | past hlt => omega
  | @stop off hle _ => exact ⟨_, _, _, rfl, slice_end hle, rfl, .last _⟩
  | @more off e m ms hle hm _ ih =>
    have hin := found_within ht hm
    have hlt : m.ms < m.me := hne m (List.mem_cons_self ..)
    have hnext : nextOff m = m.me := if_pos hlt
    rw [hnext] at ih
    obtain ⟨x, t, ps, hr, hst, hxw, hw⟩ := ih hin.last
      (fun m hm => hne m (List.mem_cons_of_mem _ hm)) (b ++ [(s.drop off).take (m.ms - off)])
    refine ⟨x, t, (s.drop off).take (m.ms - off) :: ps, ?_, hst, ?_, ?_⟩
    · rw [runBody, splitBody, if_neg (Nat.ne_of_gt hlt),
        slice_ok hin.after (Nat.le_trans hin.span hin.last), Res.ok_bind, Res.ok_bind]
      exact hr
    · rw [hxw, List.append_assoc]
      rfl
    · rw [seps_cons hlt]
      have hcut : s.drop off = (s.drop off).take (m.ms - off) ++
          (s.drop m.ms).take (m.me - m.ms) ++ s.drop m.me := by
        have h1 : (s.drop off).drop (m.ms - off) = s.drop m.ms := by
          rw [List.drop_drop, Nat.add_sub_cancel' hin.after]
        have h2 : (s.drop m.ms).drop (m.me - m.ms) = s.drop m.me := by
          rw [List.drop_drop, Nat.add_sub_cancel' hin.span]
        rw [List.append_assoc, ← h2, List.take_append_drop, ← h1, List.take_append_drop]
      have hcons := Weaves.cons ((s.drop off).take (m.ms - off)) ((s.drop m.ms).take (m.me - m.ms)) hw
      rw [← hcut] at hcons
      exact hcons

variable {pat x : Bytes}

/-- the pieces that `preg_split` gives, with the matches between them, are the subject -/
def Splits (pat x : Bytes) (ms : List Found) : Prop :=
  ∃ ps, Settles (fun n => hpbiPregSplit n pat x) (.ok ps) ∧ Weaves ps (seps x ms) x

theorem split_settles (hc : rxSplitPattern pat = some (tree, ng)) (hg : ng < 32)
    (h : Scan tree ng x 0 ms e) : Settles (fun n => hpbiPregSplit n pat x)
      ((runBody (splitBody x) ms 0 []).bind fun y =>
        (slice x y.1 x.length).bind fun t => .ok (y.2 ++ [t])) := by
  obtain ⟨N, hN⟩ := while_settles (split_ends hc hg) splitBody_next h ([] : List Bytes)
  refine ⟨N, fun n hn => ?_⟩
  show hpbiPregSplit n pat x = _
  rw [hpbiPregSplit, hc]
  dsimp only
  rw [hN n n hn hn]

/-- the loop ends, also where it leaves the subject -/
theorem split_returns (hc : rxSplitPattern pat = some (tree, ng)) (hg : ng < 32)
    (h : Scan tree ng x 0 ms e) : ∃ r, Settles (fun n => hpbiPregSplit n pat x) (.ret r) := by
  have hret : ∃ r, ((runBody (splitBody x) ms 0 []).bind fun y =>
      (slice x y.1 x.length).bind fun t => .ok (y.2 ++ [t])) = .ret r := by
    apply Res.bind_ret
    · exact runBody_ret (split_ends hc hg) splitBody_next (fun off m b _ => splitBody_ret off m b) h []
    · intro y _
      exact Res.bind_ret ⟨_, rfl⟩ fun t _ => ⟨_, rfl⟩
  obtain ⟨r, hr⟩ := hret
  exact ⟨r, hr ▸ split_settles hc hg h⟩

theorem splits_iff (hc : rxSplitPattern pat = some (tree, ng)) (hg : ng < 32)
    (h : Scan tree ng x 0 ms e) : Splits pat x ms ↔ ∀ m ∈ ms, m.ms < m.me := by
  have hrun := split_settles hc hg h
  constructor
  · intro hw
    obtain ⟨ps, hset, hw⟩ := hw
    obtain ⟨y, hy, hw'⟩ := Res.bind_ok.mp (hrun.unique hset)
    obtain ⟨t, ht, hw'⟩ := Res.bind_ok.mp hw'
    cases hw'
    have hlen := split_lengths (split_ends hc hg) h hy ht
    have hx := hw.length
    apply countP_empty.mp
    simp only [List.flatten_append, List.flatten_cons, List.flatten_nil, List.length_append,
      List.length_nil] at hx hlen
    omega
  · intro hne
    obtain ⟨y, t, ps, hy, ht, hw, hr⟩ := split_full (split_ends hc hg) h (Nat.zero_le _) hne []
    refine ⟨ps, ?_, hr⟩
    rw [hy, Res.ok_bind, ht, Res.ok_bind, hw] at hrun
    exact hrun

/-- **`preg_split` loses nothing** just if the scan finds no empty match; it ends in any case. -/
theorem preg_split_text (hc : rxSplitPattern pat = some (tree, ng)) (hg : ng < 32) (x : Bytes) :
    ∃ ms e, Scan tree ng x 0 ms e ∧ (∃ r, Settles (fun n => hpbiPregSplit n pat x) (.ret r)) ∧
      (Splits pat x ms ↔ Solid tree ng x) := by
  obtain ⟨ms, e, h⟩ := scan_exists (split_ends (x := x) hc hg) 0
  exact ⟨ms, e, h, split_returns hc hg h, (splits_iff hc hg h).trans (solid_iff h).symm⟩

theorem preg_split_text_star : ∃ ms e, Scan starTree 0 [97, 98] 0 ms e ∧
    (∃ r, Settles (fun n => hpbiPregSplit n [47, 120, 42, 47] [97, 98]) (.ret r)) ∧
    (Splits [47, 120, 42, 47] [97, 98] ms ↔ Solid starTree 0 [97, 98]) :=
  preg_split_text star_split (by decide) [97, 98]

theorem star_split_lost : ¬ ∀ pat tree ng x ms e, rxSplitPattern pat = some (tree, ng) →
    ng < 32 → Scan tree ng x 0 ms e → Splits pat x ms := by
  intro h
  obtain ⟨ms, e, hs⟩ := scan_exists (split_ends (x := []) star_split (by decide)) 0
  have hw := h _ _ _ [] ms e star_split (by decide) hs
  exact star_scan hs ((splits_iff star_split (by decide) hs).mp hw)

end

end Regex
end HolyPhp
