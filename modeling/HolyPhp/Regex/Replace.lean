import HolyPhp.Regex.Scan

/-!
# What `preg_replace` keeps of the subject

* `Replaced p ms w`  `w` is the subject from `p` on, with the matches replaced;
* `replace_lengths`  a byte is missing for each match that is empty;
* `replace_full`     nothing is missing if none is.
-/

set_option autoImplicit false

namespace HolyPhp
namespace Regex

section
variable {tree : Rx} {s : Bytes} {ng off e p : Nat} {m : Found} {ms : List Found}

theorem group_ok (hm : Within s ng off m) {gi : Nat} (hg : gi < 32) :
    ∃ t, rxGroup m.ctx s gi = .ok t := by
  rw [rxGroup, if_pos hg]
  by_cases hu : m.ctx.capS gi = unset
  · exact ⟨[], if_neg (not_not.mpr hu)⟩
  · obtain ⟨h1, h2⟩ := hm.held.spans gi hu
    rw [if_pos hu, slice_ok h1 h2]
    exact ⟨_, rfl⟩

theorem backref_ok (hm : Within s ng off m) {d : UInt8} (hd : isDigit d = true) (n : Nat) :
    ∃ t, backref s n m d = .ok t := by
  have hle : d ≤ 57 := by
    rw [isDigit, Bool.and_eq_true] at hd
    exact of_decide_eq_true hd.2
  have hlt : d.toNat - 48 < 32 := by
    have : d.toNat ≤ 57 := hle
    omega
  unfold backref
  dsimp only
  split_ifs
  · exact ⟨_, slice_ok hm.span hm.last⟩
  · exact group_ok hm hlt
  · exact ⟨[], rfl⟩

/-- the loop over the replacement stays in its bounds -/
theorem expand_ok (hm : Within s ng off m) (n : Nat) (rep : Bytes) :
    ∃ w, expand s n m rep = .ok w := by
  induction rep using expand.induct with
  | case1 c d r hc ih =>
    obtain ⟨a, ha⟩ := backref_ok hm hc.2 n
    obtain ⟨b, hb⟩ := ih
    exact ⟨a ++ b, by rw [expand, if_pos hc, ha, Res.ok_bind, hb, Res.ok_bind]⟩
  | case2 c d r hc ih =>
    obtain ⟨b, hb⟩ := ih
    exact ⟨c :: b, by rw [expand, if_neg hc, hb, Res.ok_bind]⟩
  | case3 r hr =>
    refine ⟨r, ?_⟩
    rw [expand]
    exact hr

/-- `w` is the subject from `p` on, with the matches replaced -/
inductive Replaced (s : Bytes) (ng : Nat) (rep : Bytes) : Nat → List Found → Bytes → Prop
  | done {p : Nat} : p ≤ s.length → Replaced s ng rep p [] (s.drop p)
  | more {p : Nat} {m : Found} {ms : List Found} {x w : Bytes} : p ≤ m.ms → m.ms ≤ m.me →
      m.me ≤ s.length → expand s ng m rep = .ok x → Replaced s ng rep m.me ms w →
      Replaced s ng rep p (m :: ms) ((s.drop p).take (m.ms - p) ++ x ++ w)

variable {rep : Bytes}

theorem replaceBody_next (off : Nat) (m : Found) (b : Bytes) (x : Nat × Bytes)
    (_ : Within s ng off m) (h : replaceBody s ng rep off m b = .ok x) : x.1 = nextOff m := by
  obtain ⟨a, -, h⟩ := Res.bind_ok.mp h
  obtain ⟨y, -, h⟩ := Res.bind_ok.mp h
  cases h
  rfl

/-- a byte is missing for each match that is empty -/
theorem replace_lengths (h : Scan tree ng s off ms e) (hp : p ≤ off) {b : Bytes} {x : Nat × Bytes}
    {t w : Bytes} (hr : runBody (replaceBody s ng rep) ms off b = .ok x)
    (ht : slice s x.1 s.length = .ok t) (hw : Replaced s ng rep p ms w) :
    (x.2 ++ t).length + off + ms.countP Found.isEmpty = b.length + w.length + p := by
  induction h generalizing p b w with
  | past hlt =>
    cases hr
    have := (slice_inv ht).1
    omega
  | stop hle _ =>
    cases hr
    cases hw
    have := (slice_inv ht).2.2.2
    simp only [List.length_append, List.length_drop, List.countP_nil]
    omega
  | @more off e m ms hle _ _ ih =>
    obtain ⟨y, hb, hr⟩ := Res.bind_ok.mp hr
    obtain ⟨a, ha, hb⟩ := Res.bind_ok.mp hb
    obtain ⟨z, hz, hb⟩ := Res.bind_ok.mp hb
    cases hb
    obtain ⟨h1, -, -, hlen⟩ := slice_inv ha
    cases hw with
    | @more _ _ _ z' w hpm hspan hlast hz' hw =>
      rw [hz] at hz'
      cases hz'
      have hnext := nextOff_eq hspan
      have hlen' := ih (Nat.le.intro hnext.symm) hr hw
      simp only [List.length_append, List.length_take, List.length_drop, List.countP_cons,
        List.countP_nil] at hlen' hnext ⊢
      omega

/-- no match is empty: nothing is missing -/
theorem replace_full (ht : tree.Ends False s ng) (h : Scan tree ng s off ms e)
    (hoff : off ≤ s.length) (hne : ∀ m ∈ ms, m.ms < m.me) (b : Bytes) :
    ∃ x t w, runBody (replaceBody s ng rep) ms off b = .ok x ∧ slice s x.1 s.length = .ok t ∧
      x.2 ++ t = b ++ w ∧ Replaced s ng rep off ms w := by
  induction h generalizing b with
  | past hlt => omega
  | @stop off hle _ => exact ⟨_, _, _, rfl, slice_end hle, rfl, .done hle⟩
  | @more off e m ms hle hs _ ih =>
    have hm := found_within ht hs
    obtain ⟨z, hz⟩ := expand_ok hm ng rep
    have hlt : m.ms < m.me := hne m (List.mem_cons_self ..)
    have hnext : nextOff m = m.me := if_pos hlt
    rw [hnext] at ih
    obtain ⟨x, t, w, hr, hst, hxw, hw⟩ := ih hm.last
      (fun m hm => hne m (List.mem_cons_of_mem _ hm)) (b ++ (s.drop off).take (m.ms - off) ++ z)
    refine ⟨x, t, _, ?_, hst, ?_, .more hm.after hm.span hm.last hz hw⟩
    · rw [runBody, replaceBody, slice_ok hm.after (Nat.le_trans hm.span hm.last), Res.ok_bind, hz,
        Res.ok_bind, Res.ok_bind, hnext]
      exact hr
    · rw [hxw]
      simp only [List.append_assoc]

/-- `preg_replace` gives the subject with the matches replaced -/
def Replaces (pat rep x : Bytes) (ng : Nat) (ms : List Found) : Prop :=
  ∃ w, Settles (fun n => hpbiPregReplace n pat rep x) (.ok w) ∧ Replaced x ng rep 0 ms w

variable {pat x : Bytes}

theorem replace_settles (hc : rxSplitPattern pat = some (tree, ng)) (hg : ng < 32)
    (h : Scan tree ng x 0 ms e) : Settles (fun n => hpbiPregReplace n pat rep x)
      ((runBody (replaceBody x ng rep) ms 0 []).bind fun y =>
        (slice x y.1 x.length).bind fun t => .ok (y.2 ++ t)) := by
  obtain ⟨N, hN⟩ := while_settles (split_ends hc hg) replaceBody_next h ([] : Bytes)
  refine ⟨N, fun n hn => ?_⟩
  show hpbiPregReplace n pat rep x = _
  rw [hpbiPregReplace, hc]
  dsimp only
  rw [hN n n hn hn]

theorem replaces_iff (hc : rxSplitPattern pat = some (tree, ng)) (hg : ng < 32)
    (h : Scan tree ng x 0 ms e) (rep : Bytes) :
    Replaces pat rep x ng ms ↔ ∀ m ∈ ms, m.ms < m.me := by
  have hrun : Settles (fun n => hpbiPregReplace n pat rep x) _ := replace_settles hc hg h
  constructor
  · intro hw
    obtain ⟨w, hset, hw⟩ := hw
    obtain ⟨y, hy, hw'⟩ := Res.bind_ok.mp (hrun.unique hset)
    obtain ⟨t, ht, hw'⟩ := Res.bind_ok.mp hw'
    cases hw'
    have hlen := replace_lengths h (Nat.le_refl _) hy ht hw
    apply countP_empty.mp
    simp only [List.length_nil] at hlen
    omega
  · intro hne
    obtain ⟨y, t, w, hy, ht, hw, hr⟩ : ∃ y t w, runBody (replaceBody x ng rep) ms 0 [] = .ok y ∧
        slice x y.1 x.length = .ok t ∧ y.2 ++ t = [] ++ w ∧ Replaced x ng rep 0 ms w :=
      replace_full (split_ends hc hg) h (Nat.zero_le _) hne []
    refine ⟨w, ?_, hr⟩
    rw [hy, Res.ok_bind, ht, Res.ok_bind, hw] at hrun
    exact hrun

/-- **`preg_replace` keeps the text between the matches**, and stays in the subject, just if the
scan finds no empty match. -/
theorem preg_replace_text (hc : rxSplitPattern pat = some (tree, ng)) (hg : ng < 32)
    (rep x : Bytes) : ∃ ms e, Scan tree ng x 0 ms e ∧
      (Replaces pat rep x ng ms ↔ Solid tree ng x) := by
  obtain ⟨ms, e, h⟩ := scan_exists (split_ends (x := x) hc hg) 0
  exact ⟨ms, e, h, (replaces_iff hc hg h rep).trans (solid_iff h).symm⟩

theorem preg_replace_text_star : ∃ ms e, Scan starTree 0 [97, 98] 0 ms e ∧
    (Replaces [47, 120, 42, 47] [45] [97, 98] 0 ms ↔ Solid starTree 0 [97, 98]) :=
  preg_replace_text star_split (by decide) [45] [97, 98]

theorem star_replace_lost : ¬ ∀ pat tree ng rep x ms e, rxSplitPattern pat = some (tree, ng) →
    ng < 32 → Scan tree ng x 0 ms e → Replaces pat rep x ng ms := by
  intro h
  obtain ⟨ms, e, hs⟩ := scan_exists (split_ends (x := []) star_split (by decide)) 0
  have hw := h _ _ _ [45] [] ms e star_split (by decide) hs
  exact star_scan hs ((replaces_iff star_split (by decide) hs _).mp hw)

end

end Regex
end HolyPhp
