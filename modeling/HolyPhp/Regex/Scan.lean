import HolyPhp.Regex.Ends
import HolyPhp.Regex.Sound

/-!
# The matches of a scan

* `Scan off ms e`      the loops find the matches `ms` from `off` on, and stop at `e`;
* `scan_exists`, `Scan.unique`  there is exactly one such list;
* `while_settles`      a loop is its body, run over the matches;
* `Solid`              the search finds no empty match on the way.
-/

set_option autoImplicit false

namespace HolyPhp
namespace Regex

inductive Scan (tree : Rx) (ng : Nat) (s : Bytes) : Nat → List Found → Nat → Prop
  | past {off : Nat} : s.length < off → Scan tree ng s off [] off
  | stop {off : Nat} : off ≤ s.length →
      Settles (fun n => rxSearch n tree ng s off) (.ret none) → Scan tree ng s off [] off
  | more {off e : Nat} {m : Found} {ms : List Found} : off ≤ s.length →
      Settles (fun n => rxSearch n tree ng s off) (.ret (some m)) →
      Scan tree ng s (nextOff m) ms e → Scan tree ng s off (m :: ms) e

section
variable {tree : Rx} {s : Bytes} {ng off e p : Nat} {m : Found} {ms : List Found}

theorem Within.next (h : Within s ng off m) : m.me ≤ nextOff m ∧ off < nextOff m := by
  have h1 := h.after
  have h2 := h.span
  unfold nextOff
  split <;> omega

/-- what the search finds lies in the subject -/
theorem found_within (ht : tree.Ends False s ng)
    (h : Settles (fun n => rxSearch n tree ng s off) (.ret (some m))) : Within s ng off m := by
  obtain ⟨o, ho, hl⟩ := search_ends ht off
  obtain rfl := ho.unique h
  exact hl m rfl

theorem scan_exists (ht : tree.Ends False s ng) (off : Nat) : ∃ ms e, Scan tree ng s off ms e := by
  induction hd : s.length + 1 - off using Nat.strongRecOn generalizing off with
  | _ d ih =>
    by_cases hle : off ≤ s.length
    · obtain ⟨o, ho, hl⟩ := search_ends ht off
      rcases o with - | - | o
      · exact absurd hl id
      · exact absurd hl id
      · cases o with
        | none => exact ⟨[], off, .stop hle ho⟩
        | some m =>
          have hn := (hl m rfl).next.2
          obtain ⟨ms, e, hs⟩ := ih (s.length + 1 - nextOff m) (by omega) (nextOff m) rfl
          exact ⟨m :: ms, e, .more hle ho hs⟩
    · exact ⟨[], off, .past (by omega)⟩

theorem Scan.unique {ms' : List Found} {e' : Nat} (h : Scan tree ng s off ms e)
    (h' : Scan tree ng s off ms' e') : ms = ms' ∧ e = e' := by
  induction h generalizing ms' e' with
  | past hlt =>
    cases h' with
    | past _ => exact ⟨rfl, rfl⟩
    | stop _ _ => exact ⟨rfl, rfl⟩
    | more hle _ _ => omega
  | stop hle hs =>
    cases h' with
    | past _ => exact ⟨rfl, rfl⟩
    | stop _ _ => exact ⟨rfl, rfl⟩
    | more _ hs' _ => cases hs.unique hs'
  | more hle hs _ ih =>
    cases h' with
    | past _ => omega
    | stop _ hs' => cases hs.unique hs'
    | more _ hs' hrest =>
      cases hs.unique hs'
      obtain ⟨rfl, rfl⟩ := ih hrest
      exact ⟨rfl, rfl⟩

/-! ## the loops over the matches -/

section
variable {β : Type}

/-- the body, over a list of matches -/
def runBody (body : Nat → Found → β → Res (Nat × β)) : List Found → Nat → β → Res (Nat × β)
  | [], off, b => .ok (off, b)
  | m :: ms, off, b => (body off m b).bind fun x => runBody body ms x.1 x.2

variable {body : Nat → Found → β → Res (Nat × β)}

theorem while_settles (ht : tree.Ends False s ng)
    (hnext : ∀ off m b x, Within s ng off m → body off m b = .ok x → x.1 = nextOff m)
    (h : Scan tree ng s off ms e) (b : β) :
    ∃ N, ∀ n r, N ≤ n → N ≤ r → rxWhile n tree ng s body r off b = runBody body ms off b := by
  induction h generalizing b with
  | past hlt =>
    refine ⟨1, fun n r _ hr => ?_⟩
    obtain ⟨r, rfl⟩ : ∃ r', r = r' + 1 := ⟨r - 1, by omega⟩
    rw [rxWhile, if_neg (by omega)]
    rfl
  | stop hle hs =>
    obtain ⟨N, hN⟩ := hs
    refine ⟨N + 1, fun n r hn hr => ?_⟩
    obtain ⟨r, rfl⟩ : ∃ r', r = r' + 1 := ⟨r - 1, by omega⟩
    have hn' := hN n (by omega)
    dsimp only at hn'
    rw [rxWhile, if_pos hle, hn']
    rfl
  | @more off e m ms hle hs _ ih =>
    have hw := found_within ht hs
    obtain ⟨N, hN⟩ := hs
    -- the rest of the loop is wanted only if the body returns
    obtain ⟨M, hM⟩ : ∃ M, ∀ x, body off m b = .ok x → ∀ n r, M ≤ n → M ≤ r →
        rxWhile n tree ng s body r x.1 x.2 = runBody body ms x.1 x.2 := by
      by_cases hx : ∃ x, body off m b = .ok x
      · obtain ⟨x, hx⟩ := hx
        obtain ⟨M, hM⟩ := ih x.2
        refine ⟨M, fun y hy => ?_⟩
        rw [hx] at hy
        cases hy
        rw [hnext off m b x hw hx]
        exact hM
      · exact ⟨0, fun x hb => absurd ⟨x, hb⟩ hx⟩
    refine ⟨max N M + 1, fun n r hn hr => ?_⟩
    obtain ⟨r, rfl⟩ : ∃ r', r = r' + 1 := ⟨r - 1, by omega⟩
    have hn' := hN n (by omega)
    dsimp only at hn'
    rw [rxWhile, if_pos hle, hn', runBody]
    exact Res.bind_congr fun x hx => hM x hx n r (by omega) (by omega)

theorem runBody_ret (ht : tree.Ends False s ng)
    (hnext : ∀ off m b x, Within s ng off m → body off m b = .ok x → x.1 = nextOff m)
    (hret : ∀ off m b, Within s ng off m → ∃ o, body off m b = .ret o)
    (h : Scan tree ng s off ms e) (b : β) : ∃ o, runBody body ms off b = .ret o := by
  induction h generalizing b with
  | past _ => exact ⟨_, rfl⟩
  | stop _ _ => exact ⟨_, rfl⟩
  | @more off e m ms _ hm _ ih =>
    have hin := found_within ht hm
    refine Res.bind_ret (hret off m b hin) fun x hx => ?_
    rw [hnext off m b x hin hx]
    exact ih x.2

end

/-! ## slices -/

theorem slice_ok {a b : Nat} (hab : a ≤ b) (hb : b ≤ s.length) :
    slice s a b = .ok ((s.drop a).take (b - a)) := by
  rw [slice, if_pos ⟨hab, hb⟩]
  rfl

theorem slice_inv {a b : Nat} {t : Bytes} (h : slice s a b = .ok t) :
    a ≤ b ∧ b ≤ s.length ∧ t = (s.drop a).take (b - a) ∧ t.length + a = b := by
  unfold slice at h
  split at h
  · next hab =>
    obtain rfl : (s.drop a).take (b - a) = t := by
      simpa [Res.ok] using h
    refine ⟨hab.1, hab.2, rfl, ?_⟩
    rw [List.length_take, List.length_drop]
    omega
  · cases h

theorem slice_end {a : Nat} (ha : a ≤ s.length) : slice s a s.length = .ok (s.drop a) := by
  rw [slice_ok ha (Nat.le_refl _), List.take_of_length_le]
  exact Nat.le_of_eq List.length_drop

/-! ## the matches on the way -/

/-- the matches that take nothing -/
def Found.isEmpty (m : Found) : Bool := m.me ≤ m.ms

theorem nextOff_eq (h : m.ms ≤ m.me) : nextOff m = m.me + [m].countP Found.isEmpty := by
  unfold nextOff
  split
  · next hlt => simp [Found.isEmpty, Nat.not_le.mpr hlt]
  · next hge =>
    have heq : m.me = m.ms := by omega
    simp [Found.isEmpty, heq]

/-- the offsets that the scan comes to by matches that take something -/
inductive Reached (tree : Rx) (ng : Nat) (s : Bytes) : Nat → Prop
  | start : Reached tree ng s 0
  | next {off : Nat} {m : Found} : Reached tree ng s off → off ≤ s.length →
      Settles (fun n => rxSearch n tree ng s off) (.ret (some m)) → m.ms < m.me →
      Reached tree ng s m.me

/-- the search finds no empty match there -/
def Solid (tree : Rx) (ng : Nat) (s : Bytes) : Prop :=
  ∀ off m, Reached tree ng s off → off ≤ s.length →
    Settles (fun n => rxSearch n tree ng s off) (.ret (some m)) → m.ms < m.me

theorem Solid.all (hs : Solid tree ng s) (h : Scan tree ng s off ms e)
    (hr : Reached tree ng s off) : ∀ m ∈ ms, m.ms < m.me := by
  induction h with
  | past _ => exact fun m hm => absurd hm List.not_mem_nil
  | stop _ _ => exact fun m hm => absurd hm List.not_mem_nil
  | @more off e m ms hle hm _ ih =>
    have hlt := hs off m hr hle hm
    rw [show nextOff m = m.me from if_pos hlt] at ih
    intro m' hm'
    rcases List.mem_cons.mp hm' with rfl | hm'
    · exact hlt
    · exact ih (.next hr hle hm hlt) m' hm'

theorem Reached.scan (h : Scan tree ng s 0 ms e) (hne : ∀ m ∈ ms, m.ms < m.me)
    (hr : Reached tree ng s off) : ∃ ms', Scan tree ng s off ms' e ∧ ∀ m ∈ ms', m.ms < m.me := by
  induction hr with
  | start => exact ⟨ms, h, hne⟩
  | @next off m _ hle hm hlt ih =>
    obtain ⟨ms', hs, hne'⟩ := ih
    cases hs with
    | past hlt => omega
    | stop _ hn => cases hn.unique hm
    | @more _ _ m' ms' _ hm' hrest =>
      cases hm'.unique hm
      rw [show nextOff m = m.me from if_pos hlt] at hrest
      exact ⟨ms', hrest, fun m hm => hne' m (List.mem_cons_of_mem _ hm)⟩

theorem solid_iff (h : Scan tree ng s 0 ms e) : Solid tree ng s ↔ ∀ m ∈ ms, m.ms < m.me := by
  refine ⟨fun hs => hs.all h .start, fun hne off m hr hle hm => ?_⟩
  obtain ⟨ms', hs, hne'⟩ := hr.scan h hne
  cases hs with
  | past hlt => omega
  | stop _ hn => cases hn.unique hm
  | more _ hm' _ =>
    cases hm'.unique hm
    exact hne' m (List.mem_cons_self ..)

theorem countP_empty : ms.countP Found.isEmpty = 0 ↔ ∀ m ∈ ms, m.ms < m.me := by
  simp [List.countP_eq_zero, Found.isEmpty]

variable {pat x : Bytes}

theorem split_ends (hc : rxSplitPattern pat = some (tree, ng)) (hg : ng < 32) :
    tree.Ends False x ng := (split_wf hc).ends (.inl hg)

/-! ## a pattern that matches nothing at all -/

/-- `x*` -/
def starTree : Rx := .seq [.rep (.char 120 false) 0 (-1) false]

theorem star_split : rxSplitPattern [47, 120, 42, 47] = some (starTree, 0) := rfl

/-- on the empty text it has an empty match, behind which the scan goes on -/
theorem star_scan (h : Scan starTree 0 [] 0 ms e) : ¬ ∀ m ∈ ms, m.ms < m.me := by
  intro hne
  cases h with
  | past hlt => cases hlt
  | stop _ hn =>
    have hw : starTree.Wf 0 := split_wf star_split
    have hf : starTree.Fits ([] : Bytes).length := by
      refine .seq fun k hk => ?_
      rw [List.mem_singleton.mp hk]
      exact .rep (by decide) (by decide) (.char ..)
    obtain ⟨N, o, hN, hiff, -⟩ := search_ok (hw.decides (by decide) hf) 0 0
    have hsome := hiff.mpr ⟨0, 0, Nat.le_refl _, Nat.le_refl _, 0,
      ⟨0, by decide, .inl (by decide), rfl⟩, rfl⟩
    cases Settles.unique ⟨N, hN⟩ hn
    cases hsome
  | @more _ _ m ms _ hm _ =>
    have hin := found_within (split_ends star_split (by decide)) hm
    have hlt := hne m (List.mem_cons_self ..)
    have := hin.last
    simp only [List.length_nil] at this
    omega

end

end Regex
end HolyPhp
