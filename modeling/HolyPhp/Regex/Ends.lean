import HolyPhp.Regex.Preg

/-!
# The matcher ends, and within the subject

For every tree that the parser makes, whatever its bounds.

* `Settles x r`     with enough fuel, `x` has the result `r`;
* `RxCtx.Held`      the spans of a context lie in the subject;
* `Outcome F s pos` what a call from `pos` on may come to: `F` says whether it may meet a group
                    that has no place in the captures;
* `Rx.Wf.ends`, `search_ends`  the matcher, and the search.
-/

set_option autoImplicit false

namespace HolyPhp
namespace Regex
open Function

/-! ## results -/

section
variable {α β : Type}

def Settles (x : Nat → α) (r : α) : Prop := ∃ N, ∀ n, N ≤ n → x n = r

theorem Settles.const (r : α) : Settles (fun _ => r) r := ⟨0, fun _ _ => rfl⟩

theorem Settles.unique {x : Nat → α} {r r' : α} (h : Settles x r) (h' : Settles x r') : r = r' := by
  obtain ⟨N, hN⟩ := h
  obtain ⟨M, hM⟩ := h'
  exact (hN (max N M) (Nat.le_max_left ..)).symm.trans (hM (max N M) (Nat.le_max_right ..))

/-- a call takes one unit of fuel -/
theorem Settles.succ {x y : Nat → α} {r : α} (h : Settles x r) (hy : ∀ n, y (n + 1) = x n) :
    Settles y r := by
  obtain ⟨N, hN⟩ := h
  refine ⟨N + 1, fun n hn => ?_⟩
  obtain ⟨m, rfl⟩ : ∃ m, n = m + 1 := ⟨n - 1, by omega⟩
  rw [hy]
  exact hN m (by omega)

theorem Settles.pred {x y : Nat → α} {r : α} (h : Settles y r) (hy : ∀ n, y (n + 1) = x n) :
    Settles x r := by
  obtain ⟨N, hN⟩ := h
  exact ⟨N, fun n hn => (hy n).symm.trans (hN (n + 1) (by omega))⟩

/-- what one call gives decides another -/
theorem Settles.imp {x : Nat → α} {y : Nat → β} {r : α} {t : β} (h : Settles x r)
    (hy : ∀ n, x n = r → y n = t) : Settles y t := by
  obtain ⟨N, hN⟩ := h
  exact ⟨N, fun n hn => hy n (hN n hn)⟩

theorem Settles.imp₂ {γ : Type} {x : Nat → α} {y : Nat → β} {z : Nat → γ} {r : α} {u : β} {t : γ}
    (h : Settles x r) (h' : Settles y u) (hz : ∀ n, x n = r → y n = u → z n = t) : Settles z t := by
  obtain ⟨N, hN⟩ := h
  obtain ⟨M, hM⟩ := h'
  exact ⟨max N M, fun n hn => hz n (hN n (by omega)) (hM n (by omega))⟩

end

/-! ## what a call comes to -/

structure RxCtx.Held (s : Bytes) (ng : Nat) (c : RxCtx) : Prop where
  groups : c.ngroups = ng
  spans : ∀ g, c.capS g ≠ unset → c.capS g ≤ c.capE g ∧ c.capE g ≤ s.length

def Outcome (F : Prop) (s : Bytes) (ng pos : Nat) : Answer → Prop
  | .out => False
  | .fault => F
  | .ret (b, d) => d.Held s ng ∧ (b = true → pos ≤ d.endPos ∧ d.endPos ≤ s.length)

def Ends (F : Prop) (s : Bytes) (ng pos : Nat) (x : Nat → Answer) : Prop :=
  ∃ r, Settles x r ∧ Outcome F s ng pos r

section
variable {F : Prop} {s : Bytes} {ng pos lo : Nat} {x y : Nat → Answer} {c : RxCtx} {k : Cont}

theorem Outcome.mono {r : Answer} {pos' : Nat} (hle : pos ≤ pos') (h : Outcome F s ng pos' r) :
    Outcome F s ng pos r := by
  rcases r with - | - | ⟨b, d⟩
  · exact h
  · exact h
  · exact ⟨h.1, fun hb => ⟨Nat.le_trans hle (h.2 hb).1, (h.2 hb).2⟩⟩

theorem Ends.mono {pos' : Nat} (hle : pos ≤ pos') (h : Ends F s ng pos' x) : Ends F s ng pos x := by
  obtain ⟨r, hr, ho⟩ := h
  exact ⟨r, hr, ho.mono hle⟩

theorem Ends.fail (hc : c.Held s ng) : Ends F s ng pos fun _ => .ret (false, c) :=
  ⟨_, .const _, hc, fun hb => by cases hb⟩

theorem Ends.succ (h : Ends F s ng pos x) (hy : ∀ n, y (n + 1) = x n) : Ends F s ng pos y := by
  obtain ⟨r, hr, ho⟩ := h
  exact ⟨r, hr.succ hy, ho⟩

theorem Ends.pred (h : Ends F s ng pos y) (hy : ∀ n, y (n + 1) = x n) : Ends F s ng pos x := by
  obtain ⟨r, hr, ho⟩ := h
  exact ⟨r, hr.pred hy, ho⟩

theorem Ends.orElse {f : Nat → RxCtx → Answer} (h : Ends F s ng pos x)
    (h' : ∀ d, d.Held s ng → Ends F s ng pos fun n => f n d) :
    Ends F s ng pos fun n => (x n).orElse (f n) := by
  obtain ⟨r, hr, ho⟩ := h
  rcases r with - | - | ⟨b, d⟩
  · exact absurd ho id
  · exact ⟨.fault, hr.imp fun n hn => by rw [hn]; rfl, ho⟩
  · cases b with
    | true => exact ⟨.ret (true, d), hr.imp fun n hn => by rw [hn]; rfl, ho⟩
    | false =>
      obtain ⟨t, ht, ho'⟩ := h' d ho.1
      exact ⟨t, hr.imp₂ ht fun n hn hn' => by rw [hn]; exact hn', ho'⟩

theorem Ends.test {t : Prop} [Decidable t] (hc : c.Held s ng) (h : t → Ends F s ng pos x) :
    Ends F s ng pos fun n => if t then x n else .ret (false, c) := by
  by_cases ht : t
  · simp only [if_pos ht]
    exact h ht
  · simp only [if_neg ht]
    exact .fail hc

/-- the continuation ends, from every place after `lo` -/
def Cont.Ends (F : Prop) (s : Bytes) (ng lo : Nat) (k : Cont) : Prop :=
  ∀ pos, lo ≤ pos → pos ≤ s.length → ∀ c, RxCtx.Held s ng c →
    Regex.Ends F s ng pos fun n => rxK s n k pos c

def Rx.Ends (F : Prop) (s : Bytes) (ng : Nat) (x : Rx) : Prop :=
  ∀ k pos, Cont.Ends F s ng pos k → pos ≤ s.length → ∀ c, RxCtx.Held s ng c →
    Regex.Ends F s ng pos fun n => rxM s n x pos c k

theorem Cont.Ends.mono {lo' : Nat} (h : k.Ends F s ng lo) (hle : lo ≤ lo') : k.Ends F s ng lo' :=
  fun pos hpos => h pos (Nat.le_trans hle hpos)

theorem done_ends : Cont.done.Ends F s ng lo := by
  intro pos _ hlen c hc
  refine ⟨.ret (true, { c with endPos := pos }), ⟨1, fun n hn => ?_⟩, ⟨hc.1, hc.2⟩,
    fun _ => ⟨Nat.le_refl _, hlen⟩⟩
  obtain ⟨m, rfl⟩ : ∃ m, n = m + 1 := ⟨n - 1, by omega⟩
  show rxK s (m + 1) .done pos c = _
  rw [rxK]

/-! ## nodes -/

/-- the nodes that take one character -/
theorem one_ends {t : Rx} {f : UInt8 → Bool} (hx : ∀ n pos c k, rxM s (n + 1) t pos c k =
    if (s[pos]?).any f then rxK s n k (pos + 1) c else .ret (false, c)) : t.Ends F s ng := by
  intro k pos hk hpos c hc
  refine .succ (.test hc fun ht => ?_) fun n => hx n pos c k
  have hlt : pos < s.length := by
    rw [Option.any_eq_true] at ht
    obtain ⟨b, hb, -⟩ := ht
    exact (List.getElem?_eq_some_iff.mp hb).1
  exact (hk (pos + 1) (Nat.le_succ _) hlt c hc).mono (Nat.le_succ _)

/-- the nodes that look at their place only -/
theorem here_ends {t : Rx} {f : Nat → Bool} (hx : ∀ n pos c k, rxM s (n + 1) t pos c k =
    if f pos then rxK s n k pos c else .ret (false, c)) : t.Ends F s ng := by
  intro k pos hk hpos c hc
  exact .succ (.test hc fun _ => hk pos (Nat.le_refl _) hpos c hc) fun n => hx n pos c k

/-- the items from `idx` on; the induction is on their number -/
theorem mseq_ends {t : Rx} (hkids : ∀ kid ∈ t.kids, kid.Ends F s ng) (r idx : Nat)
    (hr : t.kids.length ≤ idx + r) (hk : k.Ends F s ng pos) (hpos : pos ≤ s.length)
    (hc : c.Held s ng) : Ends F s ng pos fun n => rxMSeq s n t idx pos c k := by
  induction r generalizing idx pos c with
  | zero =>
    have hnone : t.kids[idx]? = none := List.getElem?_eq_none hr
    exact .succ (hk pos (Nat.le_refl _) hpos c hc) fun n => by rw [rxMSeq, hnone]
  | succ r ih =>
    by_cases hlt : idx < t.kids.length
    · have hsome : t.kids[idx]? = some t.kids[idx] := List.getElem?_eq_getElem hlt
      have hnext : (Cont.seq t (idx + 1) k).Ends F s ng pos := fun p hp hp' d hd =>
        .succ (ih (idx + 1) (by omega) (hk.mono hp) hp' hd) fun n => by rw [rxK]
      exact .succ (hkids _ (List.getElem_mem hlt) _ pos hnext hpos c hc) fun n => by
        rw [rxMSeq, hsome]
    · have hnone : t.kids[idx]? = none := List.getElem?_eq_none (Nat.le_of_not_lt hlt)
      exact .succ (hk pos (Nat.le_refl _) hpos c hc) fun n => by rw [rxMSeq, hnone]

theorem seq_ends {ks : List Rx} (h : ∀ kid ∈ ks, kid.Ends F s ng) : (Rx.seq ks).Ends F s ng := by
  intro k pos hk hpos c hc
  exact .succ (mseq_ends (t := .seq ks) h ks.length 0 (Nat.le_add_left ..) hk hpos hc) fun n => by
    rw [rxM]

theorem malt_ends {ks : List Rx} (hseq : ∀ kid ∈ ks, ∃ items, kid = .seq items)
    (h : ∀ kid ∈ ks, kid.Ends F s ng) (hk : k.Ends F s ng pos) (hpos : pos ≤ s.length)
    (hc : c.Held s ng) : Ends F s ng pos fun n => rxMAlt s n ks pos c k := by
  induction ks generalizing c with
  | nil => exact .succ (.fail hc) fun n => by rw [rxMAlt]
  | cons kid ks ih =>
    have hkid := h kid (List.mem_cons_self ..) k pos hk hpos c hc
    obtain ⟨items, rfl⟩ := hseq kid (List.mem_cons_self ..)
    have hrest := fun d (hd : RxCtx.Held s ng d) =>
      ih (fun k hk => hseq k (List.mem_cons_of_mem _ hk))
        (fun k hk => h k (List.mem_cons_of_mem _ hk)) hd
    exact .succ (.orElse (hkid.pred fun n => by rw [rxM]) hrest) fun n => by rw [rxMAlt]

theorem alt_ends {ks : List Rx} (hseq : ∀ kid ∈ ks, ∃ items, kid = .seq items)
    (h : ∀ kid ∈ ks, kid.Ends F s ng) : (Rx.alt ks).Ends F s ng := by
  intro k pos hk hpos c hc
  exact .succ (malt_ends hseq h hk hpos hc) fun n => by rw [rxM]

/-- a group is written when it ends, and put back when what follows fails -/
theorem grp_ends {gidx start : Nat} (hg : gidx < 32 ∨ F) (hk : k.Ends F s ng start) :
    (Cont.grp gidx start k).Ends F s ng start := by
  intro pos hlo hpos c hc
  by_cases hlt : gidx < 32
  · have hc' : RxCtx.Held s ng
        { c with capS := update c.capS gidx start, capE := update c.capE gidx pos } := by
      refine ⟨hc.1, fun g hne => ?_⟩
      rcases eq_or_ne g gidx with rfl | hg
      · dsimp only
        rw [update_self, update_self]
        exact ⟨hlo, hpos⟩
      · dsimp only at hne ⊢
        rw [update_of_ne hg] at hne
        rw [update_of_ne hg, update_of_ne hg]
        exact hc.2 g hne
    refine .succ (.orElse (hk pos hlo hpos _ hc') fun d hd => .fail ?_) fun n => by
      rw [rxK, if_pos hlt]
    refine ⟨hd.1, fun g hne => ?_⟩
    rcases eq_or_ne g gidx with rfl | hg
    · dsimp only at hne ⊢
      rw [update_self] at hne
      rw [update_self, update_self]
      exact hc.2 g hne
    · dsimp only at hne ⊢
      rw [update_of_ne hg] at hne
      rw [update_of_ne hg, update_of_ne hg]
      exact hd.2 g hne
  · have hf : F := hg.resolve_left hlt
    refine ⟨.fault, ⟨1, fun n hn => ?_⟩, hf⟩
    obtain ⟨m, rfl⟩ : ∃ m, n = m + 1 := ⟨n - 1, by omega⟩
    show rxK s (m + 1) (.grp gidx start k) pos c = _
    rw [rxK, if_neg hlt]

theorem group_ends {ks : List Rx} {gidx : Nat} (hg : gidx < 32 ∨ F) (h : (Rx.seq ks).Ends F s ng) :
    (Rx.group (.seq ks) gidx).Ends F s ng := by
  intro k pos hk hpos c hc
  have hnext : (if gidx = 0 then k else .grp gidx pos k).Ends F s ng pos := by
    split
    · exact hk
    · exact grp_ends hg hk
  have hseq := (h _ pos hnext hpos c hc).pred fun n => by rw [rxM]
  exact .succ hseq fun n => by rw [rxM]

theorem iterCap_lt (len : Nat) (rmin : Int) : iterCap len rmin < 2 ^ 31 := by
  have h : iterCap len rmin < (((2 ^ 32 : Nat) : Int) + 1) / 2 := Int.bmod_lt (by decide)
  omega

/-- the induction is on the rounds that an `int` can count -/
theorem mrep_ends {child : Rx} {rmin rmax : Int} {lz : Bool} (hchild : child.Ends F s ng)
    (r count : Nat) (hr : 2 ^ 31 ≤ count + r) (hk : k.Ends F s ng pos) (hpos : pos ≤ s.length)
    (hc : c.Held s ng) :
    Ends F s ng pos fun n => rxMRepAt s n child rmin rmax lz count pos c k := by
  induction r generalizing count pos c with
  | zero =>
    have hcap := iterCap_lt s.length rmin
    have hno : ¬ (canMore rmax count = true ∧ (count : Int) < iterCap s.length rmin) := by
      intro h
      have := h.2
      omega
    have hstop := fun d (hd : RxCtx.Held s ng d) => Ends.test (t := rmin ≤ count) hd
      fun _ => hk pos (Nat.le_refl _) hpos d hd
    have hmore : ∀ d, RxCtx.Held s ng d → Ends F s ng pos fun _ => .ret (false, d) :=
      fun d hd => .fail hd
    cases lz with
    | true =>
      exact .succ (.orElse (hstop c hc) hmore) fun n => by simp only [rxMRepAt, if_neg hno]; rfl
    | false =>
      exact .succ (.orElse (hmore c hc) hstop) fun n => by simp only [rxMRepAt, if_neg hno]; rfl
  | succ r ih =>
    have hnext : (Cont.rep child rmin rmax lz (count + 1) k).Ends F s ng pos := fun p hp hp' d hd =>
      .succ (ih (count + 1) (by omega) (hk.mono hp) hp' hd) fun n => by rw [rxK]
    have hstop := fun d (hd : RxCtx.Held s ng d) => Ends.test (t := rmin ≤ count) hd
      fun _ => hk pos (Nat.le_refl _) hpos d hd
    have hmore := fun d (hd : RxCtx.Held s ng d) =>
      Ends.test (t := canMore rmax count ∧ (count : Int) < iterCap s.length rmin) hd
        fun _ => hchild _ pos hnext hpos d hd
    cases lz with
    | true => exact .succ (.orElse (hstop c hc) hmore) fun n => by rw [rxMRepAt]; rfl
    | false => exact .succ (.orElse (hmore c hc) hstop) fun n => by rw [rxMRepAt]; rfl

theorem rep_ends {child : Rx} {rmin rmax : Int} {lz : Bool} (hchild : child.Ends F s ng) :
    (Rx.rep child rmin rmax lz).Ends F s ng := by
  intro k pos hk hpos c hc
  exact .succ (mrep_ends hchild (2 ^ 31) 0 (by omega) hk hpos hc) fun n => by rw [rxM]

/-- **The matcher ends**, in the subject. -/
theorem Rx.Wf.ends {t : Rx} {g : Nat} (hw : t.Wf g) (hF : g < 32 ∨ F) : t.Ends F s ng := by
  induction hw with
  | char ch ci => exact one_ends fun n pos c k => by rw [rxM]
  | any dotall => exact one_ends fun n pos c k => by rw [rxM]
  | cls set neg => exact one_ends fun n pos c k => by rw [rxM]
  | bol m => exact here_ends fun n pos c k => by rw [rxM]
  | eol m => exact here_ends fun n pos c k => by rw [rxM]
  | bow => exact here_ends fun n pos c k => by rw [rxM]
  | seq _ ih => exact seq_ends ih
  | alt hseq _ ih => exact alt_ends hseq ih
  | rep _ _ ih => exact rep_ends ih
  | group hgidx _ ih => exact group_ends (hF.imp_left (Nat.lt_of_le_of_lt hgidx)) ih

/-! ## the search -/

/-- a match after `off`, in the subject -/
structure Within (s : Bytes) (ng off : Nat) (m : Found) : Prop where
  after : off ≤ m.ms
  span : m.ms ≤ m.me
  last : m.me ≤ s.length
  held : m.ctx.Held s ng

def Located (F : Prop) (s : Bytes) (ng off : Nat) : Call (Option Found) → Prop
  | .out => False
  | .fault => F
  | .ret o => ∀ m, o = some m → Within s ng off m

variable {tree : Rx} {off : Nat}

theorem run_ends (ht : tree.Ends F s ng) (hoff : off ≤ s.length) :
    ∃ r, Settles (fun n => rxRun n tree ng s off) r ∧ Located F s ng off r := by
  obtain ⟨r, hr, ho⟩ := ht .done off done_ends hoff ⟨fun _ => unset, fun _ => unset, ng, 0⟩
    ⟨rfl, fun g hne => absurd rfl hne⟩
  rcases r with - | - | ⟨b, d⟩
  · exact absurd ho id
  · exact ⟨.fault, hr.imp fun n hn => by rw [rxRun, hn], ho⟩
  · obtain ⟨hd, hin⟩ := ho
    cases b with
    | true =>
      refine ⟨.ret (some ⟨off, d.endPos, d⟩), hr.imp fun n hn => by rw [rxRun, hn], fun m hm => ?_⟩
      cases hm
      exact ⟨Nat.le_refl _, (hin rfl).1, (hin rfl).2, hd⟩
    | false => exact ⟨.ret none, hr.imp fun n hn => by rw [rxRun, hn], fun m hm => by cases hm⟩

theorem searchFrom_ends (ht : tree.Ends F s ng) (r off : Nat)
    (hr : off + r ≤ s.length + 1 ∨ r = 0) :
    ∃ o, Settles (fun n => rxSearchFrom n tree ng s r off) o ∧ Located F s ng off o := by
  induction r generalizing off with
  | zero => exact ⟨.ret none, .const _, fun m hm => by cases hm⟩
  | succ r ih =>
    obtain ⟨o, ho, hl⟩ : ∃ o, Settles (fun n => rxRun n tree ng s off) o ∧
        Located F s ng off o := run_ends ht (by omega)
    rcases o with - | - | o
    · exact absurd hl id
    · exact ⟨.fault, ho.imp fun n hn => by rw [rxSearchFrom, hn], hl⟩
    · cases o with
      | some m => exact ⟨.ret (some m), ho.imp fun n hn => by rw [rxSearchFrom, hn], hl⟩
      | none =>
        obtain ⟨t, ht', hl'⟩ := ih (off + 1) (by omega)
        refine ⟨t, ho.imp₂ ht' fun n hn hn' => by rw [rxSearchFrom, hn]; exact hn', ?_⟩
        rcases t with - | - | t
        · exact hl'
        · exact hl'
        · intro m hm
          obtain ⟨h1, h2, h3, h4⟩ := hl' m hm
          exact ⟨by omega, h2, h3, h4⟩

/-- **The search ends**, and what it finds lies in the subject. -/
theorem search_ends (ht : tree.Ends F s ng) (off : Nat) :
    ∃ o, Settles (fun n => rxSearch n tree ng s off) o ∧ Located F s ng off o :=
  searchFrom_ends ht (s.length + 1 - off) off (by omega)

/-- what `rx_split_pattern` accepts is well formed -/
theorem split_wf {pat : Bytes} (h : rxSplitPattern pat = some (tree, ng)) : tree.Wf ng := by
  unfold rxSplitPattern rxCompile at h
  split at h
  · next t rp hp =>
    split at h
    · cases h
      exact parseAlt_wf hp
    · cases h
  · cases h

end

end Regex
end HolyPhp
