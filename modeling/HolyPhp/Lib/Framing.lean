import Mathlib.Data.List.Basic
import Mathlib.Tactic.NormNum

/-!
# Streams in fragments, and frames in a stream

A reader that asks for `n` elements at most gets the front of the first fragment that is not empty.

* `next`, `readLoop`   one read, and the loop of reads for a number of elements;
* `value`, `digits`    numbers to the base 256, the low digit first;
* `cut`                the payloads in a stream: a header, the payload whose length it gives, and
                       so on.

**`readLoop_eq`**: what a loop of reads gives depends on the stream only, not on its fragments.
-/

set_option autoImplicit false
set_option linter.unusedVariables false

namespace Framing
variable {α : Type}

/-! ## fragments -/

/-- at most `k` elements, and what is left -/
def next (k : Nat) : List (List α) → List α × List (List α)
  | [] => ([], [])
  | [] :: fs => next k fs
  | (x :: f) :: fs => ((x :: f).take k, (x :: f).drop k :: fs)

/-- `n` elements, `cap` at a time; fewer where the fragments end -/
def readLoop (cap n : Nat) (fs : List (List α)) : List α × List (List α) :=
  if hn : n = 0 then ([], fs)
  else
    let r := next (min n cap) fs
    if hr : r.1.length = 0 then ([], r.2)
    else
      let s := readLoop cap (n - r.1.length) r.2
      (r.1 ++ s.1, s.2)
termination_by n
decreasing_by exact Nat.sub_lt (Nat.pos_of_ne_zero hn) (Nat.pos_of_ne_zero hr)

section
variable {k cap n : Nat} {fs : List (List α)}

theorem next_flatten (k : Nat) (fs : List (List α)) :
    (next k fs).1 ++ (next k fs).2.flatten = fs.flatten := by
  induction fs with
  | nil => rfl
  | cons f fs ih =>
    cases f with
    | nil => exact ih
    | cons x f =>
      show (x :: f).take k ++ ((x :: f).drop k ++ fs.flatten) = _
      rw [← List.append_assoc, List.take_append_drop]
      rfl

theorem next_length (k : Nat) (fs : List (List α)) : (next k fs).1.length ≤ k := by
  induction fs with
  | nil => exact Nat.zero_le k
  | cons f fs ih =>
    cases f with
    | nil => exact ih
    | cons x f => exact List.length_take_le k (x :: f)

/-- nothing comes only where nothing is left -/
theorem next_nil (hk : 0 < k) (h : (next k fs).1.length = 0) : fs.flatten = [] := by
  induction fs with
  | nil => rfl
  | cons f fs ih =>
    cases f with
    | nil => exact ih h
    | cons x f =>
      have hlen : (min k (x :: f).length) = 0 := (List.length_take).symm.trans h
      rw [List.length_cons] at hlen
      omega

/-- **The loop of reads**, on the stream. -/
theorem readLoop_eq (hcap : 0 < cap) (n : Nat) (fs : List (List α)) :
    (readLoop cap n fs).1 = fs.flatten.take n ∧
      (readLoop cap n fs).2.flatten = fs.flatten.drop n := by
  induction n using Nat.strongRecOn generalizing fs with
  | ind n ih =>
    rw [readLoop]
    split
    · next h =>
      subst h
      exact ⟨rfl, rfl⟩
    · next h =>
      have hflat := next_flatten (min n cap) fs
      have hle := next_length (min n cap) fs
      dsimp only
      split
      · next h0 =>
        have hnil := next_nil (by omega) h0
        rw [List.eq_nil_of_length_eq_zero h0, hnil, List.nil_append] at hflat
        rw [hnil, hflat]
        simp
      · next h0 =>
        obtain ⟨h1, h2⟩ :=
          ih (n - (next (min n cap) fs).1.length) (by omega) (next (min n cap) fs).2
        rw [h1, h2, ← hflat, List.take_append, List.drop_append,
          List.take_of_length_le (show _ ≤ n by omega),
          List.drop_of_length_le (show _ ≤ n by omega), List.nil_append]
        exact ⟨rfl, rfl⟩

end

/-! ## numbers -/

/-- the number that `n` bytes are, the low one first -/
def value (n : Nat) (s : List UInt8) : Nat :=
  (List.range n).foldl (fun v i => v + (s.getD i 0).toNat * 256 ^ i) 0

def digits (n v : Nat) : List UInt8 := (List.range n).map fun i => UInt8.ofNat (v / 256 ^ i)

section
variable {n m v : Nat} {s t : List UInt8}

theorem value_succ (n : Nat) (s : List UInt8) :
    value (n + 1) s = value n s + (s.getD n 0).toNat * 256 ^ n := by
  rw [value, List.range_succ, List.foldl_append]
  rfl

theorem value_lt (n : Nat) (s : List UInt8) : value n s < 256 ^ n := by
  induction n with
  | zero => exact Nat.one_pos
  | succ n ih =>
    have hc : (s.getD n 0).toNat * 256 ^ n ≤ 255 * 256 ^ n :=
      Nat.mul_le_mul_right _ (Nat.le_of_lt_succ (UInt8.toNat_lt _))
    rw [value_succ, Nat.pow_succ]
    omega

@[simp] theorem length_digits (n v : Nat) : (digits n v).length = n := by simp [digits]

theorem getD_digits (h : m < n) (s : List UInt8) :
    (digits n v ++ s).getD m 0 = UInt8.ofNat (v / 256 ^ m) := by
  have hlen : m < (digits n v).length := by rwa [length_digits]
  rw [List.getD_eq_getElem?_getD, List.getElem?_append_left hlen]
  simp [digits, h]

/-- **The digits** of a number are read back, up to what `n` digits hold. -/
theorem value_digits (n v : Nat) (s : List UInt8) : value n (digits n v ++ s) = v % 256 ^ n := by
  have hall : ∀ m ≤ n, value m (digits n v ++ s) = v % 256 ^ m := by
    intro m
    induction m with
    | zero =>
      intro _
      rw [Nat.pow_zero, Nat.mod_one]
      rfl
    | succ m ih =>
      intro hm
      have hbyte : (UInt8.ofNat (v / 256 ^ m)).toNat = v / 256 ^ m % 256 := rfl
      rw [value_succ, ih (by omega), getD_digits hm, hbyte, Nat.pow_succ, Nat.mod_mul,
        Nat.mul_comm (256 ^ m)]
  exact hall n (Nat.le_refl n)

theorem value_digits_lt (h : v < 256 ^ n) (s : List UInt8) : value n (digits n v ++ s) = v := by
  rw [value_digits, Nat.mod_eq_of_lt h]

end

/-! ## frames -/

section
variable (hl : Nat) (len : List α → Nat)

/-- the payloads that are there as a whole, with headers of `hl` elements, and what is behind -/
def cut (s : List α) : List (List α) × List α :=
  if h : 0 < hl ∧ hl ≤ s.length ∧ hl + len (s.take hl) ≤ s.length then
    let n := len (s.take hl)
    let r := cut (s.drop (hl + n))
    ((s.drop hl).take n :: r.1, r.2)
  else ([], s)
termination_by s.length
decreasing_by
  rw [List.length_drop]
  omega

variable {hl len}
variable {hd p s : List α}

theorem cut_frame (hpos : 0 < hl) (hlen : hd.length = hl) (hp : len hd = p.length) (s : List α) :
    cut hl len (hd ++ p ++ s) = (p :: (cut hl len s).1, (cut hl len s).2) := by
  have htake : (hd ++ p ++ s).take hl = hd := by
    rw [List.append_assoc, ← hlen, List.take_left]
  have hdrop : (hd ++ p ++ s).drop hl = p ++ s := by
    rw [List.append_assoc, ← hlen, List.drop_left]
  have hrest : (hd ++ p ++ s).drop (hl + p.length) = s := by
    rw [← List.drop_drop, hdrop, List.drop_left]
  have hcond : 0 < hl ∧ hl ≤ (hd ++ p ++ s).length ∧
      hl + len ((hd ++ p ++ s).take hl) ≤ (hd ++ p ++ s).length := by
    rw [htake, hp, List.length_append, List.length_append]
    omega
  rw [cut, dif_pos hcond]
  dsimp only
  rw [htake, hp, hrest, hdrop, List.take_left]

/-- no header, or not the whole payload -/
theorem cut_part (h : ¬ (hl ≤ s.length ∧ hl + len (s.take hl) ≤ s.length)) :
    cut hl len s = ([], s) := by
  rw [cut, dif_neg fun h' => h h'.2]

theorem cut_cons {ps : List (List α)} {r : List α} (h : cut hl len s = (p :: ps, r)) :
    ∃ hd t, s = hd ++ p ++ t ∧ hd.length = hl ∧ len hd = p.length ∧ cut hl len t = (ps, r) := by
  rw [cut] at h
  split at h
  · next hc =>
    obtain ⟨hpos, h1, h2⟩ := hc
    dsimp only at h
    obtain ⟨hp, hrest⟩ := Prod.mk.inj h
    obtain ⟨rfl, hps⟩ := List.cons.inj hp
    refine ⟨s.take hl, s.drop (hl + len (s.take hl)), ?_, ?_, ?_, Prod.ext hps hrest⟩
    · rw [List.append_assoc, ← List.drop_drop, List.take_append_drop, List.take_append_drop]
    · rw [List.length_take]
      omega
    · rw [List.length_take, List.length_drop]
      omega
  · cases h

theorem cut_nil {r : List α} (hpos : 0 < hl) (h : cut hl len s = ([], r)) :
    s = r ∧ ¬ (hl ≤ s.length ∧ hl + len (s.take hl) ≤ s.length) := by
  rw [cut] at h
  split at h
  · cases h
  · next hc => exact ⟨(Prod.mk.inj h).2, fun h' => hc ⟨hpos, h'⟩⟩

/-- a payload is as long as a header says -/
theorem cut_length {n : Nat} (hn : ∀ hd, len hd < n) (s : List α) :
    ∀ p ∈ (cut hl len s).1, p.length < n := by
  induction h : (cut hl len s).1 generalizing s with
  | nil =>
    intro p hp
    cases hp
  | cons p ps ih =>
    obtain ⟨hd, t, -, -, hlen, ht⟩ := cut_cons (Prod.ext h rfl : cut hl len s = (p :: ps, _))
    intro q hq
    rcases List.mem_cons.mp hq with rfl | hq
    · rw [← hlen]
      exact hn hd
    · exact ih t (congrArg Prod.fst ht) q hq

end

end Framing
