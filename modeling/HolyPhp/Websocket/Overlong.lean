import HolyPhp.Websocket.Delivery

/-!
# Lengths of 64 bits

`ws_decode` adds a length of eight bytes up in an `int64_t`.

* `longLen`, `headEnd`  the length as it was sent, and where the header ends;
* `Overlong`            the sum of both is one that an `int64_t` does not hold, and comes out below 2;
* `consumed_iff`        what a frame takes away is from 2 to all of the buffer, unless it is overlong;
* `pump_ends`           **the loop of `pumpFrames` ends when no frame that it meets is overlong**.
-/

set_option autoImplicit false
set_option linter.unusedVariables false

namespace HolyPhp
namespace Websocket
open Assoc Substr HolyPhp.Std

/-- the eight bytes behind the first two -/
def longLen (buf : Bytes) : Nat := ((buf.drop 2).take 8).foldl (fun n b => n * 256 + b.toNat) 0

/-- where a header with a long length ends -/
def headEnd (buf : Bytes) : Nat := if ordAt buf 1 &&& 128 ≠ 0 then 14 else 10

/-- the header of a frame with a long length is there, and frame and header are 2^63 bytes or more
that wrap around to less than 2 -/
structure Overlong (buf : Bytes) : Prop where
  long : ordAt buf 1 &&& 127 = 127
  here : headEnd buf ≤ buf.length
  low : 2 ^ 63 ≤ headEnd buf + longLen buf
  high : headEnd buf + longLen buf < 2 ^ 64 + 2

/-! ## the length in 64 bits -/

theorem fold_lt (l : Bytes) : l.foldl (fun n b => n * 256 + b.toNat) 0 < 256 ^ l.length := by
  induction l using List.reverseRecOn with
  | nil => exact Nat.one_pos
  | append_singleton l b ih =>
    have hb := b.toNat_lt
    rw [List.foldl_append, List.foldl_cons, List.foldl_nil, List.length_append,
      List.length_singleton, Nat.pow_succ]
    omega

theorem longLen_lt (buf : Bytes) : longLen buf < 2 ^ 64 := by
  have hlen : ((buf.drop 2).take 8).length ≤ 8 := by
    rw [List.length_take]
    exact Nat.min_le_left _ _
  have hpow : 256 ^ ((buf.drop 2).take 8).length ≤ 256 ^ 8 :=
    Nat.pow_le_pow_right (Nat.zero_lt_succ 255) hlen
  have hlt : longLen buf < 256 ^ ((buf.drop 2).take 8).length := fold_lt _
  have he : 256 ^ 8 = 2 ^ 64 := by decide
  omega

theorem wrap64_step (x y : Int) :
    wrap64 (wrap64 (wrap64 x * 256) + y) = wrap64 (x * 256 + y) := by
  unfold wrap64
  rw [Int.bmod_add_bmod, Int.add_bmod_eq_add_bmod_right y Int.bmod_mul_bmod]

/-- the loop wraps at every step; once at the end would do -/
theorem fold_wrap (l : Bytes) : l.foldl (fun len b => wrap64 (wrap64 (len * 256) + b.toNat)) 0 =
    wrap64 (l.foldl (fun n b => n * 256 + b.toNat) 0 : Nat) := by
  induction l using List.reverseRecOn with
  | nil => rw [List.foldl_nil, List.foldl_nil, Nat.cast_zero, wrap64, Int.zero_bmod]
  | append_singleton l b ih =>
    rw [List.foldl_append, List.foldl_append, ih, List.foldl_cons, List.foldl_nil,
      List.foldl_cons, List.foldl_nil, wrap64_step, Int.natCast_add, Int.natCast_mul,
      Nat.cast_ofNat]

theorem wrap64_cases {x : Int} (h0 : 0 ≤ x) (h : x < 2 ^ 65) :
    (wrap64 x = x ∧ x < 2 ^ 63) ∨
      (wrap64 x = x - 2 ^ 64 ∧ 2 ^ 63 ≤ x ∧ x < 2 ^ 64 + 2 ^ 63) ∨ 2 ^ 64 + 2 ^ 63 ≤ x := by
  unfold wrap64
  rcases Int.lt_or_le x (2 ^ 63) with h1 | h1
  · exact .inl ⟨Int.bmod_eq_of_le (by omega) (by omega), h1⟩
  · rcases Int.lt_or_le x (2 ^ 64 + 2 ^ 63) with h2 | h2
    · have hs : x.bmod (2 ^ 64) = (x - 2 ^ 64).bmod (2 ^ 64) :=
        (Int.sub_bmod_right x (2 ^ 64)).symm
      rw [hs]
      exact .inr (.inl ⟨Int.bmod_eq_of_le (by omega) (by omega), h1, h2⟩)
    · exact .inr (.inr h2)

/-! ## what a frame takes away -/

/-- a short length is not negative, a long one is as the loop has it -/
theorem wsLen_some {buf : Bytes} (h2 : 2 ≤ buf.length) {l : Int × Nat} (h : wsLen buf = some l) :
    (ordAt buf 1 &&& 127 ≠ 127 ∧ 0 ≤ l.1 ∧ l.1 < 65536 ∧ 2 ≤ l.2 ∧ l.2 ≤ 4) ∨
      (ordAt buf 1 &&& 127 = 127 ∧ 10 ≤ buf.length ∧ l = (wrap64 (longLen buf), 10)) := by
  have h7 : ordAt buf 1 &&& 127 < 128 := Nat.lt_of_le_of_lt Nat.and_le_right (by decide)
  have hb : ∀ i, ordAt buf i < 256 := fun i => (buf.getD i 0).toNat_lt
  simp only [wsLen] at h
  split at h
  · next h126 =>
    split at h
    · cases h
    · cases h
      have hor : ordAt buf 2 <<< 8 ||| ordAt buf 3 < 2 ^ 16 := by
        apply Nat.or_lt_two_pow
        · have h := hb 2
          rw [Nat.shiftLeft_eq]
          omega
        · exact Nat.lt_trans (hb 3) (by decide)
      exact .inl ⟨by omega, Int.natCast_nonneg _, Int.ofNat_lt.2 hor,
        show 2 ≤ 4 by decide, show 4 ≤ 4 by decide⟩
  · split at h
    · next h127 =>
      split at h
      · cases h
      · next hn =>
        cases h
        rw [fold_wrap]
        exact .inr ⟨h127, by omega, rfl⟩
    · next h127 =>
      cases h
      have hlt : ordAt buf 1 &&& 127 < 65536 := by omega
      exact .inl ⟨h127, Int.natCast_nonneg _, Int.ofNat_lt.2 hlt,
        show 2 ≤ 2 by decide, show 2 ≤ 4 by decide⟩

/-- the mask takes four bytes -/
theorem wsMask_some {buf : Bytes} {off : Nat} {m : Bytes × Nat}
    (h : wsMask buf (decide (ordAt buf 1 &&& 128 ≠ 0)) off = some m) :
    m.2 + 10 = off + headEnd buf ∧ (off ≤ buf.length → m.2 ≤ buf.length) := by
  unfold wsMask at h
  unfold headEnd
  by_cases hm : ordAt buf 1 &&& 128 ≠ 0
  · rw [if_pos (decide_eq_true hm)] at h
    rw [if_pos hm]
    split at h
    · cases h
    · cases h
      exact ⟨by show off + 4 + 10 = _; omega, fun _ => by show off + 4 ≤ _; omega⟩
  · rw [if_neg (by rwa [decide_eq_true_eq])] at h
    rw [if_neg hm]
    cases h
    exact ⟨rfl, id⟩

/-- where the frame stops, and what that has to be -/
theorem wsDecode_stop {buf : Bytes} {d : Decoded} (h : wsDecode buf = some d) :
    2 ≤ buf.length ∧ d.consumed ≤ buf.length ∧
      ((ordAt buf 1 &&& 127 ≠ 127 ∧ 2 ≤ d.consumed) ∨
        (ordAt buf 1 &&& 127 = 127 ∧ headEnd buf ≤ buf.length ∧
          d.consumed = wrap64 (headEnd buf + wrap64 (longLen buf)))) := by
  unfold wsDecode at h
  by_cases h2 : buf.length < 2
  · rw [if_pos h2] at h
    cases h
  rw [if_neg h2] at h
  obtain ⟨l, hl, h⟩ := Option.bind_eq_some_iff.1 h
  obtain ⟨m, hm, h⟩ := Option.bind_eq_some_iff.1 h
  obtain ⟨hend, hle⟩ := wsMask_some hm
  have he : headEnd buf ≤ 14 := by
    unfold headEnd
    split <;> decide
  simp only at h
  split at h
  · cases h
  · next hs =>
    cases h
    refine ⟨by omega, Int.not_lt.1 hs, ?_⟩
    rcases wsLen_some (Nat.le_of_not_lt h2) hl with ⟨h7, h0, hlt, hoff, hoff'⟩ | ⟨h7, h10, rfl⟩
    · left
      refine ⟨h7, ?_⟩
      show 2 ≤ wrap64 (m.2 + l.1)
      rw [wrap64_of_lt (by omega) (by omega)]
      have h10 : 10 ≤ headEnd buf := by
        unfold headEnd
        split <;> decide
      omega
    · right
      have hm2 : m.2 = headEnd buf := by
        have : m.2 + 10 = 10 + headEnd buf := hend
        omega
      refine ⟨h7, ?_, ?_⟩
      · rw [← hm2]
        exact hle h10
      · rw [← hm2]

/-- a frame whose header is there -/
theorem wsDecode_of {buf m : Bytes} {x : Int} {off a : Nat} (h2 : ¬ buf.length < 2)
    (hl : wsLen buf = some (x, off))
    (hm : wsMask buf (decide (ordAt buf 1 &&& 128 ≠ 0)) off = some (m, a))
    (hs : ¬ (buf.length : Int) < wrap64 (a + x)) :
    ∃ d, wsDecode buf = some d ∧ d.consumed = wrap64 (a + x) := by
  unfold wsDecode
  rw [if_neg h2, hl, Option.bind_some, hm, Option.bind_some, if_neg hs]
  exact ⟨_, rfl, rfl⟩

/-- a frame with a long length, whose header is there -/
theorem wsDecode_long {buf : Bytes} (h7 : ordAt buf 1 &&& 127 = 127)
    (hh : headEnd buf ≤ buf.length) (hs : wrap64 (headEnd buf + wrap64 (longLen buf)) ≤ buf.length) :
    ∃ d, wsDecode buf = some d ∧ d.consumed = wrap64 (headEnd buf + wrap64 (longLen buf)) := by
  have h10 : 10 ≤ headEnd buf := by
    unfold headEnd
    split <;> decide
  have hl : wsLen buf = some (wrap64 (longLen buf), 10) := by
    simp only [wsLen]
    rw [h7, if_neg (by decide), if_pos rfl, if_neg (by omega), fold_wrap]
    rfl
  have hm : ∃ m, wsMask buf (decide (ordAt buf 1 &&& 128 ≠ 0)) 10 = some (m, headEnd buf) := by
    unfold headEnd at hh ⊢
    unfold wsMask
    by_cases hk : ordAt buf 1 &&& 128 ≠ 0
    · rw [if_pos hk] at hh ⊢
      rw [if_pos (decide_eq_true hk), if_neg (by omega)]
      exact ⟨_, rfl⟩
    · rw [if_neg hk, if_neg (by rwa [decide_eq_true_eq])]
      exact ⟨_, rfl⟩
  obtain ⟨m, hm⟩ := hm
  exact wsDecode_of (by omega) hl hm (Int.not_lt.2 hs)

/-- **What a frame takes away.** -/
theorem consumed_iff (buf : Bytes) :
    (∀ d, wsDecode buf = some d → 2 ≤ d.consumed ∧ d.consumed ≤ buf.length) ↔ ¬ Overlong buf := by
  have hlen := longLen_lt buf
  have h14 : headEnd buf ≤ 14 ∧ 10 ≤ headEnd buf := by
    unfold headEnd
    split <;> decide
  have hw : wrap64 (headEnd buf + wrap64 (longLen buf)) = wrap64 (headEnd buf + longLen buf) :=
    Int.add_bmod_bmod
  have hcases := wrap64_cases (x := headEnd buf + longLen buf) (by omega) (by omega)
  constructor
  · rintro h ⟨h7, hh, hlow, hhigh⟩
    have hstop : wrap64 (headEnd buf + wrap64 (longLen buf)) < 2 := by
      rw [hw]
      omega
    obtain ⟨d, hd, hc⟩ := wsDecode_long h7 hh (by omega)
    have h2 := (h d hd).1
    omega
  · intro h d hd
    obtain ⟨h2, hle, ⟨-, hc⟩ | ⟨h7, hh, hc⟩⟩ := wsDecode_stop hd
    · exact ⟨hc, hle⟩
    · refine ⟨?_, hle⟩
      by_cases hlow : 2 ^ 63 ≤ headEnd buf + longLen buf
      · have hhigh : 2 ^ 64 + 2 ≤ headEnd buf + longLen buf :=
          Nat.le_of_not_lt fun hhigh => h ⟨h7, hh, hlow, hhigh⟩
        rw [hc, hw]
        omega
      · rw [hc, hw]
        omega

/-! ## the server's frames -/

/-- a frame of one message, under a key or not -/
def whole (mask : Option Mask) (p : Bytes) (op : Nat) (hop : op < 16)
    (hp : p.length + 14 < 2 ^ 63) : ClientFrame :=
  { fin := true, opcode := op, mask := mask, payload := p, opcode_lt := hop, fits := hp }

theorem wsFrame_eq_code {p : Bytes} {op : Nat} (hop : op < 16) (hp : p.length + 14 < 2 ^ 63) :
    wsFrame p op = (whole none p op hop hp).code := by
  have hfirst : chr (128 ||| (op &&& 15) : Nat) = UInt8.ofNat (128 + op) := by
    have hall : ∀ v : Fin 16, chr (128 ||| (v.1 &&& 15) : Nat) = UInt8.ofNat (128 + v.1) := by
      decide
    exact hall ⟨op, hop⟩
  have hlen : lenCode 0 p.length =
      if p.length < 126 then [chr p.length]
      else if p.length < 65536 then
        [chr 126] ++ [chr (p.length / 256 % 256 : Nat)] ++ [chr (p.length % 256 : Nat)]
      else chr 127 :: bigEndian 8 p.length := by
    unfold lenCode
    split
    · next h =>
      have hn : ((p.length : Int) % 256).toNat = p.length := by omega
      rw [chr, hn, Nat.zero_add]
    · rfl
  show wsFrame p op = UInt8.ofNat (128 + op) :: lenCode 0 p.length ++ [] ++ p
  rw [List.append_nil, hlen, wsFrame, hfirst]
  by_cases h7 : p.length < 126
  · simp only [if_pos h7]
    rfl
  · by_cases h16 : p.length < 65536
    · simp only [if_neg h7, if_pos h16]
      rfl
    · simp only [if_neg h7, if_neg h16]
      rfl

theorem wsDecode_part {f : ClientFrame} {q : Bytes} (hq : q <+: f.code) (hne : q ≠ f.code) :
    wsDecode q = none := by
  have hlt : q.length < f.code.length :=
    Nat.lt_of_le_of_ne hq.length_le fun he => hne (hq.eq_of_length he)
  rw [wsDecode_eq (t := []) (by rwa [List.append_nil]), if_pos hlt]

/-! ## the loop -/

/-- the buffers that the loop finds in the first `n` steps -/
def met (callback : Server → Server) : Nat → Server → List Frame → List Bytes
  | 0, _, _ => []
  | _, _, [] => []
  | n + 1, s, .callback :: k => met callback n (callback s) k
  | n + 1, s, .pumpFrames id :: k =>
    s.buf id :: met callback n (s.pumpFrames id).1 ((s.pumpFrames id).2 ++ k)

section
variable {s : Server} {id : Int}

theorem buf_modify (s : Server) (id : Int) {f : Client → Client} {n : Nat}
    (hf : ∀ c, (f c).buf.length ≤ n) : ((s.modify id f).buf id).length ≤ n := by
  show (((find (update s.clients id f) id).map Client.buf).getD []).length ≤ n
  rw [find_update, if_pos rfl]
  cases find s.clients id with
  | none => exact Nat.zero_le n
  | some c => exact hf c

theorem buf_modify_of (s : Server) (id : Int) {f : Client → Client}
    (hf : ∀ c, (f c).buf = c.buf) : (s.modify id f).buf id = s.buf id := by
  show ((find (update s.clients id f) id).map Client.buf).getD [] =
    ((find s.clients id).map Client.buf).getD []
  rw [find_update, if_pos rfl]
  cases find s.clients id with
  | none => rfl
  | some c => exact hf c

theorem buf_deliver (s : Server) (op : Nat) (p : Bytes) :
    (s.deliver id op p).1.buf id = s.buf id ∧
      ∃ called, (Server.thenPump (s.deliver id op p) id).2 = again id called := by
  unfold Server.deliver
  split
  · split
    · exact ⟨rfl, true, rfl⟩
    · exact ⟨rfl, false, rfl⟩
  · split
    · exact ⟨rfl, true, rfl⟩
    · exact ⟨rfl, false, rfl⟩

/-- nothing is left to be done, or a closure runs -/
def Last (k : List Frame) : Prop := k = [] ∨ k = [.callback]

theorem drop_last (s : Server) (code : Int) :
    ((s.drop id code).1.buf id).length ≤ (s.buf id).length ∧ Last (s.drop id code).2 := by
  unfold Server.drop
  split
  · have hb : (((s.sendClose id code).emit (.shut id (s.sock id))).modify id
        Server.dropped |>.buf id).length ≤ (s.buf id).length := buf_modify _ id fun c => Nat.zero_le _
    unfold Server.callClose
    split
    · exact ⟨hb, .inr rfl⟩
    · exact ⟨hb, .inl rfl⟩
  · exact ⟨Nat.le_refl _, .inl rfl⟩

/-- one turn, with a frame: the buffer is not touched any more -/
theorem pumpFrame_buf (s : Server) (f : Decoded) :
    ((s.pumpFrame id f).1.buf id).length ≤ (s.buf id).length ∧
      ((∃ called, (s.pumpFrame id f).2 = again id called) ∨ Last (s.pumpFrame id f).2) := by
  have hdeliver : ∀ (t : Server) op p, t.buf id = s.buf id →
      ((Server.thenPump (t.deliver id op p) id).1.buf id).length ≤ (s.buf id).length ∧
        ((∃ called, (Server.thenPump (t.deliver id op p) id).2 = again id called) ∨
          Last (Server.thenPump (t.deliver id op p) id).2) := fun t op p ht =>
    ⟨by rw [← ht]; exact Nat.le_of_eq (congrArg List.length (buf_deliver t op p).1),
      .inl (buf_deliver t op p).2⟩
  unfold Server.pumpFrame
  split
  · have h1 := buf_modify_of s id (f := fun c => { c with frag := c.frag ++ f.payload })
      fun c => rfl
    simp only
    split
    · exact hdeliver _ _ _ ((buf_modify_of _ id (f := fun c => { c with frag := [] })
        fun c => rfl).trans h1)
    · exact ⟨Nat.le_of_eq (congrArg List.length h1), .inl ⟨false, rfl⟩⟩
  · split
    · split
      · exact hdeliver s _ _ rfl
      · exact ⟨Nat.le_of_eq (congrArg List.length (buf_modify_of s id fun c => rfl)),
          .inl ⟨false, rfl⟩⟩
    · split
      · exact ⟨(drop_last s 1000).1, .inr (drop_last s 1000).2⟩
      · split
        · exact ⟨Nat.le_refl _, .inl ⟨false, rfl⟩⟩
        · exact ⟨Nat.le_refl _, .inl ⟨false, rfl⟩⟩

/-- **One turn** ends the loop, or takes something away. -/
theorem pumpFrames_buf (h : ¬ Overlong (s.buf id)) :
    (∃ called, (s.pumpFrames id).2 = again id called ∧
      ((s.pumpFrames id).1.buf id).length < (s.buf id).length) ∨ Last (s.pumpFrames id).2 := by
  unfold Server.pumpFrames
  split
  · split
    · exact .inr (.inl rfl)
    · next f hf =>
      obtain ⟨h2, hle⟩ := (consumed_iff _).2 h f hf
      obtain ⟨k, hk⟩ := Int.eq_ofNat_of_zero_le (show 0 ≤ f.consumed by omega)
      have hrest : (hpbiSubstr (s.buf id) f.consumed none).length < (s.buf id).length := by
        rw [hk, hpbiSubstr_drop (by omega), List.length_drop]
        omega
      obtain ⟨hb, hframes⟩ := @pumpFrame_buf id
        (s.modify id fun c => { c with buf := hpbiSubstr (s.buf id) f.consumed none }) f
      have hlt := Nat.lt_of_le_of_lt
        (Nat.le_trans hb (buf_modify s id fun c => Nat.le_refl _)) hrest
      exact hframes.imp_left fun ⟨called, hc⟩ => ⟨called, hc, hlt⟩
  · exact .inr (.inl rfl)

theorem runFrames_last {callback : Server → Server} {k : List Frame} (h : Last k) :
    ∃ n t, runFrames callback n s k = some t := by
  rcases h with rfl | rfl
  · exact ⟨0, s, rfl⟩
  · exact ⟨1, callback s, rfl⟩

/-- **The loop ends** when no frame that it meets is overlong, if no closure puts something into
the buffer. -/
theorem pump_ends {callback : Server → Server}
    (hcb : ∀ s, ((callback s).buf id).length ≤ (s.buf id).length)
    (h : ∀ n, ∀ b ∈ met callback n s [.pumpFrames id], ¬ Overlong b) :
    ∃ n t, runFrames callback n s [.pumpFrames id] = some t := by
  induction hm : (s.buf id).length using Nat.strong_induction_on generalizing s with
  | h m ih =>
    have hs : ¬ Overlong (s.buf id) := h 1 _ List.mem_cons_self
    rcases pumpFrames_buf hs with ⟨called, hk, hlt⟩ | hlast
    · cases called with
      | false =>
        have hmet : ∀ n, ∀ b ∈ met callback n (s.pumpFrames id).1 [.pumpFrames id],
            ¬ Overlong b := by
          intro n b hb
          apply h (n + 1) b
          rw [met, hk]
          exact List.mem_cons_of_mem _ hb
        obtain ⟨n, t, hn⟩ := ih _ (hm ▸ hlt) hmet rfl
        refine ⟨n + 1, t, ?_⟩
        rw [runFrames, hk]
        exact hn
      | true =>
        have hlt' := Nat.lt_of_le_of_lt (hcb (s.pumpFrames id).1) hlt
        have hmet : ∀ n, ∀ b ∈ met callback n (callback (s.pumpFrames id).1) [.pumpFrames id],
            ¬ Overlong b := by
          intro n b hb
          apply h (n + 2) b
          rw [met, hk]
          exact List.mem_cons_of_mem _ hb
        obtain ⟨n, t, hn⟩ := ih _ (hm ▸ hlt') hmet rfl
        refine ⟨n + 2, t, ?_⟩
        rw [runFrames, hk]
        exact hn
    · obtain ⟨n, t, hn⟩ := runFrames_last (s := (s.pumpFrames id).1) hlast
      refine ⟨n + 1, t, ?_⟩
      rw [runFrames, List.append_nil]
      exact hn

end

/-- **The codec and the loop.**  The frames of both sides are read, with anything behind them, and
nothing of a part of one is; what a frame takes away is from 2 bytes to all that has come if and
only if it is not overlong, and then the loop ends. -/
theorem codec_iff (s : Server) (id : Int) (callback : Server → Server) :
    (∀ (p : Bytes) (op : Nat) (hop : op < 16) (hp : p.length + 14 < 2 ^ 63),
      (∀ r, wsDecode (wsFrame p op ++ r) = some ⟨true, op, p, (wsFrame p op).length⟩) ∧
      (∀ q, q <+: wsFrame p op → q ≠ wsFrame p op → wsDecode q = none) ∧
      ∀ k, (∀ r, wsDecode ((whole (some k) p op hop hp).code ++ r) =
          some ⟨true, op, p, (whole (some k) p op hop hp).code.length⟩) ∧
        ∀ q, q <+: (whole (some k) p op hop hp).code → q ≠ (whole (some k) p op hop hp).code →
          wsDecode q = none) ∧
    (∀ buf, (∀ d, wsDecode buf = some d → 2 ≤ d.consumed ∧ d.consumed ≤ buf.length) ↔
      ¬ Overlong buf) ∧
    ((∀ s, ((callback s).buf id).length ≤ (s.buf id).length) →
      (∀ n, ∀ b ∈ met callback n s [.pumpFrames id], ¬ Overlong b) →
      ∃ n t, runFrames callback n s [.pumpFrames id] = some t) := by
  refine ⟨fun p op hop hp => ⟨fun r => ?_, fun q hq hne => ?_, fun k => ⟨fun r => ?_, ?_⟩⟩,
    consumed_iff, fun hcb h => pump_ends hcb h⟩
  · rw [wsFrame_eq_code hop hp]
    exact wsDecode_code _ r
  · rw [wsFrame_eq_code hop hp] at hq hne
    exact wsDecode_part hq hne
  · exact wsDecode_code _ r
  · exact fun q hq hne => wsDecode_part hq hne

/-- a pong whose length is 2^64 - 10 -/
def stuck : Bytes := [138, 127, 255, 255, 255, 255, 255, 255, 255, 246]

/-- a client that is connected and has sent `stuck` -/
def stuckServer : Server :=
  { onOpen := false, onMessage := false, onBinary := false, onClose := false, srv := 3,
    nextId := 2, clients := [(1, ⟨4, stuck, .opened, [], 0, []⟩)], trace := [] }

/-- a ping of three bytes under a key -/
theorem codec_ping :
    wsDecode ((whole (some ⟨1, 2, 3, 4⟩) [97, 98, 99] 9 (by decide) (by decide)).code ++ [7]) =
      some ⟨true, 9, [97, 98, 99], 9⟩ :=
  (((codec_iff stuckServer 1 id).1 [97, 98, 99] 9 (by decide) (by decide)).2.2 ⟨1, 2, 3, 4⟩).1 [7]

theorem stuck_decoded : wsDecode stuck = some ⟨true, 10, [], 0⟩ := by decide +kernel

/-- nothing is taken away, and the loop never ends -/
theorem loop_stuck : (∃ d, wsDecode stuck = some d ∧ ¬ 2 ≤ d.consumed) ∧
    ∀ n, runFrames id n stuckServer [.pumpFrames 1] = none := by
  refine ⟨⟨_, stuck_decoded, by decide⟩, fun n => ?_⟩
  induction n with
  | zero => rfl
  | succ n ih =>
    have hopen : stuckServer.isOpen 1 = true := rfl
    have hbuf : stuckServer.buf 1 = stuck := rfl
    have hturn : stuckServer.pumpFrames 1 = (stuckServer, [.pumpFrames 1]) := by
      unfold Server.pumpFrames
      rw [if_pos hopen, hbuf, stuck_decoded]
      rfl
    rw [runFrames, hturn]
    exact ih

end Websocket
end HolyPhp
