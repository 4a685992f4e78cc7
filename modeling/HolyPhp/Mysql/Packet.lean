import HolyPhp.Lib.Framing
import HolyPhp.Runtime.Value

/-!
# Packets of the MySQL protocol

* `MyConn`                               a connection, with the two directions of its socket;
* `mysqlReadPacket`, `mysqlSendPacket`   a payload behind a header of four bytes;
* `myLencInt`, `myLencPut`               length-encoded integers.

A read by the parse pointer outside of its memory ends the run (`Stop.outside`), and so does a
`recv` that never returns (`Stop.waits`).

**`framing_law`**: payloads arrive as they were sent **if and only if** all of them are shorter than
`2 ^ 24`, and length-encoded integers are always read back.
-/

set_option autoImplicit false

namespace HolyPhp
namespace Mysql
open Framing

/-! ## the socket -/

/-- how a run ends without a result -/
inductive Stop where
  | waits
  | outside
deriving DecidableEq

/-- `fd` is a socket (`isOpen`): the fragments that `recv` will see, whether the server closes
behind them, how much every `send` takes, what was sent -/
structure MyConn where
  isOpen : Bool
  inbound : List Bytes
  closed : Bool
  accepts : List Nat
  outbound : Bytes
  seq : UInt32
  insertId : UInt32

/-- the kernel takes no more than `0x7ffff000` bytes at once -/
def sendMax : Nat := 0x7ffff000

/-- a loop of `send`; `false` is its `n <= 0` -/
def sendLoop (data : Bytes) : List Nat → Bool × Bytes × List Nat
  | [] => (data.isEmpty, [], [])
  | a :: accepts =>
    if data.isEmpty then (true, [], a :: accepts)
    else
      let n := min (min a sendMax) data.length
      if n = 0 then (false, [], accepts)
      else
        let r := sendLoop (data.drop n) accepts
        (r.1, data.take n ++ r.2.1, r.2.2)

/-- `recv` gives nothing: the connection is closed, or the call does not return -/
def MyConn.starve (c : MyConn) (out : Bytes) : Except Stop (Bool × Bytes × MyConn) :=
  if c.closed then .ok (false, out, { c with inbound := [] }) else .error .waits

/-- `p[0] | p[1] << 8 | ..`, `n` bytes -/
def leWord (n : Nat) (p : Bytes) : Nat :=
  (List.range n).foldl (fun v i => v ||| ((p.getD i 0).toNat <<< (8 * i))) 0

/-- with what is in `out` -/
def mysqlReadPacket (c : MyConn) : Except Stop (Bool × Bytes × MyConn) :=
  let hdr := readLoop 4 4 c.inbound
  if hdr.1.length < 4 then c.starve []
  else
    let len := leWord 3 hdr.1
    let c := { c with seq := (hdr.1.getD 3 0).toUInt32 + 1 }
    let body := readLoop 4096 len hdr.2
    if body.1.length < len then c.starve body.1
    else .ok (true, body.1, { c with inbound := body.2 })

def header (len seq : UInt32) : Bytes :=
  [(len &&& 0xff).toUInt8, ((len >>> 8) &&& 0xff).toUInt8, ((len >>> 16) &&& 0xff).toUInt8,
    seq.toUInt8]

def mysqlSendPacket (c : MyConn) (data : Bytes) (len : UInt32) : Bool × MyConn :=
  let hdr := sendLoop (header len c.seq) c.accepts
  let c := { c with seq := c.seq + 1, accepts := hdr.2.2, outbound := c.outbound ++ hdr.2.1 }
  if hdr.1 then
    let body := sendLoop (data.take len.toNat) c.accepts
    (body.1, { c with accepts := body.2.2, outbound := c.outbound ++ body.2.1 })
  else (false, c)

/-! ## length-encoded integers -/

/-- `n` bytes, from the pointer on -/
def readLe (n : Nat) (p : Bytes) : Except Stop (UInt64 × Bytes) :=
  if n ≤ p.length then .ok (UInt64.ofNat (leWord n p), p.drop n) else .error .outside

/-- `p` is the memory from the pointer on -/
def myLencInt : Bytes → Except Stop (UInt64 × Bytes)
  | [] => .error .outside
  | b :: p =>
    if b < 0xfb then .ok (b.toUInt64, p)
    else if b = 0xfc then readLe 2 p
    else if b = 0xfd then readLe 3 p
    else if b = 0xfe then readLe 8 p
    else .ok (0, p)

def myLencPut (v : UInt64) : Bytes :=
  if v < 0xfb then [v.toUInt8]
  else if v ≤ 0xffff then [0xfc, (v &&& 0xff).toUInt8, ((v >>> 8) &&& 0xff).toUInt8]
  else 0xfe :: (List.range 8).map fun i => ((v >>> UInt64.ofNat (8 * i)) &&& 0xff).toUInt8

section
variable {n : Nat} {p rest : Bytes} {v : UInt64}

theorem leWord_eq (n : Nat) (p : Bytes) : leWord n p = value n p := by
  induction n with
  | zero => rfl
  | succ n ih =>
    have hlt := value_lt n p
    have hpow : 256 ^ n = 2 ^ (8 * n) := (Nat.pow_mul 2 8 n).symm
    have hstep : leWord (n + 1) p = leWord n p ||| ((p.getD n 0).toNat <<< (8 * n)) := by
      rw [leWord, List.range_succ, List.foldl_append]
      rfl
    rw [hpow] at hlt
    rw [hstep, ih, value_succ, hpow, Nat.shiftLeft_eq, Nat.mul_comm, Nat.or_comm,
      ← Nat.two_pow_add_eq_or_of_lt hlt, Nat.add_comm]

theorem readLe_digits (n v : Nat) (rest : Bytes) :
    readLe n (digits n v ++ rest) = .ok (UInt64.ofNat (v % 256 ^ n), rest) := by
  have hlen : n ≤ (digits n v ++ rest).length := by
    rw [List.length_append, length_digits]
    omega
  have hdrop : (digits n v ++ rest).drop n = rest := List.drop_left' (length_digits n v)
  rw [readLe, if_pos hlen, leWord_eq, value_digits, hdrop]

theorem mask_byte (m : Nat) : (m &&& 255) % 2 ^ 8 = m % 256 := by
  have h := Nat.and_two_pow_sub_one_eq_mod m 8
  have h255 : 2 ^ 8 - 1 = 255 := rfl
  rw [h255] at h
  rw [h, Nat.mod_mod]

/-- the byte `i` of a number -/
theorem shr_byte (v : UInt64) {k : UInt64} {i : Nat} (hk : k.toNat = 8 * i) (hi : i < 8) :
    ((v >>> k) &&& 0xff).toUInt8 = UInt8.ofNat (v.toNat / 256 ^ i) := by
  have hpow : 2 ^ (8 * i) = 256 ^ i := Nat.pow_mul 2 8 i
  apply UInt8.toNat_inj.mp
  rw [UInt64.toNat_toUInt8, UInt64.toNat_and, UInt64.toNat_shiftRight, hk,
    Nat.mod_eq_of_lt (show 8 * i < 64 by omega), Nat.shiftRight_eq_div_pow, hpow]
  exact mask_byte _

theorem low_byte (v : UInt64) : (v &&& 0xff).toUInt8 = UInt8.ofNat (v.toNat / 256 ^ 0) := by
  have h := shr_byte v (k := 0) (i := 0) rfl (by decide)
  rwa [UInt64.shiftRight_zero] at h

theorem myLencPut_small (h : v < 0xfb) : myLencPut v = [v.toUInt8] := if_pos h

/-- **Length-encoded integers** are read back. -/
theorem myLencInt_put (v : UInt64) (rest : Bytes) :
    myLencInt (myLencPut v ++ rest) = .ok (v, rest) := by
  have hv := v.toNat_lt
  by_cases h1 : v < 0xfb
  · have hn : v.toNat < 251 := h1
    have hb : v.toUInt8.toNat = v.toNat := by
      rw [UInt64.toNat_toUInt8]
      omega
    have hlt : v.toUInt8 < 0xfb := by
      show v.toUInt8.toNat < 251
      omega
    have hback : v.toUInt8.toUInt64 = v := by
      apply UInt64.toNat_inj.mp
      rw [UInt8.toNat_toUInt64, hb]
    rw [myLencPut_small h1, List.singleton_append, myLencInt, if_pos hlt, hback]
  · by_cases h2 : v ≤ 0xffff
    · have hn : v.toNat ≤ 65535 := h2
      have hput : myLencPut v = 0xfc :: digits 2 v.toNat := by
        have hdigits : digits 2 v.toNat =
            [UInt8.ofNat (v.toNat / 256 ^ 0), UInt8.ofNat (v.toNat / 256 ^ 1)] := rfl
        rw [myLencPut, if_neg h1, if_pos h2, hdigits, low_byte,
          shr_byte v (k := 8) (i := 1) rfl (by decide)]
      rw [hput, List.cons_append, myLencInt, if_neg (by decide), if_pos rfl, readLe_digits,
        Nat.mod_eq_of_lt (show v.toNat < 256 ^ 2 from Nat.lt_succ_of_le hn), UInt64.ofNat_toNat]
    · have hput : myLencPut v = 0xfe :: digits 8 v.toNat := by
        rw [myLencPut, if_neg h1, if_neg h2, digits]
        congr 1
        apply List.map_congr_left
        intro i hi
        have hi8 := List.mem_range.mp hi
        refine shr_byte v ?_ hi8
        rw [UInt64.toNat_ofNat']
        omega
      rw [hput, List.cons_append, myLencInt, if_neg (by decide), if_neg (by decide),
        if_neg (by decide), if_pos rfl, readLe_digits,
        Nat.mod_eq_of_lt (show v.toNat < 256 ^ 8 from hv), UInt64.ofNat_toNat]

end

/-! ## sending -/

/-- calls of `mysql_send_packet`, as long as they succeed -/
def sendPackets : MyConn → List Bytes → Bool × MyConn
  | c, [] => (true, c)
  | c, p :: ps =>
    let r := mysqlSendPacket c p (UInt32.ofNat p.length)
    if r.1 then sendPackets r.2 ps else (false, r.2)

/-- the bytes of payloads, from a number on -/
def frames : UInt32 → List Bytes → Bytes
  | _, [] => []
  | q, p :: ps => header (UInt32.ofNat p.length) q ++ p ++ frames (q + 1) ps

section
variable {c : MyConn} {p data : Bytes} {ps : List Bytes} {acc : List Nat} {len q : UInt32}

/-- what is written where the loop succeeds -/
theorem sendLoop_written (h : (sendLoop data acc).1 = true) : (sendLoop data acc).2.1 = data := by
  induction acc generalizing data with
  | nil => exact (List.isEmpty_iff.mp h).symm
  | cons a acc ih =>
    rw [sendLoop] at h ⊢
    split
    · next he => exact (List.isEmpty_iff.mp he).symm
    · next he =>
      rw [if_neg he] at h
      dsimp only at h ⊢
      split
      · next h0 =>
        rw [if_pos h0] at h
        cases h
      · next h0 =>
        rw [if_neg h0] at h
        dsimp only at h ⊢
        rw [ih h, List.take_append_drop]

/-- **The loop ends**: it takes as many calls as bytes, or fewer. -/
theorem sendLoop_ends (data : Bytes) (hpos : ∀ a ∈ acc, 0 < a) (hlen : data.length ≤ acc.length) :
    (sendLoop data acc).1 = true ∧ (sendLoop data acc).2.2 <:+ acc ∧
      acc.length ≤ (sendLoop data acc).2.2.length + data.length := by
  induction acc generalizing data with
  | nil =>
    have hnil : data = [] := List.eq_nil_of_length_eq_zero (by simpa using hlen)
    subst hnil
    exact ⟨rfl, List.suffix_refl [], Nat.le_refl 0⟩
  | cons a acc ih =>
    have ha := hpos a List.mem_cons_self
    rw [List.length_cons] at hlen
    rw [sendLoop]
    split
    · next he => exact ⟨rfl, List.suffix_refl _, Nat.le_add_right _ _⟩
    · next he =>
      have hdata : 0 < data.length := by
        have := List.isEmpty_eq_false_iff.mp (by simpa using he)
        exact List.length_pos_of_ne_nil this
      have hn : 0 < min (min a sendMax) data.length := by
        have : 0 < sendMax := by decide
        omega
      dsimp only
      rw [if_neg (by omega)]
      have hd : (data.drop (min (min a sendMax) data.length)).length =
          data.length - min (min a sendMax) data.length := List.length_drop
      obtain ⟨h1, h2, h3⟩ := ih (data.drop (min (min a sendMax) data.length))
        (fun b hb => hpos b (List.mem_cons_of_mem a hb)) (by omega)
      refine ⟨h1, h2.trans (List.suffix_cons a acc), ?_⟩
      rw [List.length_cons]
      dsimp only
      omega

theorem header_length (len q : UInt32) : (header len q).length = 4 := rfl

/-- **A packet** on the wire, where the call succeeds. -/
theorem mysqlSendPacket_written (h : (mysqlSendPacket c p (UInt32.ofNat p.length)).1 = true)
    (hp : p.length < 2 ^ 32) :
    (mysqlSendPacket c p (UInt32.ofNat p.length)).2.outbound =
      c.outbound ++ (header (UInt32.ofNat p.length) c.seq ++ p) ∧
    (mysqlSendPacket c p (UInt32.ofNat p.length)).2.seq = c.seq + 1 := by
  have hlen : (UInt32.ofNat p.length).toNat = p.length := by
    rw [UInt32.toNat_ofNat', Nat.mod_eq_of_lt hp]
  unfold mysqlSendPacket at h ⊢
  dsimp only at h ⊢
  rw [hlen, List.take_length] at h ⊢
  split
  · next h1 =>
    rw [if_pos h1] at h
    dsimp only at h ⊢
    rw [sendLoop_written h1, sendLoop_written h, List.append_assoc]
    exact ⟨rfl, rfl⟩
  · next h1 =>
    rw [if_neg h1] at h
    cases h

theorem mysqlSendPacket_ends (len : UInt32) (hpos : ∀ a ∈ c.accepts, 0 < a)
    (hlen : p.length + 4 ≤ c.accepts.length) :
    (mysqlSendPacket c p len).1 = true ∧
    (∀ a ∈ (mysqlSendPacket c p len).2.accepts, 0 < a) ∧
    c.accepts.length ≤ (mysqlSendPacket c p len).2.accepts.length + (p.length + 4) := by
  obtain ⟨h1, h2, h3⟩ := sendLoop_ends (header len c.seq) hpos (by
    rw [header_length]
    omega)
  rw [header_length] at h3
  have htake : (p.take len.toNat).length ≤ p.length := List.length_take_le' _ _
  have hpos' : ∀ a ∈ (sendLoop (header len c.seq) c.accepts).2.2, 0 < a :=
    fun a ha => hpos a (h2.subset ha)
  obtain ⟨k1, k2, k3⟩ := sendLoop_ends (p.take len.toNat) hpos' (by omega)
  unfold mysqlSendPacket
  dsimp only
  rw [if_pos h1]
  refine ⟨k1, fun a ha => hpos' a (k2.subset ha), ?_⟩
  dsimp only
  omega

theorem sendPackets_written (hps : ∀ p ∈ ps, p.length < 2 ^ 32)
    (h : (sendPackets c ps).1 = true) :
    (sendPackets c ps).2.outbound = c.outbound ++ frames c.seq ps := by
  induction ps generalizing c with
  | nil => exact (List.append_nil _).symm
  | cons p ps ih =>
    have hp := hps p List.mem_cons_self
    rw [sendPackets] at h ⊢
    split
    · next h1 =>
      rw [if_pos h1] at h
      obtain ⟨hout, hseq⟩ := mysqlSendPacket_written h1 hp
      rw [ih (fun r hr => hps r (List.mem_cons_of_mem p hr)) h, hout, hseq, frames]
      simp only [List.append_assoc]
    · next h1 =>
      rw [if_neg h1] at h
      cases h

/-- **Sending ends**, however little the calls of `send` take. -/
theorem sendPackets_ends (hpos : ∀ a ∈ c.accepts, 0 < a)
    (hlen : (ps.map fun p => p.length + 4).sum ≤ c.accepts.length) :
    (sendPackets c ps).1 = true := by
  induction ps generalizing c with
  | nil => rfl
  | cons p ps ih =>
    rw [List.map_cons, List.sum_cons] at hlen
    obtain ⟨h1, h2, h3⟩ := mysqlSendPacket_ends (UInt32.ofNat p.length) hpos
      (show p.length + 4 ≤ c.accepts.length by omega)
    rw [sendPackets]
    rw [if_pos h1]
    exact ih h2 (by omega)

end

/-! ## reading -/

/-- calls of `mysql_read_packet`, as long as they succeed -/
def readPackets : Nat → MyConn → Except Stop (List Bytes × MyConn)
  | 0, c => .ok ([], c)
  | n + 1, c => (mysqlReadPacket c).bind fun r =>
    if r.1 then (readPackets n r.2.2).map fun rs => (r.2.1 :: rs.1, rs.2) else .ok ([], r.2.2)

section
variable {c d : MyConn} {hd p s : Bytes} {ps : List Bytes} {q len : UInt32}

/-- **A packet** is read, in whichever fragments it comes. -/
theorem mysqlReadPacket_frame (hs : c.inbound.flatten = hd ++ p ++ s) (hhd : hd.length = 4)
    (hp : value 3 hd = p.length) :
    ∃ fs q, fs.flatten = s ∧
      mysqlReadPacket c = .ok (true, p, { c with seq := q, inbound := fs }) := by
  obtain ⟨h1, h2⟩ := readLoop_eq (show 0 < 4 by decide) 4 c.inbound
  rw [hs, List.append_assoc, List.take_left' hhd] at h1
  rw [hs, List.append_assoc, List.drop_left' hhd] at h2
  obtain ⟨h3, h4⟩ := readLoop_eq (show 0 < 4096 by decide) p.length (readLoop 4 4 c.inbound).2
  rw [h2, List.take_left] at h3
  rw [h2, List.drop_left] at h4
  refine ⟨_, (hd.getD 3 0).toUInt32 + 1, h4, ?_⟩
  unfold mysqlReadPacket
  dsimp only
  rw [h1, hhd, if_neg (by decide), leWord_eq, hp, h3, if_neg (Nat.lt_irrefl _)]

/-- the payloads that come, and what is behind them -/
def MyConn.cut (c : MyConn) : List Bytes × Bytes := Framing.cut 4 (value 3) c.inbound.flatten

theorem mysqlReadPacket_cons {r : Bytes} (h : c.cut = (p :: ps, r)) :
    ∃ fs q, { c with seq := q, inbound := fs }.cut = (ps, r) ∧
      mysqlReadPacket c = .ok (true, p, { c with seq := q, inbound := fs }) ∧
      fs.flatten.length < c.inbound.flatten.length := by
  obtain ⟨hd, t, hs, hhd, hp, ht⟩ := cut_cons h
  obtain ⟨fs, q, hfs, hread⟩ := mysqlReadPacket_frame hs hhd hp
  refine ⟨fs, q, ?_, hread, ?_⟩
  · rw [MyConn.cut, hfs, ht]
  · rw [hfs, hs, List.length_append, List.length_append]
    omega

/-- no whole payload comes: the read fails with a part of one, or waits for the rest of it -/
theorem mysqlReadPacket_nil {r : Bytes} (h : c.cut = ([], r)) :
    (c.closed = false ∧ mysqlReadPacket c = .error .waits) ∨
    (c.closed = true ∧
      ∃ q, mysqlReadPacket c = .ok (false, r.drop 4, { c with seq := q, inbound := [] })) := by
  obtain ⟨rfl, hc⟩ := cut_nil (by decide) h
  obtain ⟨h1, h2⟩ := readLoop_eq (show 0 < 4 by decide) 4 c.inbound
  obtain ⟨h3, h4⟩ := readLoop_eq (show 0 < 4096 by decide) (value 3 (c.inbound.flatten.take 4))
    (readLoop 4 4 c.inbound).2
  rw [h2] at h3
  unfold mysqlReadPacket
  dsimp only
  rw [h1, leWord_eq, h3]
  by_cases hlen : 4 ≤ c.inbound.flatten.length
  · have hbody : ((c.inbound.flatten.drop 4).take (value 3 (c.inbound.flatten.take 4))) =
        c.inbound.flatten.drop 4 := by
      apply List.take_of_length_le
      rw [List.length_drop]
      omega
    rw [hbody, if_neg (by rw [List.length_take]; omega),
      if_pos (by rw [List.length_drop]; omega)]
    unfold MyConn.starve
    cases hcl : c.closed with
    | false => exact Or.inl ⟨rfl, rfl⟩
    | true => exact Or.inr ⟨rfl, _, rfl⟩
  · rw [if_pos (by rw [List.length_take]; omega), List.drop_of_length_le (by omega)]
    unfold MyConn.starve
    cases hcl : c.closed with
    | false => exact Or.inl ⟨rfl, rfl⟩
    | true => exact Or.inr ⟨rfl, _, rfl⟩

/-- a read that succeeds takes something -/
theorem mysqlReadPacket_shorter (h : mysqlReadPacket c = .ok (true, p, d)) :
    d.inbound.flatten.length < c.inbound.flatten.length := by
  cases hc : c.cut with
  | mk ps r =>
    cases ps with
    | nil =>
      rcases mysqlReadPacket_nil hc with ⟨-, hr⟩ | ⟨-, q, hr⟩
      · rw [h] at hr
        cases hr
      · rw [h] at hr
        cases hr
    | cons p' ps =>
      obtain ⟨fs, q, -, hr, hlt⟩ := mysqlReadPacket_cons hc
      rw [h] at hr
      obtain ⟨-, hrest⟩ := Prod.mk.inj (Except.ok.inj hr)
      obtain ⟨-, rfl⟩ := Prod.mk.inj hrest
      exact hlt

/-- the length in a header, modulo `2 ^ 24` -/
theorem value_header (len q : UInt32) : value 3 (header len q) = len.toNat % 2 ^ 24 := by
  have hbyte : ∀ {k : UInt32} {i : Nat}, k.toNat = 8 * i → i < 4 →
      ((len >>> k) &&& 0xff).toUInt8 = UInt8.ofNat (len.toNat / 256 ^ i) := by
    intro k i hk hi
    have hpow : 2 ^ (8 * i) = 256 ^ i := Nat.pow_mul 2 8 i
    apply UInt8.toNat_inj.mp
    rw [UInt32.toNat_toUInt8, UInt32.toNat_and, UInt32.toNat_shiftRight, hk,
      Nat.mod_eq_of_lt (show 8 * i < 32 by omega), Nat.shiftRight_eq_div_pow, hpow]
    exact mask_byte _
  have h0 := hbyte (k := 0) (i := 0) rfl (by decide)
  have h8 := hbyte (k := 8) (i := 1) rfl (by decide)
  have h16 := hbyte (k := 16) (i := 2) rfl (by decide)
  rw [UInt32.shiftRight_zero] at h0
  have hdigits : header len q = digits 3 len.toNat ++ [q.toUInt8] := by
    rw [header, h0, h8, h16]
    rfl
  rw [hdigits, value_digits]
  rfl

theorem value_header_lt (h : p.length < 2 ^ 24) :
    value 3 (header (UInt32.ofNat p.length) q) = p.length := by
  rw [value_header, UInt32.toNat_ofNat', Nat.mod_mod_of_dvd _ (by decide), Nat.mod_eq_of_lt h]

theorem cut_frames (h : ∀ p ∈ ps, p.length < 2 ^ 24) :
    Framing.cut 4 (value 3) (frames q ps) = (ps, []) := by
  induction ps generalizing q with
  | nil => exact cut_part (by simp [frames])
  | cons p ps ih =>
    obtain ⟨hp, hps⟩ := List.forall_mem_cons.mp h
    rw [frames, cut_frame (by decide) (header_length _ _) (value_header_lt hp), ih hps]

/-- a payload that is too long is read as its front -/
theorem mysqlReadPacket_long (hs : c.inbound.flatten = header (UInt32.ofNat p.length) q ++ p ++ s)
    (h : 2 ^ 24 ≤ p.length) :
    ∃ d, mysqlReadPacket c = .ok (true, p.take (p.length % 2 ^ 24), d) := by
  have hmod : p.length % 2 ^ 24 < 2 ^ 24 := Nat.mod_lt _ (by decide)
  have hlen : (p.take (p.length % 2 ^ 24)).length = p.length % 2 ^ 24 := by
    rw [List.length_take]
    omega
  have hsplit : c.inbound.flatten = header (UInt32.ofNat p.length) q ++
      p.take (p.length % 2 ^ 24) ++ (p.drop (p.length % 2 ^ 24) ++ s) := by
    rw [hs, List.append_assoc, List.append_assoc, ← List.append_assoc (p.take _),
      List.take_append_drop]
  obtain ⟨fs, r, -, hd⟩ := mysqlReadPacket_frame hsplit (header_length _ _) (by
    rw [value_header, UInt32.toNat_ofNat', Nat.mod_mod_of_dvd _ (by decide), hlen])
  exact ⟨_, hd⟩

/-- **A run of reads** on the bytes of payloads. -/
theorem readPackets_frames (hs : d.inbound.flatten = frames q ps) :
    (readPackets ps.length d).map Prod.fst = .ok ps ↔ ∀ p ∈ ps, p.length < 2 ^ 24 := by
  induction ps generalizing d q with
  | nil => exact iff_of_true rfl (fun p hp => absurd hp List.not_mem_nil)
  | cons p ps ih =>
    have hhd := header_length (UInt32.ofNat p.length) q
    rw [frames] at hs
    rw [List.forall_mem_cons, List.length_cons, readPackets]
    by_cases hp : p.length < 2 ^ 24
    · obtain ⟨fs, r, hrest, hd⟩ := mysqlReadPacket_frame hs hhd (value_header_lt hp)
      have h := @ih { d with seq := r, inbound := fs } _ hrest
      rw [hd, and_iff_right hp, ← h]
      generalize { d with seq := r, inbound := fs } = d'
      show ((readPackets ps.length d').map fun rs => (p :: rs.1, rs.2)).map Prod.fst = _ ↔ _
      cases readPackets ps.length d' with
      | error e => refine iff_of_false (fun he => ?_) (fun he => ?_) <;> cases he
      | ok r =>
        show Except.ok (p :: r.1) = Except.ok (p :: ps) ↔ Except.ok r.1 = Except.ok ps
        simp
    · obtain ⟨d', hd⟩ := mysqlReadPacket_long hs (Nat.le_of_not_lt hp)
      refine iff_of_false (fun h => ?_) (fun h => hp h.1)
      rw [hd] at h
      have hmod : p.length % 2 ^ 24 < 2 ^ 24 := Nat.mod_lt _ (by decide)
      have hne : p.take (p.length % 2 ^ 24) ≠ p := by
        intro he
        have hlen := congrArg List.length he
        rw [List.length_take] at hlen
        omega
      change ((readPackets ps.length d').map fun rs =>
        (p.take (p.length % 2 ^ 24) :: rs.1, rs.2)).map Prod.fst = _ at h
      cases hr : readPackets ps.length d' with
      | error e =>
        rw [hr] at h
        cases h
      | ok r =>
        rw [hr] at h
        exact hne (List.cons.inj (Except.ok.inj h)).1

end

/-! ## the law -/

section
variable {ps : List Bytes}

/-- **Framing**: sending ends; what is sent is read back by every reader, in whichever fragments,
just if the payloads are short enough for the three bytes of their lengths; length-encoded integers
are read back. -/
theorem framing_law (hps : ∀ p ∈ ps, p.length < 2 ^ 32) :
    (∀ c : MyConn, (∀ a ∈ c.accepts, 0 < a) →
      (ps.map fun p => p.length + 4).sum ≤ c.accepts.length → (sendPackets c ps).1 = true) ∧
    (∀ c d : MyConn, (sendPackets c ps).1 = true →
      c.outbound ++ d.inbound.flatten = (sendPackets c ps).2.outbound →
      ((readPackets ps.length d).map Prod.fst = .ok ps ↔ ∀ p ∈ ps, p.length < 2 ^ 24)) ∧
    ∀ (v : UInt64) (rest : Bytes), myLencInt (myLencPut v ++ rest) = .ok (v, rest) := by
  refine ⟨fun c => sendPackets_ends, fun c d hsent hd => ?_, myLencInt_put⟩
  rw [sendPackets_written hps hsent] at hd
  exact readPackets_frames (List.append_cancel_left hd)

/-- a connection that takes everything, before anything was sent -/
def fresh (accepts : List Nat) (inbound : List Bytes) : MyConn :=
  ⟨true, inbound, false, accepts, [], 0, 0⟩

/-- `[1, 2]` and `[]`, sent byte by byte and delivered in three fragments -/
theorem framing_law_two :
    (∀ p ∈ ([[1, 2], []] : List Bytes), p.length < 2 ^ 32) ∧
    (readPackets 2 (fresh [] [[2, 0], [0, 0, 1, 2, 0], [0, 0, 1]])).map Prod.fst =
      .ok [[1, 2], []] := by
  have hps : ∀ p ∈ ([[1, 2], []] : List Bytes), p.length < 2 ^ 32 := by simp
  have h := framing_law hps
  have hsent := h.1 (fresh (List.replicate 10 1) []) (by simp [fresh]) (by simp [fresh])
  refine ⟨hps, ?_⟩
  refine (h.2.1 (fresh (List.replicate 10 1) []) (fresh [] [[2, 0], [0, 0, 1, 2, 0], [0, 0, 1]])
    hsent ?_).mpr (by simp)
  rw [sendPackets_written hps hsent]
  decide

/-- a payload that is too long is not read back, though sent as a whole -/
theorem long_lost {p : Bytes} (h : 2 ^ 24 ≤ p.length) (h' : p.length < 2 ^ 32) :
    ∃ c d : MyConn, (sendPackets c [p]).1 = true ∧
      c.outbound ++ d.inbound.flatten = (sendPackets c [p]).2.outbound ∧
      (readPackets 1 d).map Prod.fst ≠ .ok [p] := by
  have hps : ∀ r ∈ [p], r.length < 2 ^ 32 := by simpa using h'
  have hsent : (sendPackets (fresh (List.replicate (p.length + 4) 1) []) [p]).1 = true := by
    apply sendPackets_ends
    · intro a ha
      rw [List.eq_of_mem_replicate ha]
      exact Nat.one_pos
    · simp [fresh]
  have hframes : (fresh [] [frames 0 [p]]).inbound.flatten = frames 0 [p] := List.append_nil _
  refine ⟨_, fresh [] [frames 0 [p]], hsent, ?_, fun hread => ?_⟩
  · rw [sendPackets_written hps hsent, hframes]
    rfl
  · have := (readPackets_frames hframes).mp hread p List.mem_cons_self
    omega

/-- `2 ^ 24` zeros: the header says that there are none -/
theorem framing_lost :
    ¬ ∀ ps : List Bytes, (∀ p ∈ ps, p.length < 2 ^ 32) → ∀ c d : MyConn,
      (sendPackets c ps).1 = true →
      c.outbound ++ d.inbound.flatten = (sendPackets c ps).2.outbound →
      (readPackets ps.length d).map Prod.fst = .ok ps := by
  intro h
  have hzeros : ∀ n, ∃ p : Bytes, p.length = n :=
    fun n => ⟨List.replicate n 0, List.length_replicate⟩
  obtain ⟨p, hp⟩ := hzeros (2 ^ 24)
  have hlt : p.length < 2 ^ 32 := by
    rw [hp]
    decide
  obtain ⟨c, d, hsent, hout, hne⟩ := long_lost (Nat.le_of_eq hp.symm) hlt
  exact hne (h [p] (by simpa using hlt) c d hsent hout)

end

end Mysql
end HolyPhp
