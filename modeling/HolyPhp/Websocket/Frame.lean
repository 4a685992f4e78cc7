import HolyPhp.Lib.Codec
import HolyPhp.Runtime.StrFuns
import Mathlib.Data.List.GetD
import Mathlib.Data.UInt

/-!
# The frame codec of the WebSocket library

* `wsFrame`, `wsClosePayload`  what the server sends;
* `wsDecode`                   what it reads: `wsLen` is its length field, `wsMask` its mask;
* `ClientFrame`                a frame of RFC 6455, with a mask or without, and its bytes
                               (`ClientFrame.code`);
* `frameCodec`                 **`wsDecode` reads every frame, whatever follows it, and nothing of
                               a part of one**.

A frame that the library can hold is shorter than 2^63 bytes, the length of a string being an
`int64_t`.
-/

set_option linter.unusedVariables false

namespace HolyPhp
namespace Websocket
open HolyPhp.Std

/-! ## sending -/

/-- the last `k` base-256 digits, the highest first -/
def bigEndian : Nat → Nat → Bytes
  | 0, _ => []
  | k + 1, n => bigEndian k (n / 256) ++ [chr (n % 256 : Nat)]

/-- `ws_frame` -/
def wsFrame (payload : Bytes) (opcode : Nat) : Bytes :=
  let len := payload.length
  let head := [chr (128 ||| (opcode &&& 15) : Nat)]
  let head :=
    if len < 126 then head ++ [chr len]
    else if len < 65536 then
      head ++ [chr 126] ++ [chr (len / 256 % 256 : Nat)] ++ [chr (len % 256 : Nat)]
    else head ++ chr 127 :: bigEndian 8 len
  head ++ payload

/-- `ws_close_payload` -/
def wsClosePayload (code : Int) : Bytes := [chr ((code.tdiv 256).tmod 256), chr (code.tmod 256)]

/-! ## reading -/

/-- `ord($buf[$i])`: 0 behind the end -/
def ordAt (buf : Bytes) (i : Nat) : Nat := (buf.getD i 0).toNat

/-- the length, and where it ends -/
def wsLen (buf : Bytes) : Option (Int × Nat) :=
  let n := buf.length
  let len := ordAt buf 1 &&& 127
  if len = 126 then
    if n < 4 then none else some ((ordAt buf 2 <<< 8 ||| ordAt buf 3 : Nat), 4)
  else if len = 127 then
    if n < 10 then none
    else some (((buf.drop 2).take 8).foldl
      (fun len b => wrap64 (wrap64 (len * 256) + b.toNat)) 0, 10)
  else some (len, 2)

/-- the mask, and where it ends -/
def wsMask (buf : Bytes) (masked : Bool) (off : Nat) : Option (Bytes × Nat) :=
  if masked then
    if buf.length < off + 4 then none else some (hpbiSubstr buf off (some 4), off + 4)
  else some ([], off)

/-- the loop that takes the mask away -/
def unmask (mask payload : Bytes) (len : Int) : Bytes :=
  (List.range len.toNat).map fun i => payload.getD i 0 ^^^ mask.getD (i % 4) 0

/-- the array that `ws_decode` returns -/
structure Decoded where
  fin : Bool
  opcode : Nat
  payload : Bytes
  consumed : Int
  deriving DecidableEq

/-- `ws_decode` -/
def wsDecode (buf : Bytes) : Option Decoded :=
  let n := buf.length
  if n < 2 then none else
    let fin := decide (ordAt buf 0 &&& 128 ≠ 0)
    let opcode := ordAt buf 0 &&& 15
    let masked := decide (ordAt buf 1 &&& 128 ≠ 0)
    (wsLen buf).bind fun l =>
    (wsMask buf masked l.2).bind fun m =>
    let stop := wrap64 (m.2 + l.1)
    if (n : Int) < stop then none else
      let payload := hpbiSubstr buf m.2 (some l.1)
      let payload := if masked then unmask m.1 payload l.1 else payload
      some { fin := fin, opcode := opcode, payload := payload, consumed := stop }

/-! ## the frames of the protocol -/

structure Mask where
  k0 : UInt8
  k1 : UInt8
  k2 : UInt8
  k3 : UInt8

def Mask.bytes (k : Mask) : Bytes := [k.k0, k.k1, k.k2, k.k3]

/-- a frame that a client may send -/
structure ClientFrame where
  fin : Bool
  opcode : Nat
  mask : Option Mask
  payload : Bytes
  opcode_lt : opcode < 16
  /-- with its header it is a string -/
  fits : payload.length + 14 < 2 ^ 63

/-- the length field behind the mask bit `m`: 7, 16 or 64 bits, as few as will do -/
def lenCode (m n : Nat) : Bytes :=
  if n < 126 then [UInt8.ofNat (m + n)]
  else if n < 65536 then UInt8.ofNat (m + 126) :: bigEndian 2 n
  else UInt8.ofNat (m + 127) :: bigEndian 8 n

def flag (b : Bool) : Nat := if b then 128 else 0

namespace ClientFrame

def key (f : ClientFrame) : Bytes := (f.mask.map Mask.bytes).getD []

/-- the payload under the mask -/
def body (f : ClientFrame) : Bytes :=
  match f.mask with
  | none => f.payload
  | some k => f.payload.mapIdx fun i b => b ^^^ k.bytes.getD (i % 4) 0

/-- first byte and length -/
def head (f : ClientFrame) : Bytes :=
  UInt8.ofNat (flag f.fin + f.opcode) :: lenCode (flag f.mask.isSome) f.payload.length

def code (f : ClientFrame) : Bytes := f.head ++ f.key ++ f.body

/-- what the reader makes of it -/
def decoded (f : ClientFrame) : Decoded :=
  { fin := f.fin, opcode := f.opcode, payload := f.payload, consumed := f.code.length }

end ClientFrame

/-! ## bytes -/

theorem bigEndian_length (k n : Nat) : (bigEndian k n).length = k := by
  induction k generalizing n with
  | zero => rfl
  | succ k ih => rw [bigEndian, List.length_append, ih, List.length_singleton]

theorem toNat_chr (n : Nat) (h : n < 256) : (chr n).toNat = n := by
  have hn : ((n : Int) % 256).toNat = n := by omega
  unfold chr
  rw [hn]
  exact UInt8.toNat_ofNat_of_lt' h

/-- the loop over the eight bytes of a long length -/
theorem foldl_bigEndian {k n : Nat} (hk : n < 256 ^ k) (h : n < 2 ^ 63) :
    (bigEndian k n).foldl (fun len b => wrap64 (wrap64 (len * 256) + b.toNat)) 0 = n := by
  induction k generalizing n with
  | zero =>
    rw [Nat.pow_zero, Nat.lt_one_iff] at hk
    rw [hk]
    rfl
  | succ k ih =>
    have hd : n / 256 < 256 ^ k := Nat.div_lt_of_lt_mul (by rwa [Nat.pow_succ'] at hk)
    have hm : ((n / 256 : Nat) : Int) * 256 + (n % 256 : Nat) = n := by omega
    have hw : wrap64 ((n / 256 : Nat) * 256) = (n / 256 : Nat) * 256 :=
      wrap64_of_lt (by omega) (by omega)
    rw [bigEndian, List.foldl_append, ih hd (by omega), List.foldl_cons, List.foldl_nil,
      toNat_chr _ (Nat.mod_lt _ (by decide)), hw, hm]
    exact wrap64_of_lt (by omega) (by omega)

theorem flag_and (b : Bool) {v : Nat} (h : v < 128) :
    (flag b + v) &&& 127 = v ∧ decide ((flag b + v) &&& 128 ≠ 0) = b := by
  have hall : ∀ v : Fin 128, ∀ b, (flag b + v) &&& 127 = v.1 ∧
      decide ((flag b + v) &&& 128 ≠ 0) = b := by decide +kernel
  exact hall ⟨v, h⟩ b

theorem flag_and_opcode (b : Bool) {v : Nat} (h : v < 16) : (flag b + v) &&& 15 = v := by
  have hall : ∀ v : Fin 16, ∀ b, (flag b + v) &&& 15 = v.1 := by decide
  exact hall ⟨v, h⟩ b

theorem toNat_flag (b : Bool) {v : Nat} (h : v < 128) :
    (UInt8.ofNat (flag b + v)).toNat = flag b + v := by
  apply UInt8.toNat_ofNat_of_lt'
  cases b
  · show 0 + v < 256
    omega
  · show 128 + v < 256
    omega

theorem ordAt_begin {p l : Bytes} (h : p <+: l) {i : Nat} (hi : i < p.length) :
    ordAt p i = ordAt l i := by
  obtain ⟨t, rfl⟩ := h
  unfold ordAt
  rw [List.getD_append _ _ _ _ hi]

/-! ## the length field -/

theorem lenCode_length (m n : Nat) :
    (lenCode m n).length = if n < 126 then 1 else if n < 65536 then 3 else 9 := by
  unfold lenCode
  split
  · rfl
  · split
    · rw [List.length_cons, bigEndian_length]
    · rw [List.length_cons, bigEndian_length]

theorem lenCode_head (b : Bool) (n : Nat) : ∃ v e, v < 128 ∧
    lenCode (flag b) n = UInt8.ofNat (flag b + v) :: e := by
  unfold lenCode
  split
  · exact ⟨n, [], by omega, rfl⟩
  · split
    · exact ⟨126, bigEndian 2 n, by decide, rfl⟩
    · exact ⟨127, bigEndian 8 n, by decide, rfl⟩

/-- two bytes -/
theorem ordAt_bigEndian {n : Nat} (h : n < 65536) (x y : UInt8) (t : Bytes) :
    ordAt (x :: y :: (bigEndian 2 n ++ t)) 2 <<< 8 |||
      ordAt (x :: y :: (bigEndian 2 n ++ t)) 3 = n := by
  show (chr (n / 256 % 256 : Nat)).toNat <<< 8 ||| (chr (n % 256 : Nat)).toNat = n
  rw [toNat_chr _ (Nat.mod_lt _ (by decide)), toNat_chr _ (Nat.mod_lt _ (by decide)),
    ← Nat.shiftLeft_add_eq_or_of_lt (Nat.mod_lt n (by decide : 0 < 2 ^ 8)), Nat.shiftLeft_eq]
  omega

/-- the seven bits of the second byte -/
theorem ordAt_seven {b0 : UInt8} {b : Bool} {v : Nat} {t p : Bytes} (hv : v < 128)
    (hp : p <+: b0 :: UInt8.ofNat (flag b + v) :: t) (h2 : 2 ≤ p.length) :
    ordAt p 1 &&& 127 = v := by
  rw [ordAt_begin hp h2]
  show (UInt8.ofNat (flag b + v)).toNat &&& 127 = v
  rw [toNat_flag b hv]
  exact (flag_and b hv).1

/-- **The length field** of a frame of which `p` has come. -/
theorem wsLen_eq {b0 : UInt8} {b : Bool} {n : Nat} {t p : Bytes} (hn : n < 2 ^ 63)
    (hp : p <+: b0 :: (lenCode (flag b) n ++ t)) (h2 : 2 ≤ p.length) :
    wsLen p = if p.length < 1 + (lenCode (flag b) n).length then none
      else some ((n : Int), 1 + (lenCode (flag b) n).length) := by
  rw [lenCode_length]
  by_cases h7 : n < 126
  · rw [lenCode, if_pos h7] at hp
    rw [wsLen, ordAt_seven (by omega) hp h2, if_neg (by omega), if_neg (by omega), if_pos h7,
      if_neg (by omega)]
  · by_cases h16 : n < 65536
    · rw [lenCode, if_neg h7, if_pos h16] at hp
      rw [wsLen, ordAt_seven (by decide) hp h2, if_pos rfl, if_neg h7, if_pos h16]
      by_cases h4 : p.length < 4
      · rw [if_pos h4, if_pos h4]
      · rw [if_neg h4, if_neg h4, ordAt_begin hp (by omega), ordAt_begin hp (by omega),
          List.cons_append, ordAt_bigEndian h16]
    · rw [lenCode, if_neg h7, if_neg h16] at hp
      rw [wsLen, ordAt_seven (by decide) hp h2, if_neg (by decide), if_pos rfl, if_neg h7,
        if_neg h16]
      by_cases h10 : p.length < 10
      · rw [if_pos h10, if_pos h10]
      · obtain ⟨u, hu⟩ := hp
        have hd : p.drop 2 ++ u = bigEndian 8 n ++ t := by
          rw [← List.drop_append_of_le_length h2, hu]
          rfl
        have he : (p.drop 2).take 8 = bigEndian 8 n := by
          have ht := congrArg (List.take 8) hd
          rwa [List.take_append_of_le_length (by rw [List.length_drop]; omega),
            List.take_append_of_le_length (by rw [bigEndian_length]),
            List.take_of_length_le (l := bigEndian 8 n) (by rw [bigEndian_length])] at ht
        rw [if_neg h10, if_neg h10, he, foldl_bigEndian (by omega) hn]

/-! ## the mask -/

theorem ClientFrame.key_length (f : ClientFrame) :
    f.key.length = if f.mask.isSome then 4 else 0 := by
  unfold ClientFrame.key
  cases f.mask <;> rfl

theorem ClientFrame.body_length (f : ClientFrame) : f.body.length = f.payload.length := by
  unfold ClientFrame.body
  cases f.mask with
  | none => rfl
  | some k => exact List.length_mapIdx

/-- **The mask** of a frame of which `p` has come, the header with it. -/
theorem wsMask_eq {f : ClientFrame} {h t p : Bytes} (hp : p <+: h ++ (f.key ++ t))
    (hh : h.length ≤ p.length) (hs : h.length ≤ 10) :
    wsMask p f.mask.isSome h.length = if p.length < h.length + f.key.length then none
      else some (f.key, h.length + f.key.length) := by
  have hk := f.key_length
  unfold wsMask
  cases hm : f.mask.isSome with
  | false =>
    rw [hm, if_neg Bool.false_ne_true] at hk
    rw [if_neg Bool.false_ne_true, hk, if_neg (by omega), List.eq_nil_of_length_eq_zero hk]
    rfl
  | true =>
    rw [hm, if_pos rfl] at hk
    rw [if_pos rfl, hk]
    by_cases h4 : p.length < h.length + 4
    · rw [if_pos h4, if_pos h4]
    · obtain ⟨u, hu⟩ := hp
      have hd : p.drop h.length ++ u = f.key ++ t := by
        rw [← List.drop_append_of_le_length hh, hu, List.drop_left]
      have he : (p.drop h.length).take 4 = f.key := by
        have ht := congrArg (List.take 4) hd
        rwa [List.take_append_of_le_length (by rw [List.length_drop]; omega),
          List.take_append_of_le_length (by omega),
          List.take_of_length_le (l := f.key) (by omega)] at ht
      rw [if_neg h4, if_neg h4]
      show some (hpbiSubstr p h.length (some (4 : Nat)), _) = _
      rw [hpbiSubstr_take (by omega) (by omega), he]

/-- the loop undoes the mask -/
theorem unmask_body (k : Mask) (payload : Bytes) :
    unmask k.bytes (payload.mapIdx fun i b => b ^^^ k.bytes.getD (i % 4) 0) payload.length =
      payload := by
  apply List.ext_getElem
  · simp [unmask]
  · intro i h1 h2
    simp [unmask, h2, UInt8.xor_assoc]

/-! ## the frame -/

namespace ClientFrame
variable (f : ClientFrame)

theorem head_length_le : f.head.length ≤ 10 := by
  rw [head, List.length_cons, lenCode_length]
  split
  · decide
  · split <;> decide

theorem two_le_head : 2 ≤ f.head.length := by
  rw [head, List.length_cons, lenCode_length]
  split
  · decide
  · split <;> decide

theorem key_le : f.key.length ≤ 4 := by
  rw [key_length]
  split <;> decide

theorem code_length : f.code.length = f.head.length + f.key.length + f.payload.length := by
  rw [code, List.length_append, List.length_append, body_length]

theorem code_lt : f.code.length < 2 ^ 63 := by
  have hh := f.head_length_le
  have hk := f.key_le
  have hf := f.fits
  rw [code_length]
  omega

end ClientFrame

theorem payload_eq (f : ClientFrame) :
    (if f.mask.isSome then unmask f.key f.body f.payload.length else f.body) = f.payload := by
  unfold ClientFrame.key ClientFrame.body
  cases f.mask with
  | none => exact if_neg Bool.false_ne_true
  | some k =>
    rw [Option.isSome_some, if_pos rfl]
    exact unmask_body k f.payload

/-- the bits of the first two bytes -/
theorem wsDecode_bits {f : ClientFrame} {t p : Bytes} (hp : p <+: f.head ++ t)
    (h2 : 2 ≤ p.length) :
    decide (ordAt p 0 &&& 128 ≠ 0) = f.fin ∧ ordAt p 0 &&& 15 = f.opcode ∧
      decide (ordAt p 1 &&& 128 ≠ 0) = f.mask.isSome := by
  have hop : f.opcode < 128 := Nat.lt_trans f.opcode_lt (by decide)
  have h0 : ordAt p 0 = flag f.fin + f.opcode := by
    rw [ordAt_begin hp (by omega)]
    exact toNat_flag f.fin hop
  obtain ⟨v, e, hv, he⟩ := lenCode_head f.mask.isSome f.payload.length
  have h1 : ordAt p 1 = flag f.mask.isSome + v := by
    rw [ordAt_begin hp h2, ClientFrame.head, he]
    exact toNat_flag f.mask.isSome hv
  rw [h0, h1]
  exact ⟨(flag_and f.fin hop).2, flag_and_opcode f.fin f.opcode_lt, (flag_and _ hv).2⟩

/-- **A frame of which `p` has come** is read when it is all there. -/
theorem wsDecode_eq {f : ClientFrame} {t p : Bytes} (hp : p <+: f.code ++ t) :
    wsDecode p = if p.length < f.code.length then none else some f.decoded := by
  have hlen := f.code_length
  have h2 := f.two_le_head
  by_cases hp2 : p.length < 2
  · rw [wsDecode, if_pos hp2, if_pos (by omega)]
  have hcode : f.code ++ t = f.head ++ (f.key ++ (f.body ++ t)) := by
    rw [ClientFrame.code, List.append_assoc, List.append_assoc]
  rw [hcode] at hp
  have hn : f.payload.length < 2 ^ 63 := Nat.lt_of_le_of_lt (Nat.le_add_right _ 14) f.fits
  have hhead : 1 + (lenCode (flag f.mask.isSome) f.payload.length).length = f.head.length :=
    Nat.add_comm _ _
  obtain ⟨hfin, hop, hmask⟩ := wsDecode_bits hp (Nat.le_of_not_lt hp2)
  have hhp : p <+: UInt8.ofNat (flag f.fin + f.opcode) ::
      (lenCode (flag f.mask.isSome) f.payload.length ++ (f.key ++ (f.body ++ t))) := hp
  have hl := wsLen_eq hn hhp (Nat.le_of_not_lt hp2)
  rw [hhead] at hl
  simp only [wsDecode, if_neg hp2, hfin, hop, hmask, hl]
  by_cases hh : p.length < f.head.length
  · rw [if_pos hh, if_pos (by omega), Option.bind_none]
  have hm := wsMask_eq hp (Nat.le_of_not_lt hh) f.head_length_le
  rw [if_neg hh, Option.bind_some, hm]
  by_cases hk : p.length < f.head.length + f.key.length
  · rw [if_pos hk, if_pos (by omega), Option.bind_none]
  have hw : wrap64 ((f.head.length + f.key.length : Nat) + f.payload.length) = f.code.length := by
    have hlt := f.code_lt
    rw [wrap64_of_lt (by omega) (by omega)]
    omega
  rw [if_neg hk, Option.bind_some, hw]
  by_cases hc : p.length < f.code.length
  · rw [if_pos (Int.ofNat_lt.2 hc), if_pos hc]
  have hbody : hpbiSubstr p (f.head.length + f.key.length : Nat) (some f.payload.length) =
      f.body := by
    have hlt := f.code_lt
    rw [hpbiSubstr_take (by omega) (by omega)]
    obtain ⟨u, hu⟩ := hp
    have hd : p.drop (f.head.length + f.key.length) ++ u = f.body ++ t := by
      rw [← List.drop_append_of_le_length (by omega), hu, ← List.append_assoc,
        ← List.length_append, List.drop_left]
    have ht := congrArg (List.take f.payload.length) hd
    rwa [List.take_append_of_le_length (by rw [List.length_drop]; omega),
      List.take_append_of_le_length (by rw [f.body_length]),
      List.take_of_length_le (l := f.body) (by rw [f.body_length])] at ht
  rw [if_neg fun h => hc (Int.ofNat_lt.1 h), if_neg hc, hbody, payload_eq]
  rfl

/-- the frames of the protocol, read by `wsDecode` -/
def frameCodec : Codec ClientFrame UInt8 Decoded where
  enc := ClientFrame.code
  dec buf := (wsDecode buf).map fun d => (d, d.consumed.toNat)
  view := ClientFrame.decoded
  enc_ne f h := List.cons_ne_nil _ _ (List.append_eq_nil_iff.1 (List.append_eq_nil_iff.1 h).1).1
  dec_enc f t := by
    have hlt : ¬ (f.code ++ t).length < f.code.length := by
      rw [List.length_append]
      omega
    rw [wsDecode_eq (List.prefix_refl _), if_neg hlt]
    rfl
  dec_part f p hp hne := by
    have hlt : p.length < f.code.length :=
      Nat.lt_of_le_of_ne hp.length_le fun he => hne (hp.eq_of_length he)
    rw [wsDecode_eq (t := []) (by rwa [List.append_nil]), if_pos hlt]
    rfl
  dec_nil := rfl

end Websocket
end HolyPhp
