import HolyPhp.Runtime.Value
import Mathlib.Data.List.TakeWhile

/-!
# Base64

The two encoders and the decoder.  A `Buf` or a `char` array is the list of the bytes written.

* `hpB64Encode`      three bytes in a round, the rest after the loop;
* `hpB64EncodeRaw`   every round writes four characters, `=` where the input has ended;
* `hpB64Decode`      six bits at a time into a 32-bit accumulator, whose upper bits are what the
                     earlier characters left there.

**`base64_law`**: the decoder inverts the encoder, the text has its length and form, and the
encoders agree.
-/

set_option autoImplicit false

namespace HolyPhp
namespace Std

/-- `tab`, `tbl` -/
def b64Tab : Bytes := ascii "ABCDEFGHIJKLMNOPQRSTUVWXYZabcdefghijklmnopqrstuvwxyz0123456789+/"

/-- `tab[v & 63]` -/
def b64Char (v : UInt32) : UInt8 := b64Tab.getD (v &&& 63).toNat 0

/-- `b64_val` -/
def b64Val (c : UInt8) : Int :=
  if 65 ≤ c ∧ c ≤ 90 then c.toNat - 65
  else if 97 ≤ c ∧ c ≤ 122 then c.toNat - 97 + 26
  else if 48 ≤ c ∧ c ≤ 57 then c.toNat - 48 + 52
  else if c = 43 then 62
  else if c = 47 then 63
  else -1

/-- the text that the loop and the `if` behind it write -/
def b64Groups : Bytes → Bytes
  | a :: b :: c :: s =>
    let n := (a.toUInt32 <<< 16) ||| (b.toUInt32 <<< 8) ||| c.toUInt32
    b64Char (n >>> 18) :: b64Char (n >>> 12) :: b64Char (n >>> 6) :: b64Char n :: b64Groups s
  | [a, b] =>
    let n := (a.toUInt32 <<< 16) ||| (b.toUInt32 <<< 8)
    [b64Char (n >>> 18), b64Char (n >>> 12), b64Char (n >>> 6), 61]
  | [a] =>
    let n := a.toUInt32 <<< 16
    [b64Char (n >>> 18), b64Char (n >>> 12), 61, 61]
  | [] => []

/-- the text goes through `hp_str_lit`, which stops at a NUL -/
def hpB64Encode (s : Bytes) : Bytes := (b64Groups s).takeWhile fun c => c ≠ 0

/-- the characters in front of the NUL that ends `out` -/
def hpB64EncodeRaw : Bytes → Bytes
  | [] => []
  | a :: s =>
    let v : UInt32 := a.toUInt32 <<< 16
    let v := if 1 ≤ s.length then v ||| ((s.getD 0 0).toUInt32 <<< 8) else v
    let v := if 2 ≤ s.length then v ||| (s.getD 1 0).toUInt32 else v
    b64Char (v >>> 18) :: b64Char (v >>> 12) ::
      (if 1 ≤ s.length then b64Char (v >>> 6) else 61) ::
      (if 2 ≤ s.length then b64Char v else 61) :: hpB64EncodeRaw (s.drop 2)
termination_by s => s.length
decreasing_by simp only [List.length_drop, List.length_cons]; omega

/-- the loop of `hp_b64_decode` -/
def b64DecodeFrom (acc : UInt32) (bits : Nat) : Bytes → Bytes
  | [] => []
  | c :: s =>
    if b64Val c < 0 then b64DecodeFrom acc bits s
    else
      let acc := (acc <<< 6) ||| UInt32.ofNat (b64Val c).toNat
      let bits := bits + 6
      if 8 ≤ bits then
        ((acc >>> UInt32.ofNat (bits - 8)) &&& 255).toUInt8 :: b64DecodeFrom acc (bits - 8) s
      else b64DecodeFrom acc bits s

def hpB64Decode (s : Bytes) : Bytes := b64DecodeFrom 0 0 s

def hpbiBase64Encode (s : Bytes) : Bytes := hpB64Encode s

def hpbiBase64Decode (s : Bytes) : Bytes := hpB64Decode s

/-! ## the alphabet -/

theorem sextet_lt (v : UInt32) : (v &&& 63).toNat < 64 := by
  rw [UInt32.toNat_and]
  exact Nat.and_lt_two_pow v.toNat (show 63 < 2 ^ 6 by decide)

theorem sextet_toNat (v : UInt32) : (v &&& 63).toNat = v.toNat % 64 := by
  rw [UInt32.toNat_and]
  exact Nat.and_two_pow_sub_one_eq_mod v.toNat 6

theorem b64Tab_eq : b64Tab =
    [65, 66, 67, 68, 69, 70, 71, 72, 73, 74, 75, 76, 77, 78, 79, 80, 81, 82, 83, 84, 85, 86, 87,
      88, 89, 90, 97, 98, 99, 100, 101, 102, 103, 104, 105, 106, 107, 108, 109, 110, 111, 112,
      113, 114, 115, 116, 117, 118, 119, 120, 121, 122, 48, 49, 50, 51, 52, 53, 54, 55, 56, 57,
      43, 47] := by
  decide

/-- the places of the table, and what `b64_val` gives there -/
theorem b64Val_tab : ∀ i < 64, b64Tab.getD i 0 ∈ b64Tab ∧ b64Val (b64Tab.getD i 0) = i := by
  rw [b64Tab_eq]
  decide

theorem b64Char_mem (v : UInt32) : b64Char v ∈ b64Tab := (b64Val_tab _ (sextet_lt v)).1

theorem b64Val_char (v : UInt32) : b64Val (b64Char v) = (v.toNat % 64 : Nat) := by
  rw [← sextet_toNat]
  exact (b64Val_tab _ (sextet_lt v)).2

theorem b64Tab_ne : ∀ c ∈ b64Tab, c ≠ 0 := by
  intro c hc
  have h : b64Tab.all (fun c => c != 0) = true := by
    rw [b64Tab_eq]
    decide
  simpa using List.all_eq_true.mp h c hc

/-! ## a round of the encoder, by the numbers of its characters -/

/-- a number of `n` bits, moved within the word -/
theorem toNat_shiftLeft {x k : UInt32} {n m : Nat} (hx : x.toNat < 2 ^ n) (hk : k.toNat = m)
    (hn : 0 < n) (hm : n + m ≤ 32) : (x <<< k).toNat = x.toNat * 2 ^ m := by
  rw [UInt32.toNat_shiftLeft, hk, Nat.mod_eq_of_lt (show m < 32 by omega), Nat.shiftLeft_eq]
  apply Nat.mod_eq_of_lt
  calc x.toNat * 2 ^ m < 2 ^ n * 2 ^ m := Nat.mul_lt_mul_of_pos_right hx (Nat.two_pow_pos m)
    _ = 2 ^ (n + m) := (Nat.pow_add 2 n m).symm
    _ ≤ 2 ^ 32 := Nat.pow_le_pow_right (by decide) hm

theorem toNat_shift (a : UInt8) {k : UInt32} {m : Nat} (hk : k.toNat = m) (hm : m ≤ 16) :
    (a.toUInt32 <<< k).toNat = a.toNat * 2 ^ m :=
  toNat_shiftLeft (x := a.toUInt32) (n := 8) a.toNat_lt hk (by decide) (by omega)

theorem or_toNat {x y : UInt32} {m : Nat} (k : Nat) (hx : x.toNat = m * 2 ^ k)
    (hy : y.toNat < 2 ^ k) : (x ||| y).toNat = m * 2 ^ k + y.toNat := by
  rw [UInt32.toNat_or, hx, ← Nat.shiftLeft_eq, ← Nat.shiftLeft_add_eq_or_of_lt hy]

theorem one_toNat (a : UInt8) : (a.toUInt32 <<< 16).toNat = a.toNat * 65536 :=
  toNat_shift a (m := 16) rfl (Nat.le_refl _)

theorem two_toNat (a b : UInt8) :
    ((a.toUInt32 <<< 16) ||| (b.toUInt32 <<< 8)).toNat = a.toNat * 65536 + b.toNat * 256 := by
  have hb := b.toNat_lt
  have h8 : (b.toUInt32 <<< 8).toNat = b.toNat * 256 := toNat_shift b (m := 8) rfl (by decide)
  rw [or_toNat 16 (one_toNat a) (by omega), h8]
  rfl

theorem three_toNat (a b c : UInt8) :
    ((a.toUInt32 <<< 16) ||| (b.toUInt32 <<< 8) ||| c.toUInt32).toNat =
      a.toNat * 65536 + b.toNat * 256 + c.toNat := by
  have hc := c.toNat_lt
  have h : ((a.toUInt32 <<< 16) ||| (b.toUInt32 <<< 8)).toNat =
      (a.toNat * 256 + b.toNat) * 2 ^ 8 := by
    rw [two_toNat]
    omega
  rw [or_toNat 8 h (by rw [UInt8.toNat_toUInt32]; omega), UInt8.toNat_toUInt32]
  omega

theorem shr_toNat (n : UInt32) {k : UInt32} {m : Nat} (hk : k.toNat = m) (hm : m < 32) :
    (n >>> k).toNat = n.toNat / 2 ^ m := by
  rw [UInt32.toNat_shiftRight, hk, Nat.mod_eq_of_lt hm, Nat.shiftRight_eq_div_pow]

/-! ## the decoder -/

/-- a character of the alphabet: what is lost of the accumulator stands above bit 32 -/
theorem acc_toNat (acc v : UInt32) :
    ((acc <<< 6) ||| UInt32.ofNat (b64Val (b64Char v)).toNat).toNat =
      (acc.toNat * 64 + v.toNat % 64) % 2 ^ 32 := by
  have hv : (UInt32.ofNat (b64Val (b64Char v)).toNat).toNat = v.toNat % 64 := by
    rw [b64Val_char, Int.toNat_natCast, UInt32.toNat_ofNat']
    omega
  have hacc : (acc <<< 6).toNat = (acc.toNat % 2 ^ 26) * 2 ^ 6 := by
    rw [UInt32.toNat_shiftLeft]
    show (acc.toNat <<< 6) % 2 ^ 32 = _
    rw [Nat.shiftLeft_eq]
    omega
  rw [or_toNat 6 hacc (by omega), hv]
  omega

theorem decode_char (acc v : UInt32) (bits : Nat) (s : Bytes) :
    ∃ acc' : UInt32, acc'.toNat = (acc.toNat * 64 + v.toNat % 64) % 2 ^ 32 ∧
      b64DecodeFrom acc bits (b64Char v :: s) =
        if 8 ≤ bits + 6 then
          ((acc' >>> UInt32.ofNat (bits + 6 - 8)) &&& 255).toUInt8 ::
            b64DecodeFrom acc' (bits + 6 - 8) s
        else b64DecodeFrom acc' (bits + 6) s := by
  refine ⟨_, acc_toNat acc v, ?_⟩
  have h : ¬ b64Val (b64Char v) < 0 := by
    rw [b64Val_char]
    omega
  rw [b64DecodeFrom, if_neg h]

/-- the byte that the decoder writes -/
theorem byte_eq {acc : UInt32} {m : Nat} {a : UInt8} (hm : m < 32)
    (h : acc.toNat / 2 ^ m % 256 = a.toNat) :
    ((acc >>> UInt32.ofNat m) &&& 255).toUInt8 = a := by
  have hk : (UInt32.ofNat m).toNat = m := by
    rw [UInt32.toNat_ofNat']
    omega
  apply UInt8.toNat_inj.mp
  rw [UInt32.toNat_toUInt8, UInt32.toNat_and, shr_toNat acc hk hm, ← h]
  show (acc.toNat / 2 ^ m &&& 255) % 256 = _
  rw [Nat.and_two_pow_sub_one_eq_mod _ 8]
  exact Nat.mod_mod_of_dvd _ (Nat.dvd_refl _)

/-- `=` -/
theorem decode_pad (acc : UInt32) (bits : Nat) (s : Bytes) :
    b64DecodeFrom acc bits (61 :: s) = b64DecodeFrom acc bits s := by
  rw [b64DecodeFrom]
  exact if_pos (by decide)

theorem decode_three (a b c : UInt8) (acc : UInt32) (s : Bytes) :
    ∃ acc', b64DecodeFrom acc 0 (b64Groups (a :: b :: c :: s)) =
      a :: b :: c :: b64DecodeFrom acc' 0 (b64Groups s) := by
  have hn := three_toNat a b c
  have ha := a.toNat_lt
  have hb := b.toNat_lt
  have hc := c.toNat_lt
  rw [b64Groups]
  generalize (a.toUInt32 <<< 16) ||| (b.toUInt32 <<< 8) ||| c.toUInt32 = n at hn
  have h18 := shr_toNat n (k := 18) (m := 18) rfl (by decide)
  have h12 := shr_toNat n (k := 12) (m := 12) rfl (by decide)
  have h6 := shr_toNat n (k := 6) (m := 6) rfl (by decide)
  obtain ⟨a1, e1, h1⟩ := decode_char acc (n >>> 18) 0
    (b64Char (n >>> 12) :: b64Char (n >>> 6) :: b64Char n :: b64Groups s)
  obtain ⟨a2, e2, h2⟩ := decode_char a1 (n >>> 12) 6
    (b64Char (n >>> 6) :: b64Char n :: b64Groups s)
  obtain ⟨a3, e3, h3⟩ := decode_char a2 (n >>> 6) 4 (b64Char n :: b64Groups s)
  obtain ⟨a4, e4, h4⟩ := decode_char a3 n 2 (b64Groups s)
  rw [h18] at e1
  rw [h12] at e2
  rw [h6] at e3
  have hA : ((a2 >>> UInt32.ofNat 4) &&& 255).toUInt8 = a := byte_eq (by decide) (by omega)
  have hB : ((a3 >>> UInt32.ofNat 2) &&& 255).toUInt8 = b := byte_eq (by decide) (by omega)
  have hC : ((a4 >>> UInt32.ofNat 0) &&& 255).toUInt8 = c := byte_eq (by decide) (by omega)
  refine ⟨a4, ?_⟩
  rw [h1, if_neg (by decide), h2, if_pos (by decide), h3, if_pos (by decide), h4,
    if_pos (by decide)]
  show _ :: _ :: _ :: _ = _
  rw [hA, hB, hC]

theorem decode_two (a b : UInt8) (acc : UInt32) :
    b64DecodeFrom acc 0 (b64Groups [a, b]) = [a, b] := by
  have hn := two_toNat a b
  have ha := a.toNat_lt
  have hb := b.toNat_lt
  rw [b64Groups]
  generalize (a.toUInt32 <<< 16) ||| (b.toUInt32 <<< 8) = n at hn
  have h18 := shr_toNat n (k := 18) (m := 18) rfl (by decide)
  have h12 := shr_toNat n (k := 12) (m := 12) rfl (by decide)
  have h6 := shr_toNat n (k := 6) (m := 6) rfl (by decide)
  obtain ⟨a1, e1, h1⟩ := decode_char acc (n >>> 18) 0
    [b64Char (n >>> 12), b64Char (n >>> 6), 61]
  obtain ⟨a2, e2, h2⟩ := decode_char a1 (n >>> 12) 6 [b64Char (n >>> 6), 61]
  obtain ⟨a3, e3, h3⟩ := decode_char a2 (n >>> 6) 4 [61]
  rw [h18] at e1
  rw [h12] at e2
  rw [h6] at e3
  have hA : ((a2 >>> UInt32.ofNat 4) &&& 255).toUInt8 = a := byte_eq (by decide) (by omega)
  have hB : ((a3 >>> UInt32.ofNat 2) &&& 255).toUInt8 = b := byte_eq (by decide) (by omega)
  rw [h1, if_neg (by decide), h2, if_pos (by decide), h3, if_pos (by decide), decode_pad]
  show [_, _] = _
  rw [hA, hB]

theorem decode_one (a : UInt8) (acc : UInt32) : b64DecodeFrom acc 0 (b64Groups [a]) = [a] := by
  have hn := one_toNat a
  have ha := a.toNat_lt
  rw [b64Groups]
  generalize a.toUInt32 <<< 16 = n at hn
  have h18 := shr_toNat n (k := 18) (m := 18) rfl (by decide)
  have h12 := shr_toNat n (k := 12) (m := 12) rfl (by decide)
  obtain ⟨a1, e1, h1⟩ := decode_char acc (n >>> 18) 0 [b64Char (n >>> 12), 61, 61]
  obtain ⟨a2, e2, h2⟩ := decode_char a1 (n >>> 12) 6 [61, 61]
  rw [h18] at e1
  rw [h12] at e2
  have hA : ((a2 >>> UInt32.ofNat 4) &&& 255).toUInt8 = a := byte_eq (by decide) (by omega)
  rw [h1, if_neg (by decide), h2, if_pos (by decide), decode_pad, decode_pad]
  show [_] = _
  rw [hA]

/-- whatever the accumulator holds -/
theorem decode_groups (s : Bytes) : ∀ acc, b64DecodeFrom acc 0 (b64Groups s) = s := by
  induction s using b64Groups.induct with
  | case1 a b c s ih =>
    intro acc
    obtain ⟨acc', h⟩ := decode_three a b c acc s
    rw [h, ih acc']
  | case2 a b => exact decode_two a b
  | case3 a => exact decode_one a
  | case4 => exact fun acc => rfl

/-! ## the text -/

/-- characters of the alphabet, then as many `=` as bytes are missing in the last group -/
def Padded (len : Nat) (t : Bytes) : Prop :=
  ∃ body, t = body ++ List.replicate ((3 - len % 3) % 3) 61 ∧ ∀ c ∈ body, c ∈ b64Tab

theorem groups_padded (s : Bytes) : Padded s.length (b64Groups s) := by
  induction s using b64Groups.induct with
  | case1 a b c s ih =>
    obtain ⟨body, hbody, hmem⟩ := ih
    have hlen : (a :: b :: c :: s).length % 3 = s.length % 3 := Nat.add_mod_right s.length 3
    rw [b64Groups]
    generalize (a.toUInt32 <<< 16) ||| (b.toUInt32 <<< 8) ||| c.toUInt32 = n
    refine ⟨b64Char (n >>> 18) :: b64Char (n >>> 12) :: b64Char (n >>> 6) :: b64Char n :: body,
      ?_, ?_⟩
    · rw [hbody, hlen]
      rfl
    · intro x hx
      simp only [List.mem_cons] at hx
      rcases hx with rfl | rfl | rfl | rfl | hx
      · exact b64Char_mem _
      · exact b64Char_mem _
      · exact b64Char_mem _
      · exact b64Char_mem _
      · exact hmem x hx
  | case2 a b =>
    rw [b64Groups]
    refine ⟨[_, _, _], rfl, ?_⟩
    simp [b64Char_mem]
  | case3 a =>
    rw [b64Groups]
    refine ⟨[_, _], rfl, ?_⟩
    simp [b64Char_mem]
  | case4 => exact ⟨[], rfl, by simp⟩

theorem groups_length (s : Bytes) : (b64Groups s).length = 4 * ((s.length + 2) / 3) := by
  induction s using b64Groups.induct with
  | case1 a b c s ih =>
    rw [b64Groups]
    simp only [List.length_cons, ih]
    omega
  | case2 a b => simp [b64Groups]
  | case3 a => simp [b64Groups]
  | case4 => rfl

/-- no NUL stops `hp_str_lit` -/
theorem b64Encode_eq (s : Bytes) : hpB64Encode s = b64Groups s := by
  obtain ⟨body, hbody, hmem⟩ := groups_padded s
  unfold hpB64Encode
  apply List.takeWhile_eq_self_iff.mpr
  intro c hc
  rw [hbody, List.mem_append] at hc
  rcases hc with hc | hc
  · simpa using b64Tab_ne c (hmem c hc)
  · rw [List.eq_of_mem_replicate hc]
    rfl

/-- the second encoder, round by round -/
theorem b64EncodeRaw_eq (s : Bytes) : hpB64EncodeRaw s = b64Groups s := by
  induction s using b64Groups.induct with
  | case1 a b c s ih =>
    rw [hpB64EncodeRaw, b64Groups, ← ih]
    simp
  | case2 a b => simp [hpB64EncodeRaw, b64Groups]
  | case3 a => simp [hpB64EncodeRaw, b64Groups]
  | case4 => simp [hpB64EncodeRaw, b64Groups]

/-- **Base64**: the round trip, the form of the text, and the two encoders. -/
theorem base64_law (s : Bytes) :
    hpbiBase64Decode (hpbiBase64Encode s) = s ∧
    (hpbiBase64Encode s).length = 4 * ((s.length + 2) / 3) ∧
    Padded s.length (hpbiBase64Encode s) ∧
    hpB64EncodeRaw s = hpB64Encode s := by
  have he := b64Encode_eq s
  refine ⟨?_, ?_, ?_, ?_⟩
  · show b64DecodeFrom 0 0 (hpB64Encode s) = s
    rw [he, decode_groups]
  · show (hpB64Encode s).length = _
    rw [he, groups_length]
  · show Padded s.length (hpB64Encode s)
    rw [he]
    exact groups_padded s
  · rw [he, b64EncodeRaw_eq]

/-- `"Ma"` -/
example : hpbiBase64Encode [77, 97] = ascii "TWE=" := by decide

end Std
end HolyPhp
