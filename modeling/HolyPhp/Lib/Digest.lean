import Mathlib.Data.List.Basic
import Mathlib.Tactic.NormNum

/-!
# Message digests

MD5, SHA-1 and SHA-256 as their standards state them, on messages of whole bytes, and HMAC over any
of them.

* `pad`, `chain`                the padded message, and the compression of its blocks;
* `sha1`, `sha256`, `md5`       a schedule of words, a round, a chaining value;
* `hmac`                        the keyed hash.

`zeros_least` says that the padding is minimal; `scan_set` says when an array that is filled
from the left holds a recurrence.
-/

set_option autoImplicit false

namespace Digest

abbrev Word := BitVec 32

/-! ## padding and blocks -/

/-- `n` bytes of `v`, the most significant one first -/
def bigEndian (n v : Nat) : List UInt8 :=
  (List.range n).map fun i => UInt8.ofNat (v / 256 ^ (n - 1 - i))

def littleEndian (n v : Nat) : List UInt8 := (List.range n).map fun i => UInt8.ofNat (v / 256 ^ i)

/-- the zero bytes behind the mark of a message of `len` bytes -/
def zeros (len : Nat) : Nat := (64 - (len + 9) % 64) % 64

/-- `length` writes the length in bits -/
def pad (length : Nat → List UInt8) (m : List UInt8) : List UInt8 :=
  m ++ [0x80] ++ List.replicate (zeros m.length) 0 ++ length (8 * m.length)

def beWord (a b c d : UInt8) : Word := a.toBitVec ++ b.toBitVec ++ c.toBitVec ++ d.toBitVec

def leWord (a b c d : UInt8) : Word := beWord d c b a

/-- the word at the byte `o` -/
def wordAt (w : UInt8 → UInt8 → UInt8 → UInt8 → Word) (p : List UInt8) (o : Nat) : Word :=
  w (p.getD o 0) (p.getD (o + 1) 0) (p.getD (o + 2) 0) (p.getD (o + 3) 0)

/-- the compression of the blocks of `p`, one behind the other -/
def chain {S : Type} (compress : S → (Nat → Word) → S)
    (w : UInt8 → UInt8 → UInt8 → UInt8 → Word) (h : S) (p : List UInt8) : S :=
  (List.range (p.length / 64)).foldl
    (fun h i => compress h fun j => wordAt w p (64 * i + 4 * j)) h

def ch (x y z : Word) : Word := (x &&& y) ^^^ (~~~x &&& z)

def maj (x y z : Word) : Word := (x &&& y) ^^^ (x &&& z) ^^^ (y &&& z)

def parity (x y z : Word) : Word := x ^^^ y ^^^ z

/-! ## SHA-1 -/

structure Sha1 where
  a : Word
  b : Word
  c : Word
  d : Word
  e : Word

def Sha1.add (s t : Sha1) : Sha1 := ⟨s.a + t.a, s.b + t.b, s.c + t.c, s.d + t.d, s.e + t.e⟩

def sha1F (t : Nat) : Word → Word → Word → Word :=
  if t < 20 then ch else if t < 40 then parity else if t < 60 then maj else parity

def sha1K (t : Nat) : Word :=
  if t < 20 then 0x5a827999#32
  else if t < 40 then 0x6ed9eba1#32
  else if t < 60 then 0x8f1bbcdc#32
  else 0xca62c1d6#32

def sha1W (m : Nat → Word) (t : Nat) : Word :=
  if t < 16 then m t
  else (sha1W m (t - 3) ^^^ sha1W m (t - 8) ^^^ sha1W m (t - 14) ^^^ sha1W m (t - 16)).rotateLeft 1
termination_by t

def sha1Round (m : Nat → Word) (s : Sha1) (t : Nat) : Sha1 :=
  ⟨s.a.rotateLeft 5 + sha1F t s.b s.c s.d + s.e + sha1K t + sha1W m t, s.a, s.b.rotateLeft 30, s.c,
    s.d⟩

def sha1Compress (h : Sha1) (m : Nat → Word) : Sha1 := h.add ((List.range 80).foldl (sha1Round m) h)

def sha1Init : Sha1 := ⟨0x67452301#32, 0xefcdab89#32, 0x98badcfe#32, 0x10325476#32, 0xc3d2e1f0#32⟩

def sha1 (m : List UInt8) : List UInt8 :=
  let h := chain sha1Compress beWord sha1Init (pad (bigEndian 8) m)
  [h.a, h.b, h.c, h.d, h.e].flatMap fun w => bigEndian 4 w.toNat

/-! ## SHA-256 -/

structure Sha256 where
  a : Word
  b : Word
  c : Word
  d : Word
  e : Word
  f : Word
  g : Word
  h : Word

def Sha256.add (s t : Sha256) : Sha256 :=
  ⟨s.a + t.a, s.b + t.b, s.c + t.c, s.d + t.d, s.e + t.e, s.f + t.f, s.g + t.g, s.h + t.h⟩

def bigSigma0 (x : Word) : Word := x.rotateRight 2 ^^^ x.rotateRight 13 ^^^ x.rotateRight 22
def bigSigma1 (x : Word) : Word := x.rotateRight 6 ^^^ x.rotateRight 11 ^^^ x.rotateRight 25
def smallSigma0 (x : Word) : Word := x.rotateRight 7 ^^^ x.rotateRight 18 ^^^ (x >>> 3)
def smallSigma1 (x : Word) : Word := x.rotateRight 17 ^^^ x.rotateRight 19 ^^^ (x >>> 10)

/-- the fractional parts of the cube roots of the first 64 primes -/
def sha256K : List Word :=
  [0x428a2f98#32, 0x71374491#32, 0xb5c0fbcf#32, 0xe9b5dba5#32, 0x3956c25b#32, 0x59f111f1#32,
    0x923f82a4#32, 0xab1c5ed5#32, 0xd807aa98#32, 0x12835b01#32, 0x243185be#32, 0x550c7dc3#32,
    0x72be5d74#32, 0x80deb1fe#32, 0x9bdc06a7#32, 0xc19bf174#32, 0xe49b69c1#32, 0xefbe4786#32,
    0x0fc19dc6#32, 0x240ca1cc#32, 0x2de92c6f#32, 0x4a7484aa#32, 0x5cb0a9dc#32, 0x76f988da#32,
    0x983e5152#32, 0xa831c66d#32, 0xb00327c8#32, 0xbf597fc7#32, 0xc6e00bf3#32, 0xd5a79147#32,
    0x06ca6351#32, 0x14292967#32, 0x27b70a85#32, 0x2e1b2138#32, 0x4d2c6dfc#32, 0x53380d13#32,
    0x650a7354#32, 0x766a0abb#32, 0x81c2c92e#32, 0x92722c85#32, 0xa2bfe8a1#32, 0xa81a664b#32,
    0xc24b8b70#32, 0xc76c51a3#32, 0xd192e819#32, 0xd6990624#32, 0xf40e3585#32, 0x106aa070#32,
    0x19a4c116#32, 0x1e376c08#32, 0x2748774c#32, 0x34b0bcb5#32, 0x391c0cb3#32, 0x4ed8aa4a#32,
    0x5b9cca4f#32, 0x682e6ff3#32, 0x748f82ee#32, 0x78a5636f#32, 0x84c87814#32, 0x8cc70208#32,
    0x90befffa#32, 0xa4506ceb#32, 0xbef9a3f7#32, 0xc67178f2#32]

def sha256W (m : Nat → Word) (t : Nat) : Word :=
  if t < 16 then m t
  else smallSigma1 (sha256W m (t - 2)) + sha256W m (t - 7) + smallSigma0 (sha256W m (t - 15)) +
    sha256W m (t - 16)
termination_by t

def sha256Round (m : Nat → Word) (s : Sha256) (t : Nat) : Sha256 :=
  let t1 := s.h + bigSigma1 s.e + ch s.e s.f s.g + sha256K.getD t 0 + sha256W m t
  let t2 := bigSigma0 s.a + maj s.a s.b s.c
  ⟨t1 + t2, s.a, s.b, s.c, s.d + t1, s.e, s.f, s.g⟩

def sha256Compress (h : Sha256) (m : Nat → Word) : Sha256 :=
  h.add ((List.range 64).foldl (sha256Round m) h)

def sha256Init : Sha256 :=
  ⟨0x6a09e667#32, 0xbb67ae85#32, 0x3c6ef372#32, 0xa54ff53a#32, 0x510e527f#32, 0x9b05688c#32,
    0x1f83d9ab#32, 0x5be0cd19#32⟩

def sha256 (m : List UInt8) : List UInt8 :=
  let h := chain sha256Compress beWord sha256Init (pad (bigEndian 8) m)
  [h.a, h.b, h.c, h.d, h.e, h.f, h.g, h.h].flatMap fun w => bigEndian 4 w.toNat

/-! ## MD5 -/

structure Md5 where
  a : Word
  b : Word
  c : Word
  d : Word

def Md5.add (s t : Md5) : Md5 := ⟨s.a + t.a, s.b + t.b, s.c + t.c, s.d + t.d⟩

/-- `2^32 |sin i|` -/
def md5T : List Word :=
  [0xd76aa478#32, 0xe8c7b756#32, 0x242070db#32, 0xc1bdceee#32, 0xf57c0faf#32, 0x4787c62a#32,
    0xa8304613#32, 0xfd469501#32, 0x698098d8#32, 0x8b44f7af#32, 0xffff5bb1#32, 0x895cd7be#32,
    0x6b901122#32, 0xfd987193#32, 0xa679438e#32, 0x49b40821#32, 0xf61e2562#32, 0xc040b340#32,
    0x265e5a51#32, 0xe9b6c7aa#32, 0xd62f105d#32, 0x02441453#32, 0xd8a1e681#32, 0xe7d3fbc8#32,
    0x21e1cde6#32, 0xc33707d6#32, 0xf4d50d87#32, 0x455a14ed#32, 0xa9e3e905#32, 0xfcefa3f8#32,
    0x676f02d9#32, 0x8d2a4c8a#32, 0xfffa3942#32, 0x8771f681#32, 0x6d9d6122#32, 0xfde5380c#32,
    0xa4beea44#32, 0x4bdecfa9#32, 0xf6bb4b60#32, 0xbebfbc70#32, 0x289b7ec6#32, 0xeaa127fa#32,
    0xd4ef3085#32, 0x04881d05#32, 0xd9d4d039#32, 0xe6db99e5#32, 0x1fa27cf8#32, 0xc4ac5665#32,
    0xf4292244#32, 0x432aff97#32, 0xab9423a7#32, 0xfc93a039#32, 0x655b59c3#32, 0x8f0ccc92#32,
    0xffeff47d#32, 0x85845dd1#32, 0x6fa87e4f#32, 0xfe2ce6e0#32, 0xa3014314#32, 0x4e0811a1#32,
    0xf7537e82#32, 0xbd3af235#32, 0x2ad7d2bb#32, 0xeb86d391#32]

/-- one of the four rounds: its function, the words and the shifts of its operations -/
structure Md5Round where
  f : Word → Word → Word → Word
  k : List Nat
  s : List Nat

def md5Round1 : Md5Round :=
  ⟨fun x y z => (x &&& y) ||| (~~~x &&& z), [0, 1, 2, 3, 4, 5, 6, 7, 8, 9, 10, 11, 12, 13, 14, 15],
    [7, 12, 17, 22]⟩

def md5Round2 : Md5Round :=
  ⟨fun x y z => (x &&& z) ||| (y &&& ~~~z), [1, 6, 11, 0, 5, 10, 15, 4, 9, 14, 3, 8, 13, 2, 7, 12],
    [5, 9, 14, 20]⟩

def md5Round3 : Md5Round :=
  ⟨fun x y z => x ^^^ y ^^^ z, [5, 8, 11, 14, 1, 4, 7, 10, 13, 0, 3, 6, 9, 12, 15, 2],
    [4, 11, 16, 23]⟩

def md5Round4 : Md5Round :=
  ⟨fun x y z => y ^^^ (x ||| ~~~z), [0, 7, 14, 5, 12, 3, 10, 1, 8, 15, 6, 13, 4, 11, 2, 9],
    [6, 10, 15, 21]⟩

def md5Rounds : List Md5Round := [md5Round1, md5Round2, md5Round3, md5Round4]

/-- `a = b + ((a + f(b, c, d) + x[k] + t[i]) <<< s)`, the operation `i` of the round `r` -/
def md5Op (r : Md5Round) (j : Nat) (x : Nat → Word) (i : Nat) (a b c d : Word) : Word :=
  b + (a + r.f b c d + x (r.k.getD i 0) + md5T.getD (16 * j + i) 0).rotateLeft (r.s.getD (i % 4) 0)

/-- four operations, on `a`, `d`, `c` and `b` -/
def md5Quad (r : Md5Round) (j : Nat) (x : Nat → Word) (v : Md5) (i : Nat) : Md5 :=
  let a := md5Op r j x (4 * i) v.a v.b v.c v.d
  let d := md5Op r j x (4 * i + 1) v.d a v.b v.c
  let c := md5Op r j x (4 * i + 2) v.c d a v.b
  let b := md5Op r j x (4 * i + 3) v.b c d a
  ⟨a, b, c, d⟩

def md5Compress (h : Md5) (x : Nat → Word) : Md5 :=
  h.add (md5Rounds.zipIdx.foldl (fun v r => (List.range 4).foldl (md5Quad r.1 r.2 x) v) h)

def md5Init : Md5 := ⟨0x67452301#32, 0xefcdab89#32, 0x98badcfe#32, 0x10325476#32⟩

def md5 (m : List UInt8) : List UInt8 :=
  let h := chain md5Compress leWord md5Init (pad (littleEndian 8) m)
  [h.a, h.b, h.c, h.d].flatMap fun w => littleEndian 4 w.toNat

/-! ## HMAC -/

/-- the key fills a block of 64 bytes -/
def hmac (hash : List UInt8 → List UInt8) (key text : List UInt8) : List UInt8 :=
  let k := if 64 < key.length then hash key else key
  let k := k ++ List.replicate (64 - k.length) 0
  hash (k.map (· ^^^ 0x5c) ++ hash (k.map (· ^^^ 0x36) ++ text))

/-! ## facts -/

section
variable {n len : Nat}

theorem length_bigEndian (n v : Nat) : (bigEndian n v).length = n := by simp [bigEndian]

theorem length_littleEndian (n v : Nat) : (littleEndian n v).length = n := by simp [littleEndian]

/-- **The padding is minimal**: no fewer zeros end a block behind the length. -/
theorem zeros_least (len : Nat) : (len + 1 + zeros len + 8) % 64 = 0 ∧
    ∀ k, (len + 1 + k + 8) % 64 = 0 → zeros len ≤ k := by
  unfold zeros
  constructor
  · omega
  · intro k hk
    omega

theorem length_pad {length : Nat → List UInt8} (hl : ∀ v, (length v).length = 8)
    (m : List UInt8) : (pad length m).length = ((m.length + 8) / 64 + 1) * 64 := by
  unfold pad zeros
  simp only [List.length_append, List.length_replicate, hl, List.length_singleton]
  omega

/-- **Arrays and recurrences**: an array that is filled from the left holds `s`, if each new entry
is that of `s` where the entries before are. -/
theorem scan_set {α : Type} {f : List α → Nat → α} {s : Nat → α} {d : α} (n a : Nat) (w : List α)
    (hf : ∀ w t, a ≤ t → (∀ j < t, w.getD j d = s j) → f w t = s t) (hlen : a + n ≤ w.length) (hw : ∀ j < a, w.getD j d = s j) :
    ((List.range' a n).foldl (fun w t => w.set t (f w t)) w).length = w.length ∧
    ∀ j < a + n, ((List.range' a n).foldl (fun w t => w.set t (f w t)) w).getD j d = s j := by
  induction n generalizing a w with
  | zero => exact ⟨rfl, hw⟩
  | succ n ih =>
    rw [List.range'_succ, List.foldl_cons]
    have hset : ∀ j < a + 1, (w.set a (f w a)).getD j d = s j := by
      intro j hj
      rw [List.getD_eq_getElem?_getD]
      by_cases he : a = j
      · subst he
        rw [List.getElem?_set_self (by omega)]
        exact hf w a (Nat.le_refl a) hw
      · rw [List.getElem?_set_ne he, ← List.getD_eq_getElem?_getD]
        exact hw j (by omega)
    obtain ⟨h1, h2⟩ := ih (a + 1) (w.set a (f w a)) (fun w t ht => hf w t (by omega))
      (by rw [List.length_set]; omega) hset
    exact ⟨h1.trans List.length_set, fun j hj => h2 j (by omega)⟩

/-- a word by shifts -/
theorem beWord_eq (a b c d : UInt8) :
    beWord a b c d = (a.toBitVec.setWidth 32 <<< 24) ||| (b.toBitVec.setWidth 32 <<< 16) |||
      (c.toBitVec.setWidth 32 <<< 8) ||| d.toBitVec.setWidth 32 := by
  have hout : ∀ (x : UInt8) (i : Nat), 8 ≤ i → x.toBitVec.getLsbD i = false :=
    fun x i hi => BitVec.getLsbD_of_ge _ _ hi
  unfold beWord
  apply BitVec.eq_of_getLsbD_eq
  intro i hi
  simp only [BitVec.getLsbD_append, BitVec.getLsbD_or, BitVec.getLsbD_shiftLeft,
    BitVec.getLsbD_setWidth, hi, decide_true, Bool.true_and]
  rcases (by omega : i < 8 ∨ (8 ≤ i ∧ i < 16) ∨ (16 ≤ i ∧ i < 24) ∨ 24 ≤ i) with
    h | ⟨h, h'⟩ | ⟨h, h'⟩ | h
  · simp [h, show i < 24 by omega, show i < 16 by omega]
  · simp [h', show i < 24 by omega, show ¬ i < 8 by omega, show i - 8 < 8 by omega, hout d i h,
      show i - 8 < 32 by omega]
  · simp [h', show ¬ i < 8 by omega, show ¬ i < 16 by omega, show ¬ i - 8 < 8 by omega,
      hout d i (by omega), hout c (i - 8) (by omega), show i - 8 - 8 = i - 16 by omega,
      show i - 16 < 32 by omega, show i - 16 < 8 by omega]
  · simp [show ¬ i < 8 by omega, show ¬ i < 16 by omega, show ¬ i < 24 by omega,
      show ¬ i - 8 < 8 by omega, hout d i (by omega), hout c (i - 8) (by omega),
      hout b (i - 16) (by omega), show i - 24 < 32 by omega, show ¬ i - 16 < 8 by omega,
      show i - 8 - 8 = i - 16 by omega, show i - 16 - 8 = i - 24 by omega]

/-- a loop of loops -/
theorem foldl_range_mul {S : Type} (f : S → Nat → S) (m n : Nat) (s : S) :
    (List.range (m * n)).foldl f s =
      (List.range n).foldl (fun s q => (List.range m).foldl (fun s i => f s (m * q + i)) s) s := by
  induction n with
  | zero => rfl
  | succ n ih =>
    rw [Nat.mul_succ, List.range_add, List.foldl_append, ih, List.foldl_map, List.range_succ,
      List.foldl_append]
    rfl

/-- bytes of a word by shifts -/
theorem bigEndian_word (w : Word) :
    bigEndian 4 w.toNat = [UInt8.ofNat (w >>> 24).toNat, UInt8.ofNat (w >>> 16).toNat,
      UInt8.ofNat (w >>> 8).toNat, UInt8.ofNat w.toNat] := by
  simp only [BitVec.toNat_ushiftRight, Nat.shiftRight_eq_div_pow]
  show [_, _, _, _] = _
  norm_num

theorem littleEndian_word (w : Word) :
    littleEndian 4 w.toNat = [UInt8.ofNat w.toNat, UInt8.ofNat (w >>> 8).toNat,
      UInt8.ofNat (w >>> 16).toNat, UInt8.ofNat (w >>> 24).toNat] := by
  simp only [BitVec.toNat_ushiftRight, Nat.shiftRight_eq_div_pow]
  show [_, _, _, _] = _
  norm_num

theorem foldl_range_four {S : Type} (f : S → Nat → S) (s : S) :
    (List.range 4).foldl f s = f (f (f (f s 0) 1) 2) 3 := rfl

theorem rotateLeft_eq {n : Nat} (h : n < 32) (x : Word) :
    x.rotateLeft n = x <<< n ||| x >>> (32 - n) := by
  rw [BitVec.rotateLeft_def, Nat.mod_eq_of_lt h]

theorem rotateRight_eq {n : Nat} (h : n < 32) (x : Word) :
    x.rotateRight n = x >>> n ||| x <<< (32 - n) := by
  rw [BitVec.rotateRight_def, Nat.mod_eq_of_lt h]

/-- choice and majority by disjunctions -/
theorem ch_eq (x y z : Word) : (x &&& y) ||| (~~~x &&& z) = ch x y z := by
  unfold ch
  apply BitVec.eq_of_getLsbD_eq
  intro i hi
  simp only [BitVec.getLsbD_or, BitVec.getLsbD_and, BitVec.getLsbD_not, BitVec.getLsbD_xor, hi,
    decide_true, Bool.true_and]
  cases x.getLsbD i <;> cases y.getLsbD i <;> cases z.getLsbD i <;> rfl

theorem maj_eq (x y z : Word) : (x &&& y) ||| (x &&& z) ||| (y &&& z) = maj x y z := by
  unfold maj
  apply BitVec.eq_of_getLsbD_eq
  intro i _
  simp only [BitVec.getLsbD_or, BitVec.getLsbD_and, BitVec.getLsbD_xor]
  cases x.getLsbD i <;> cases y.getLsbD i <;> cases z.getLsbD i <;> rfl

end

end Digest
