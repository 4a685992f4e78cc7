import HolyPhp.Lib.Digest
import HolyPhp.Runtime.Value

/-!
# The message digests

* `padBuffer`                                   the buffer `m` of a digest;
* `hpSha1Digest`, `hpSha256Digest`, `hpMd5Digest`   the three loops over its blocks;
* `hpHmacSha256`                                the keyed hash.

**`digests_standard`**: they are those of the standards.
-/

set_option autoImplicit false

namespace HolyPhp
namespace Std
open Digest

/-! ## the buffer -/

def rotl32 (x : Word) (n : Nat) : Word := (x <<< n) ||| (x >>> (32 - n))

def rotr32 (x : Word) (n : Nat) : Word := (x >>> n) ||| (x <<< (32 - n))

def padded (len : Nat) : Nat := ((len + 8) % 2 ^ 64 / 64 + 1) * 64 % 2 ^ 64

/-- `shift i` is the shift of the byte `i` of the length -/
def padBuffer (shift : Nat → Nat) (msg : Bytes) : Bytes :=
  let len := msg.length
  let bits := len * 8 % 2 ^ 64
  (List.range 8).foldl
    (fun m i => m.set (padded len - 8 + i) (UInt8.ofNat (bits >>> shift i)))
    ((msg ++ List.replicate (padded len - len) 0).set len 0x80)

def byteAt (m : Bytes) (o : Nat) : Word := (m.getD o 0).toBitVec.setWidth 32

def loadBe (m : Bytes) (o : Nat) : Word :=
  (byteAt m o <<< 24) ||| (byteAt m (o + 1) <<< 16) ||| (byteAt m (o + 2) <<< 8) ||| byteAt m (o + 3)

def loadLe (m : Bytes) (o : Nat) : Word :=
  byteAt m o ||| (byteAt m (o + 1) <<< 8) ||| (byteAt m (o + 2) <<< 16) ||| (byteAt m (o + 3) <<< 24)

/-- the array `w` of `n` words with its first 16 -/
def firstWords (load : Bytes → Nat → Word) (n : Nat) (m : Bytes) (off : Nat) : List Word :=
  (List.range' 0 16).foldl (fun w i => w.set i (load m (off + i * 4))) (List.replicate n 0)

/-- the four bytes of `h[i]` -/
def storeBe (w : Word) : Bytes :=
  [UInt8.ofNat (w >>> 24).toNat, UInt8.ofNat (w >>> 16).toNat, UInt8.ofNat (w >>> 8).toNat,
    UInt8.ofNat w.toNat]

def storeLe (w : Word) : Bytes :=
  [UInt8.ofNat w.toNat, UInt8.ofNat (w >>> 8).toNat, UInt8.ofNat (w >>> 16).toNat,
    UInt8.ofNat (w >>> 24).toNat]

/-! ## SHA-1 -/

def sha1Words (m : Bytes) (off : Nat) : List Word :=
  (List.range' 16 64).foldl
    (fun w i => w.set i (rotl32 (w.getD (i - 3) 0 ^^^ w.getD (i - 8) 0 ^^^ w.getD (i - 14) 0 ^^^
      w.getD (i - 16) 0) 1))
    (firstWords loadBe 80 m off)

def sha1Step (w : List Word) (s : Sha1) (i : Nat) : Sha1 :=
  let fk :=
    if i < 20 then ((s.b &&& s.c) ||| (~~~s.b &&& s.d), 0x5A827999#32)
    else if i < 40 then (s.b ^^^ s.c ^^^ s.d, 0x6ED9EBA1#32)
    else if i < 60 then ((s.b &&& s.c) ||| (s.b &&& s.d) ||| (s.c &&& s.d), 0x8F1BBCDC#32)
    else (s.b ^^^ s.c ^^^ s.d, 0xCA62C1D6#32)
  ⟨rotl32 s.a 5 + fk.1 + s.e + fk.2 + w.getD i 0, s.a, rotl32 s.b 30, s.c, s.d⟩

def sha1Block (m : Bytes) (h : Sha1) (off : Nat) : Sha1 :=
  let s := (List.range 80).foldl (sha1Step (sha1Words m off)) h
  ⟨h.a + s.a, h.b + s.b, h.c + s.c, h.d + s.d, h.e + s.e⟩

def hpSha1Digest (msg : Bytes) : Bytes :=
  let m := padBuffer (fun i => 56 - 8 * i) msg
  let h := (List.range (padded msg.length / 64)).foldl (fun h i => sha1Block m h (i * 64))
    ⟨0x67452301#32, 0xEFCDAB89#32, 0x98BADCFE#32, 0x10325476#32, 0xC3D2E1F0#32⟩
  [h.a, h.b, h.c, h.d, h.e].flatMap storeBe

/-! ## SHA-256 -/

def k256 : List Word :=
  [0x428a2f98#32, 0x71374491#32, 0xb5c0fbcf#32, 0xe9b5dba5#32, 0x3956c25b#32, 0x59f111f1#32,
    0x923f82a4#32, 0xab1c5ed5#32, 0xd807aa98#32, 0x12835b01#32, 0x243185be#32, 0x550c7dc3#32,
    0x72be5d74#32, 0x80deb1fe#32, 0x9bdc06a7#32, 0xc19bf174#32, 0xe49b69c1#32, 0xefbe4786#32,
    0x0fc19dc6#32, 0x240ca1cc#32, 0x2de92c6f#32, 0x4a7484aa#32, 0x5cb0a9dc#32, 0x76f988da#32,
    0x983e5152#32, 0xa831c66d#32, 0xb00327c8#32, 0xbf597fc7#32, 0xc6e00bf3#32, 0xd5a79147#32,
    0x06ca6351#32, 0x14292967#32, 0x27b70a85#32, 0x2e1b2138#32, 0x4d2c6dfc#32, 0x53380d13#32,
    0x650a7354#32, 0x766a0abb#32, 0x81c2c92e#32, 0x92722c85#32, 0xa2bfe8a1#32, 0xa81a664b#32,
    0xc24b8b70#32, 0xc76c51a3#32, 0xd192e819#32, 0xd6990624#32, 0xf40e3585#32, 0x106aa070#32,
    0x19a4c116#32, 0x1e376c08#32, 0x2748774c#32, 0x34b0bcb5#32, 0x391c0cb3#32, 0x4ed8aa4a#32,
    0x5b9cca4f#32, 0x682e6ff3#32, 0x748f82ee#32, 0x78a5636f#32, 0x84c87814#32, 0x8cc70208#32,
    0x90befffa#32, 0xa4506ceb#32, 0xbef9a3f7#32, 0xc67178f2#32]

/-- the new word at `i` -/
def sha256Word (w : List Word) (i : Nat) : Word :=
  let x := w.getD (i - 15) 0
  let y := w.getD (i - 2) 0
  let s0 := rotr32 x 7 ^^^ rotr32 x 18 ^^^ (x >>> 3)
  let s1 := rotr32 y 17 ^^^ rotr32 y 19 ^^^ (y >>> 10)
  w.getD (i - 16) 0 + s0 + w.getD (i - 7) 0 + s1

def sha256Words (m : Bytes) (off : Nat) : List Word :=
  (List.range' 16 48).foldl (fun w i => w.set i (sha256Word w i)) (firstWords loadBe 64 m off)

def sha256Step (w : List Word) (s : Sha256) (i : Nat) : Sha256 :=
  let s1 := rotr32 s.e 6 ^^^ rotr32 s.e 11 ^^^ rotr32 s.e 25
  let ch := (s.e &&& s.f) ^^^ (~~~s.e &&& s.g)
  let t1 := s.h + s1 + ch + k256.getD i 0 + w.getD i 0
  let s0 := rotr32 s.a 2 ^^^ rotr32 s.a 13 ^^^ rotr32 s.a 22
  let maj := (s.a &&& s.b) ^^^ (s.a &&& s.c) ^^^ (s.b &&& s.c)
  let t2 := s0 + maj
  ⟨t1 + t2, s.a, s.b, s.c, s.d + t1, s.e, s.f, s.g⟩

def sha256Block (m : Bytes) (h : Sha256) (off : Nat) : Sha256 :=
  let s := (List.range 64).foldl (sha256Step (sha256Words m off)) h
  ⟨h.a + s.a, h.b + s.b, h.c + s.c, h.d + s.d, h.e + s.e, h.f + s.f, h.g + s.g, h.h + s.h⟩

def hpSha256Digest (msg : Bytes) : Bytes :=
  let m := padBuffer (fun i => 56 - 8 * i) msg
  let h := (List.range (padded msg.length / 64)).foldl (fun h i => sha256Block m h (i * 64))
    ⟨0x6a09e667#32, 0xbb67ae85#32, 0x3c6ef372#32, 0xa54ff53a#32, 0x510e527f#32, 0x9b05688c#32,
      0x1f83d9ab#32, 0x5be0cd19#32⟩
  [h.a, h.b, h.c, h.d, h.e, h.f, h.g, h.h].flatMap storeBe

/-! ## MD5 -/

def md5K : List Word :=
  [0xd76aa478#32, 0xe8c7b756#32, 0x242070db#32, 0xc1bdceee#32, 0xf57c0faf#32, 0x4787c62a#32,
    0xa8304613#32, 0xfd469501#32, 0x698098d8#32, 0x8b44f7af#32, 0xffff5bb1#32, 0x895cd7be#32,
    0x6b901122#32, 0xfd987193#32, 0xa679438e#32, 0x49b40821#32, 0xf61e2562#32, 0xc040b340#32,
    0x265e5a51#32, 0xe9b6c7aa#32, 0xd62f105d#32, 0x02441453#32, 0xd8a1e681#32, 0xe7d3fbc8#32,
    0x21e1cde6#32, 0xc33707d6#32, 0xf4d50d87#32, 0x455a14ed#32, 0xa9e3e905#32, 0xfcefa3f8#32,
    0x676f02d9#32, 0x8d2a4c8a#32, 0xfffa3942#32, 0x8771f681#32, 0x6d9d6122#32, 0xfde5380c#32,
    0xa4beea44#32, 0x4bdecfa9#32, 0xf6bb4b60#32, 0xbebfbc70#32, 0x289b7ec6#32, 0xeaa127fa#32,
    0xd4ef3085#32, 0x04881d05#32, 0xd9d4d039#32, 0xe6db99e5#32, 0x1fa27cf8#32, 0xc4ac5665#32,
    0xf4292244#32, 0x432aff97#32, 0xab9423a7#32, 0xfc93a039#32, 0x655b59c3#32, 0x8f0ccc92#32,
    0xffeff47d#32, 0x85845dd1#32, 0x6fa87e4f#32, 0xfe2ce6e0#32, 0xa3014314#32, 0x4e0811a1#32,
    0xf7537e82#32, 0xbd3af235#32, 0x2ad7d2bb#32, 0xeb86d391#32]

def md5S : List Nat :=
  [7, 12, 17, 22, 7, 12, 17, 22, 7, 12, 17, 22, 7, 12, 17, 22,
    5, 9, 14, 20, 5, 9, 14, 20, 5, 9, 14, 20, 5, 9, 14, 20,
    4, 11, 16, 23, 4, 11, 16, 23, 4, 11, 16, 23, 4, 11, 16, 23,
    6, 10, 15, 21, 6, 10, 15, 21, 6, 10, 15, 21, 6, 10, 15, 21]

/-- `f` and `g` -/
def md5Fg (s : Md5) (i : Nat) : Word × Nat :=
  if i < 16 then ((s.b &&& s.c) ||| (~~~s.b &&& s.d), i)
  else if i < 32 then ((s.d &&& s.b) ||| (~~~s.d &&& s.c), (5 * i + 1) % 16)
  else if i < 48 then (s.b ^^^ s.c ^^^ s.d, (3 * i + 5) % 16)
  else (s.c ^^^ (s.b ||| ~~~s.d), (7 * i) % 16)

def md5Step (w : List Word) (s : Md5) (i : Nat) : Md5 :=
  let fg := md5Fg s i
  ⟨s.d, s.b + rotl32 (s.a + fg.1 + md5K.getD i 0 + w.getD fg.2 0) (md5S.getD i 0), s.b, s.c⟩

def md5Block (m : Bytes) (h : Md5) (off : Nat) : Md5 :=
  let s := (List.range 64).foldl (md5Step (firstWords loadLe 16 m off)) h
  ⟨h.a + s.a, h.b + s.b, h.c + s.c, h.d + s.d⟩

def hpMd5Digest (msg : Bytes) : Bytes :=
  let m := padBuffer (fun i => 8 * i) msg
  let h := (List.range (padded msg.length / 64)).foldl (fun h i => md5Block m h (i * 64))
    ⟨0x67452301#32, 0xefcdab89#32, 0x98badcfe#32, 0x10325476#32⟩
  [h.a, h.b, h.c, h.d].flatMap storeLe

/-! ## HMAC -/

def hpHmacSha256 (key msg : Bytes) : Bytes :=
  let k0 := List.replicate 64 (0 : UInt8)
  let d := if 64 < key.length then hpSha256Digest key else key
  let k := d ++ k0.drop d.length
  let ipad := k.map (· ^^^ 0x36)
  let opad := k.map (· ^^^ 0x5c)
  let ih := hpSha256Digest (ipad ++ msg)
  hpSha256Digest (opad ++ ih)

/-! ## padding -/

section
variable {msg : Bytes} {x y : Bytes} {n : Nat}

/-- the last bytes are written one behind the other -/
theorem foldl_set (f : Nat → UInt8) (hn : n ≤ y.length) :
    (List.range n).foldl (fun m i => m.set (x.length + i) (f i)) (x ++ y) =
      x ++ ((List.range n).map f ++ y.drop n) := by
  induction n with
  | zero => rfl
  | succ n ih =>
    have hdrop : y.drop n = y[n] :: y.drop (n + 1) := List.drop_eq_getElem_cons (by omega)
    have hlen : ((List.range n).map f).length = n := by rw [List.length_map, List.length_range]
    rw [List.range_succ, List.foldl_append, ih (by omega), List.foldl_cons, List.foldl_nil,
      List.set_append_right _ _ (by omega), Nat.add_sub_cancel_left,
      List.set_append_right _ _ (by omega), hlen, Nat.sub_self, hdrop, List.set_cons_zero,
      List.map_append, List.append_assoc]
    rfl

theorem padded_eq (hlen : n < 2 ^ 61) : padded n = n + 1 + zeros n + 8 := by
  unfold padded zeros
  omega

/-- **The buffer** is the padded message. -/
theorem padBuffer_eq (hlen : msg.length < 2 ^ 61) (shift : Nat → Nat) (length : Nat → Bytes)
    (hl : ∀ v, length v = (List.range 8).map fun i => UInt8.ofNat (v >>> shift i)) :
    padBuffer shift msg = pad length msg := by
  have hbits : msg.length * 8 % 2 ^ 64 = 8 * msg.length := by omega
  have hpad := padded_eq hlen
  have hrep : padded msg.length - msg.length = 1 + zeros msg.length + 8 := by omega
  have hsplit : List.replicate (1 + zeros msg.length + 8) (0 : UInt8) =
      0 :: (List.replicate (zeros msg.length) 0 ++ List.replicate 8 0) := by
    rw [← List.replicate_add, ← List.replicate_succ]
    congr 1
    omega
  have hmark : (msg ++ List.replicate (padded msg.length - msg.length) 0).set msg.length 0x80 =
      (msg ++ [0x80] ++ List.replicate (zeros msg.length) 0) ++ List.replicate 8 0 := by
    rw [hrep, hsplit, List.set_append_right _ _ (Nat.le_refl _), Nat.sub_self, List.set_cons_zero]
    simp
  have hpos : padded msg.length - 8 =
      (msg ++ [0x80] ++ List.replicate (zeros msg.length) 0).length := by
    simp only [List.length_append, List.length_replicate, List.length_singleton]
    omega
  unfold padBuffer pad
  dsimp only
  rw [hbits, hmark, hpos, foldl_set _ (by simp), hl]
  simp

theorem shift_bigEndian (v : Nat) :
    bigEndian 8 v = (List.range 8).map fun i => UInt8.ofNat (v >>> (56 - 8 * i)) := by
  apply List.map_congr_left
  intro i hi
  have h8 : i < 8 := List.mem_range.mp hi
  have hp : (256 : Nat) ^ (8 - 1 - i) = 2 ^ (56 - 8 * i) := by
    have he : 56 - 8 * i = 8 * (8 - 1 - i) := by omega
    rw [he, Nat.pow_mul]
  rw [Nat.shiftRight_eq_div_pow, hp]

theorem shift_littleEndian (v : Nat) :
    littleEndian 8 v = (List.range 8).map fun i => UInt8.ofNat (v >>> (8 * i)) := by
  apply List.map_congr_left
  intro i _
  rw [Nat.shiftRight_eq_div_pow, Nat.pow_mul]

end

/-! ## words -/

section
variable {m : Bytes} {o n : Nat}

theorem loadBe_eq (m : Bytes) (o : Nat) : loadBe m o = wordAt beWord m o := (beWord_eq _ _ _ _).symm

theorem or_reverse (a b c d : Word) : a ||| b ||| c ||| d = d ||| c ||| b ||| a := by ac_rfl

theorem add_reverse (a b c d : Word) : a + b + c + d = d + c + b + a := by ac_rfl

theorem loadLe_eq (m : Bytes) (o : Nat) : loadLe m o = wordAt leWord m o := by
  unfold wordAt leWord
  rw [beWord_eq]
  exact or_reverse _ _ _ _

theorem firstWords_eq {load : Bytes → Nat → Word} (hn : 16 ≤ n) (m : Bytes) (off : Nat) :
    (firstWords load n m off).length = n ∧
    ∀ j < 16, (firstWords load n m off).getD j 0 = load m (off + j * 4) := by
  obtain ⟨h1, h2⟩ := scan_set (f := fun _ i => load m (off + i * 4))
    (s := fun i => load m (off + i * 4)) (d := 0) 16 0 (List.replicate n 0) (fun _ _ _ _ => rfl)
    (by rw [List.length_replicate]; omega) (fun j hj => absurd hj (Nat.not_lt_zero j))
  exact ⟨h1.trans List.length_replicate, fun j hj => h2 j (by omega)⟩

theorem storeBe_eq (w : Word) : storeBe w = bigEndian 4 w.toNat := (bigEndian_word w).symm

theorem storeLe_eq (w : Word) : storeLe w = littleEndian 4 w.toNat := (littleEndian_word w).symm

/-- the words of a block -/
def blockWords (w : UInt8 → UInt8 → UInt8 → UInt8 → Word) (m : Bytes) (i j : Nat) : Word :=
  wordAt w m (64 * i + 4 * j)

/-- the blocks of a buffer -/
theorem chain_eq {S : Type} {block : Bytes → S → Nat → S} {compress : S → (Nat → Word) → S}
    {w : UInt8 → UInt8 → UInt8 → UInt8 → Word}
    (hblock : ∀ h i, block m h (i * 64) = compress h (blockWords w m i)) (h : S)
    (hn : n = m.length) :
    (List.range (n / 64)).foldl (fun h i => block m h (i * 64)) h = chain compress w h m := by
  subst hn
  unfold chain
  congr 1
  funext h i
  exact hblock h i

end

/-! ## SHA-1 -/

section
variable {m : Bytes} {i : Nat}

theorem block_offset (i j : Nat) : i * 64 + j * 4 = 64 * i + 4 * j := by omega

theorem sha1Words_eq (m : Bytes) (i : Nat) :
    ∀ t < 80, (sha1Words m (i * 64)).getD t 0 = sha1W (blockWords beWord m i) t := by
  obtain ⟨hlen, hfirst⟩ := @firstWords_eq 80 loadBe (by decide) m (i * 64)
  refine (scan_set (d := 0) 64 16 _ ?_ (by rw [hlen]) ?_).2
  · intro w t ht hw
    rw [sha1W, if_neg (by omega), hw _ (by omega), hw _ (by omega), hw _ (by omega),
      hw _ (by omega), rotateLeft_eq (by decide)]
    rfl
  · intro j hj
    rw [hfirst j hj, sha1W, if_pos hj, loadBe_eq, block_offset]
    rfl

theorem sha1Step_eq {w : List Word} {m : Nat → Word} {t : Nat} (hw : w.getD t 0 = sha1W m t)
    (s : Sha1) : sha1Step w s t = sha1Round m s t := by
  unfold sha1Step sha1Round sha1F sha1K
  rw [hw, rotateLeft_eq (by decide), rotateLeft_eq (by decide)]
  by_cases h20 : t < 20
  · simp only [if_pos h20, ch_eq]
    rfl
  · by_cases h40 : t < 40
    · simp only [if_neg h20, if_pos h40]
      rfl
    · by_cases h60 : t < 60
      · simp only [if_neg h20, if_neg h40, if_pos h60, maj_eq]
        rfl
      · simp only [if_neg h20, if_neg h40, if_neg h60]
        rfl

theorem sha1Block_eq (m : Bytes) (h : Sha1) (i : Nat) :
    sha1Block m h (i * 64) = sha1Compress h (blockWords beWord m i) := by
  have hrun : (List.range 80).foldl (sha1Step (sha1Words m (i * 64))) h =
      (List.range 80).foldl (sha1Round (blockWords beWord m i)) h := by
    apply List.foldl_ext
    intro s t ht
    exact sha1Step_eq (sha1Words_eq m i t (List.mem_range.mp ht)) s
  unfold sha1Block
  rw [hrun]
  rfl

theorem length_padBuffer_be {msg : Bytes} (hlen : msg.length < 2 ^ 61) :
    padded msg.length = (pad (bigEndian 8) msg).length := by
  rw [length_pad (length_bigEndian 8)]
  unfold padded
  omega

/-- **SHA-1** -/
theorem hpSha1Digest_eq {msg : Bytes} (hlen : msg.length < 2 ^ 61) :
    hpSha1Digest msg = sha1 msg := by
  unfold hpSha1Digest sha1
  rw [padBuffer_eq hlen _ _ shift_bigEndian]
  dsimp only
  rw [chain_eq (sha1Block_eq _) _ (length_padBuffer_be hlen), funext storeBe_eq]
  rfl

/-! ## SHA-256 -/

theorem sha256Word_eq {w : List Word} {m : Nat → Word} {t : Nat} (ht : 16 ≤ t)
    (hw : ∀ j < t, w.getD j 0 = sha256W m j) : sha256Word w t = sha256W m t := by
  unfold sha256Word
  rw [sha256W, if_neg (by omega), hw _ (by omega), hw _ (by omega), hw _ (by omega),
    hw _ (by omega)]
  unfold smallSigma0 smallSigma1
  simp only [rotateRight_eq (by decide : 7 < 32), rotateRight_eq (by decide : 18 < 32),
    rotateRight_eq (by decide : 17 < 32), rotateRight_eq (by decide : 19 < 32)]
  exact add_reverse _ _ _ _

theorem sha256Words_eq (m : Bytes) (i : Nat) :
    ∀ t < 64, (sha256Words m (i * 64)).getD t 0 = sha256W (blockWords beWord m i) t := by
  obtain ⟨hlen, hfirst⟩ := @firstWords_eq 64 loadBe (by decide) m (i * 64)
  refine (scan_set (d := 0) 48 16 _ (fun w t => sha256Word_eq) (by rw [hlen]) ?_).2
  intro j hj
  rw [hfirst j hj, sha256W, if_pos hj, loadBe_eq, block_offset]
  rfl

theorem k256_eq : k256 = sha256K := rfl

theorem sha256Step_eq {w : List Word} {m : Nat → Word} {t : Nat} (hw : w.getD t 0 = sha256W m t)
    (s : Sha256) : sha256Step w s t = sha256Round m s t := by
  unfold sha256Step sha256Round bigSigma0 bigSigma1
  simp only [hw, k256_eq, rotateRight_eq (by decide : 6 < 32), rotateRight_eq (by decide : 11 < 32),
    rotateRight_eq (by decide : 25 < 32), rotateRight_eq (by decide : 2 < 32),
    rotateRight_eq (by decide : 13 < 32), rotateRight_eq (by decide : 22 < 32)]
  rfl

theorem sha256Block_eq (m : Bytes) (h : Sha256) (i : Nat) :
    sha256Block m h (i * 64) = sha256Compress h (blockWords beWord m i) := by
  have hrun : (List.range 64).foldl (sha256Step (sha256Words m (i * 64))) h =
      (List.range 64).foldl (sha256Round (blockWords beWord m i)) h := by
    apply List.foldl_ext
    intro s t ht
    exact sha256Step_eq (sha256Words_eq m i t (List.mem_range.mp ht)) s
  unfold sha256Block
  rw [hrun]
  rfl

/-- **SHA-256** -/
theorem hpSha256Digest_eq {msg : Bytes} (hlen : msg.length < 2 ^ 61) :
    hpSha256Digest msg = sha256 msg := by
  unfold hpSha256Digest sha256
  rw [padBuffer_eq hlen _ _ shift_bigEndian]
  dsimp only
  rw [chain_eq (sha256Block_eq _) _ (length_padBuffer_be hlen), funext storeBe_eq]
  rfl

end

/-! ## MD5 -/

section
variable {w : List Word} {x : Nat → Word} {n : Nat}

/-- the operation of a step, and the registers one further -/
structure StepIs (w : List Word) (x : Nat → Word) (r : Md5Round) (j : Nat) : Prop where
  step : ∀ n < 16, ∀ s : Md5,
    md5Step w s (16 * j + n) = ⟨s.d, md5Op r j x n s.a s.b s.c s.d, s.b, s.c⟩

/-- four steps are four operations -/
theorem StepIs.round {r : Md5Round} {j : Nat} (h : StepIs w x r j) (s : Md5) :
    (List.range 16).foldl (fun s n => md5Step w s (16 * j + n)) s =
      (List.range 4).foldl (md5Quad r j x) s := by
  rw [foldl_range_mul (fun s n => md5Step w s (16 * j + n)) 4 4]
  apply List.foldl_ext
  intro s q hq
  have hq4 : q < 4 := List.mem_range.mp hq
  rw [foldl_range_four, h.step (4 * q + 0) (by omega), h.step (4 * q + 1) (by omega), h.step (4 * q + 2) (by omega),
    h.step (4 * q + 3) (by omega)]
  rfl

theorem md5K_eq : md5K = md5T := rfl

theorem add_last (a b c : Word) : a + b + c = a + c + b := by ac_rfl

/-- the step `16 j + n` chooses as the operation `n` of the round does -/
theorem stepIs_of {r : Md5Round} {j : Nat} (hw : ∀ k < 16, w.getD k 0 = x k)
    (hfg : ∀ n < 16, ∀ s : Md5, md5Fg s (16 * j + n) = (r.f s.b s.c s.d, r.k.getD n 0))
    (hk : ∀ n < 16, r.k.getD n 0 < 16)
    (hs : ∀ n < 16, md5S.getD (16 * j + n) 0 = r.s.getD (n % 4) 0 ∧ r.s.getD (n % 4) 0 < 32) :
    StepIs w x r j where
  step n hn s := by
    obtain ⟨hsn, hlt⟩ := hs n hn
    unfold md5Step md5Op
    rw [hfg n hn s, hsn, md5K_eq, rotateLeft_eq hlt]
    dsimp only
    rw [hw _ (hk n hn), add_last (s.a + r.f s.b s.c s.d)]
    rfl

theorem stepIs_round1 (hw : ∀ k < 16, w.getD k 0 = x k) : StepIs w x md5Round1 0 := by
  refine stepIs_of hw ?_ (by decide) (by decide)
  intro n hn s
  have hk : ∀ n < 16, 16 * 0 + n = md5Round1.k.getD n 0 := by decide
  exact (if_pos (by omega)).trans (congrArg (Prod.mk _) (hk n hn))

theorem stepIs_round2 (hw : ∀ k < 16, w.getD k 0 = x k) : StepIs w x md5Round2 1 := by
  refine stepIs_of hw ?_ (by decide) (by decide)
  intro n hn s
  have hk : ∀ n < 16, (5 * (16 * 1 + n) + 1) % 16 = md5Round2.k.getD n 0 := by decide
  have hf : (s.d &&& s.b) ||| (~~~s.d &&& s.c) = md5Round2.f s.b s.c s.d := by
    rw [BitVec.and_comm s.d, BitVec.and_comm (~~~s.d)]
    rfl
  unfold md5Fg
  rw [if_neg (by omega), if_pos (by omega), hf, hk n hn]

theorem stepIs_round3 (hw : ∀ k < 16, w.getD k 0 = x k) : StepIs w x md5Round3 2 := by
  refine stepIs_of hw ?_ (by decide) (by decide)
  intro n hn s
  have hk : ∀ n < 16, (3 * (16 * 2 + n) + 5) % 16 = md5Round3.k.getD n 0 := by decide
  unfold md5Fg
  rw [if_neg (by omega), if_neg (by omega), if_pos (by omega), hk n hn]
  rfl

theorem stepIs_round4 (hw : ∀ k < 16, w.getD k 0 = x k) : StepIs w x md5Round4 3 := by
  refine stepIs_of hw ?_ (by decide) (by decide)
  intro n hn s
  have hk : ∀ n < 16, (7 * (16 * 3 + n)) % 16 = md5Round4.k.getD n 0 := by decide
  unfold md5Fg
  rw [if_neg (by omega), if_neg (by omega), if_neg (by omega), hk n hn]
  rfl

theorem md5Block_eq (m : Bytes) (h : Md5) (i : Nat) :
    md5Block m h (i * 64) = md5Compress h (blockWords leWord m i) := by
  obtain ⟨-, hfirst⟩ := @firstWords_eq 16 loadLe (by decide) m (i * 64)
  have hw : ∀ k < 16, (firstWords loadLe 16 m (i * 64)).getD k 0 = blockWords leWord m i k := by
    intro k hk
    rw [hfirst k hk, loadLe_eq, block_offset]
    rfl
  have hrun : (List.range 64).foldl (md5Step (firstWords loadLe 16 m (i * 64))) h =
      md5Rounds.zipIdx.foldl
        (fun v r => (List.range 4).foldl (md5Quad r.1 r.2 (blockWords leWord m i)) v) h := by
    rw [foldl_range_mul _ 16 4, foldl_range_four, (stepIs_round1 hw).round,
      (stepIs_round2 hw).round, (stepIs_round3 hw).round, (stepIs_round4 hw).round]
    rfl
  unfold md5Block
  rw [hrun]
  rfl

/-- **MD5** -/
theorem hpMd5Digest_eq {msg : Bytes} (hlen : msg.length < 2 ^ 61) : hpMd5Digest msg = md5 msg := by
  have hpad : padded msg.length = (pad (littleEndian 8) msg).length := by
    rw [length_pad (length_littleEndian 8)]
    unfold padded
    omega
  unfold hpMd5Digest md5
  rw [padBuffer_eq hlen _ _ shift_littleEndian]
  dsimp only
  rw [chain_eq (md5Block_eq _) _ hpad, funext storeLe_eq]
  rfl

end

/-! ## HMAC -/

section
variable {key msg : Bytes}

theorem length_sha256 (m : Bytes) : (sha256 m).length = 32 := by
  simp [sha256, length_bigEndian]

/-- **HMAC** -/
theorem hpHmacSha256_eq (hkey : key.length < 2 ^ 61) (hmsg : msg.length + 64 < 2 ^ 61) :
    hpHmacSha256 key msg = hmac sha256 key msg := by
  have hk0 : (if 64 < key.length then hpSha256Digest key else key) =
      if 64 < key.length then sha256 key else key := by
    rw [hpSha256Digest_eq hkey]
  have hle : (if 64 < key.length then sha256 key else key).length ≤ 64 := by
    split
    · rw [length_sha256]
      decide
    · omega
  unfold hpHmacSha256 hmac
  rw [hk0]
  generalize (if 64 < key.length then sha256 key else key) = d at hle
  dsimp only
  rw [List.drop_replicate]
  have hlen : (d ++ List.replicate (64 - d.length) (0 : UInt8)).length = 64 := by
    rw [List.length_append, List.length_replicate]
    omega
  have hin : ∀ c : UInt8, ((d ++ List.replicate (64 - d.length) 0).map (· ^^^ c) ++ msg).length <
      2 ^ 61 := by
    intro c
    rw [List.length_append, List.length_map, hlen]
    omega
  have hout : ∀ (c : UInt8) (m : Bytes),
      ((d ++ List.replicate (64 - d.length) 0).map (· ^^^ c) ++ sha256 m).length < 2 ^ 61 := by
    intro c m
    rw [List.length_append, List.length_map, hlen, length_sha256]
    decide
  rw [hpSha256Digest_eq (hin 0x36), hpSha256Digest_eq (hout 0x5c _)]

/-- **The digests are those of the standards**, with the padding they ask for. -/
theorem digests_standard (hlen : msg.length < 2 ^ 61) :
    (padBuffer (fun i => 56 - 8 * i) msg = msg ++ [0x80] ++ List.replicate (zeros msg.length) 0 ++
        bigEndian 8 (8 * msg.length) ∧
      padBuffer (fun i => 8 * i) msg = msg ++ [0x80] ++ List.replicate (zeros msg.length) 0 ++
        littleEndian 8 (8 * msg.length) ∧
      (msg.length + 1 + zeros msg.length + 8) % 64 = 0 ∧
      ∀ k, (msg.length + 1 + k + 8) % 64 = 0 → zeros msg.length ≤ k) ∧
    hpSha1Digest msg = sha1 msg ∧ hpMd5Digest msg = md5 msg ∧ hpSha256Digest msg = sha256 msg ∧
    ∀ key : Bytes, key.length < 2 ^ 61 → msg.length + 64 < 2 ^ 61 →
      hpHmacSha256 key msg = hmac sha256 key msg :=
  ⟨⟨padBuffer_eq hlen _ _ shift_bigEndian, padBuffer_eq hlen _ _ shift_littleEndian,
    zeros_least msg.length⟩, hpSha1Digest_eq hlen, hpMd5Digest_eq hlen, hpSha256Digest_eq hlen,
    fun _ hkey hmsg => hpHmacSha256_eq hkey hmsg⟩

example : hpMd5Digest [97, 98, 99] = [0x90, 0x01, 0x50, 0x98, 0x3c, 0xd2, 0x4f, 0xb0, 0xd6, 0x96,
    0x3f, 0x7d, 0x28, 0xe1, 0x7f, 0x72] := by decide +kernel

/-- `"abc"` -/
theorem digests_standard_abc :
    (padBuffer (fun i => 56 - 8 * i) [97, 98, 99] =
        [97, 98, 99] ++ [0x80] ++ List.replicate (zeros 3) 0 ++ bigEndian 8 (8 * 3) ∧
      padBuffer (fun i => 8 * i) [97, 98, 99] =
        [97, 98, 99] ++ [0x80] ++ List.replicate (zeros 3) 0 ++ littleEndian 8 (8 * 3) ∧
      (3 + 1 + zeros 3 + 8) % 64 = 0 ∧ ∀ k, (3 + 1 + k + 8) % 64 = 0 → zeros 3 ≤ k) ∧
    hpSha1Digest [97, 98, 99] = sha1 [97, 98, 99] ∧ hpMd5Digest [97, 98, 99] = md5 [97, 98, 99] ∧
    hpSha256Digest [97, 98, 99] = sha256 [97, 98, 99] ∧
    ∀ key : Bytes, key.length < 2 ^ 61 → 3 + 64 < 2 ^ 61 →
      hpHmacSha256 key [97, 98, 99] = hmac sha256 key [97, 98, 99] :=
  @digests_standard [97, 98, 99] (by decide)

end

end Std
end HolyPhp
