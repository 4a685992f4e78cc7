import HolyPhp.Json.DecodeSpec
import HolyPhp.Lib.Substr
import HolyPhp.Runtime.Base64
import HolyPhp.Runtime.Codes
import HolyPhp.Runtime.Digest

/-!
# `password_hash` and `password_verify`

* `rawWrites`                        the stores of `hp_b64_encode_raw`, with their places;
* `passwordText`                     the text that is hashed, for a salt and a number of rounds;
* `scanHash`, `decodeSalt`           what `password_verify` reads of it.

**`password_law`**: the text is accepted, and the buffer of the salt is one byte too small for it.
-/

set_option autoImplicit false

namespace HolyPhp
namespace Std
open Digest
open Json (decimal)
open Substr (takeWhile_stop)

/-! ## the functions -/

/-- the stores of `hp_b64_encode_raw`, from `out[o]` on -/
def rawWrites (o : Nat) : Bytes → List (Nat × UInt8)
  | [] => [(o, 0)]
  | a :: s =>
    let v : UInt32 := a.toUInt32 <<< 16
    let v := if 1 ≤ s.length then v ||| ((s.getD 0 0).toUInt32 <<< 8) else v
    let v := if 2 ≤ s.length then v ||| (s.getD 1 0).toUInt32 else v
    (o, b64Char (v >>> 18)) :: (o + 1, b64Char (v >>> 12)) ::
      (o + 2, if 1 ≤ s.length then b64Char (v >>> 6) else 61) ::
      (o + 3, if 2 ≤ s.length then b64Char v else 61) :: rawWrites (o + 4) (s.drop 2)
termination_by s => s.length
decreasing_by simp only [List.length_drop, List.length_cons]; omega

/-- `hp_hmac_sha256` copies its message before it writes to `u` -/
def hpPbkdf2Sha256 (pw salt : Bytes) (rounds : Int) : Bytes :=
  let saltblk := salt.take 64 ++ [0, 0, 0, 1]
  let u := hpHmacSha256 pw saltblk
  ((List.range (rounds - 1).toNat).foldl (fun r _ =>
    let u := hpHmacSha256 pw r.1
    (u, List.zipWith (· ^^^ ·) r.2 u)) (u, u)).2

/-- `%d` -/
def fmtInt (n : Int) : Bytes := (if n < 0 then [45] else []) ++ Json.decimal n.natAbs

/-- `out`, 128 bytes -/
def passwordText (pw salt : Bytes) (rounds : Int) : Bytes :=
  let dk := hpPbkdf2Sha256 pw salt rounds
  strLit ((ascii "$hphp$" ++ fmtInt rounds ++ ascii "$" ++ hpB64EncodeRaw salt ++ ascii "$" ++
    hpB64EncodeRaw dk).take 127)

/-- `salt` is random -/
def hpbiPasswordHash (pw salt : Bytes) : Bytes := passwordText pw salt 4096

/-- `%d` of `sscanf`: blanks, a sign, at least one digit -/
def scanInt (s : Bytes) : Option (Int × Bytes) :=
  let t := s.dropWhile isSpace
  let u := match t with
    | 45 :: u => u
    | 43 :: u => u
    | _ => t
  if (u.takeWhile isDigit).isEmpty then none
  else some ((strtoll t).toInt.bmod (2 ^ 32), u.dropWhile isDigit)

/-- a conversion of at most 63 characters -/
def scanSet (p : UInt8 → Bool) (s : Bytes) : Option (Bytes × Bytes) :=
  let w := (s.take 63).takeWhile p
  if w.isEmpty then none else some (w, s.drop w.length)

/-- a character of the format -/
def scanLit (c : UInt8) : Bytes → Option Bytes
  | [] => none
  | d :: s => if d = c then some s else none

/-- `sscanf(h, "$hphp$%d$%63[^$]$%63s", ..)` where it gives 3 -/
def scanHash (h : Bytes) : Option (Int × Bytes × Bytes) := do
  let s ← (ascii "$hphp$").foldlM (fun s c => scanLit c s) h
  let r ← scanInt s
  let s ← scanLit 36 r.2
  let b ← scanSet (fun c => c != 36) s
  let s ← scanLit 36 b.2
  let d ← scanSet (fun c => !isSpace c) (s.dropWhile isSpace)
  some (r.1, b.1, d.1)

/-- `rev[c]` -/
def rev (c : UInt8) : Int := if c ∈ b64Tab then (b64Tab.idxOf c : Nat) else -1

/-- the four sextets of a round -/
def sextets (a b c d : Int) : UInt32 :=
  (UInt32.ofNat a.toNat <<< 18) ||| (UInt32.ofNat b.toNat <<< 12) |||
    (UInt32.ofNat (if c < 0 then 0 else c).toNat <<< 6) |||
    UInt32.ofNat (if d < 0 then 0 else d).toNat

/-- the loop over `b64salt`; `salt` has 16 bytes -/
def decodeSalt (salt : Bytes) (o : Nat) : Bytes → Bytes
  | x :: y :: z :: w :: s =>
    if o < 16 then
      if rev x < 0 ∨ rev y < 0 then salt
      else
        let v := sextets (rev x) (rev y) (rev z) (rev w)
        decodeSalt (((salt.set o (v >>> 16).toUInt8).set (o + 1) (v >>> 8).toUInt8).set (o + 2)
          v.toUInt8) (o + 3) s
    else salt
  | _ => salt

def hpCtEq (a b : Bytes) : Bool := (List.zipWith (· ^^^ ·) a b).foldl (· ||| ·) 0 == 0

def hpbiPasswordVerify (pw h : Bytes) : Bool :=
  match scanHash (strLit h) with
  | none => false
  | some (rounds, b64salt, b64dk) =>
    let salt := decodeSalt (List.replicate 16 0) 0 b64salt
    let b64dk2 := hpB64EncodeRaw (hpPbkdf2Sha256 pw salt rounds)
    if b64dk2.length ≠ b64dk.length then false else hpCtEq b64dk2 b64dk

/-! ## the buffers -/

section
variable {s : Bytes} {o n : Nat}

/-- a text and the NUL behind it, from `o` on -/
theorem rawWrites_eq (s : Bytes) (o : Nat) :
    (rawWrites o s).map Prod.snd = hpB64EncodeRaw s ++ [0] ∧
      (rawWrites o s).map Prod.fst = List.range' o ((hpB64EncodeRaw s).length + 1) := by
  induction o, s using rawWrites.induct with
  | case1 o => simp [rawWrites, hpB64EncodeRaw]
  | case2 o a s ih =>
    obtain ⟨h1, h2⟩ := ih
    rw [rawWrites, hpB64EncodeRaw]
    simp only [List.map_cons, h1, h2, List.length_cons]
    exact ⟨rfl, rfl⟩

/-- **The stores** are in a buffer of `n` bytes just if it has room for the NUL. -/
theorem rawWrites_lt_iff : (∀ w ∈ rawWrites 0 s, w.1 < n) ↔ (hpB64EncodeRaw s).length + 1 ≤ n := by
  have hfst := (rawWrites_eq s 0).2
  rw [← List.forall_mem_map (f := Prod.fst) (P := fun i => i < n), hfst]
  constructor
  · intro h
    exact h (hpB64EncodeRaw s).length (List.mem_range'_1.mpr (by omega))
  · intro h i hi
    have := List.mem_range'_1.mp hi
    omega

theorem length_encodeRaw (s : Bytes) :
    (hpB64EncodeRaw s).length = 4 * ((s.length + 2) / 3) := by
  rw [b64EncodeRaw_eq, groups_length]

end

/-! ## the salt -/

theorem rev_tab : ∀ i < 64, rev (b64Tab.getD i 0) = i := by
  unfold rev
  rw [b64Tab_eq]
  decide

theorem rev_char (v : UInt32) : rev (b64Char v) = (v.toNat % 64 : Nat) := by
  rw [← sextet_toNat]
  exact rev_tab _ (sextet_lt v)

theorem rev_pad : rev 61 = -1 := by
  unfold rev
  rw [b64Tab_eq]
  decide

section
variable {a b c d : Nat}

theorem ofNat_shift (ha : a < 64) {k : UInt32} {m : Nat} (hk : k.toNat = m) (hm : m ≤ 18) :
    (UInt32.ofNat a <<< k).toNat = a * 2 ^ m := by
  have h32 : (UInt32.ofNat a).toNat = a := by
    rw [UInt32.toNat_ofNat']
    omega
  have hlt : (UInt32.ofNat a).toNat < 2 ^ 6 := by
    rw [h32]
    exact ha
  rw [toNat_shiftLeft hlt hk (by decide) (by omega), h32]

theorem sextets_toNat (ha : a < 64) (hb : b < 64) (hc : c < 64) (hd : d < 64) :
    (sextets a b c d).toNat = a * 2 ^ 18 + b * 2 ^ 12 + c * 2 ^ 6 + d := by
  have h1 := ofNat_shift ha (k := 18) (m := 18) rfl (by decide)
  have h2 := ofNat_shift hb (k := 12) (m := 12) rfl (by decide)
  have h3 := ofNat_shift hc (k := 6) (m := 6) rfl (by decide)
  have h4 : (UInt32.ofNat d).toNat = d := by
    rw [UInt32.toNat_ofNat']
    omega
  have hneg : ∀ n : Nat, (if (n : Int) < 0 then (0 : Int) else n).toNat = n := by
    intro n
    rw [if_neg (by omega), Int.toNat_natCast]
  unfold sextets
  rw [Int.toNat_natCast, Int.toNat_natCast, hneg, hneg]
  have h12 : ((UInt32.ofNat a <<< 18) ||| (UInt32.ofNat b <<< 12)).toNat =
      (a * 2 ^ 6 + b) * 2 ^ 12 := by
    rw [or_toNat 18 h1 (by omega), h2]
    omega
  have h123 : ((UInt32.ofNat a <<< 18) ||| (UInt32.ofNat b <<< 12) |||
      (UInt32.ofNat c <<< 6)).toNat = (a * 2 ^ 12 + b * 2 ^ 6 + c) * 2 ^ 6 := by
    rw [or_toNat 12 h12 (by omega), h3]
    omega
  rw [or_toNat 6 h123 (by omega), h4]
  omega

end

section
variable {salt s : Bytes} {o : Nat} {v : UInt32} {a b c : UInt8}

/-- the bytes of a round -/
theorem bytes_eq (h : v.toNat = a.toNat * 65536 + b.toNat * 256 + c.toNat) :
    (v >>> 16).toUInt8 = a ∧ (v >>> 8).toUInt8 = b ∧ v.toUInt8 = c := by
  have ha := a.toNat_lt
  have hb := b.toNat_lt
  have hc := c.toNat_lt
  have h16 := shr_toNat v (k := 16) (m := 16) rfl (by decide)
  have h8 := shr_toNat v (k := 8) (m := 8) rfl (by decide)
  refine ⟨UInt8.toNat_inj.mp ?_, UInt8.toNat_inj.mp ?_, UInt8.toNat_inj.mp ?_⟩
  · rw [UInt32.toNat_toUInt8, h16]
    omega
  · rw [UInt32.toNat_toUInt8, h8]
    omega
  · rw [UInt32.toNat_toUInt8]
    omega

/-- a character for a sextet -/
theorem rev_shr (n : UInt32) {k : UInt32} {m : Nat} (hk : k.toNat = m) (hm : m < 32) :
    rev (b64Char (n >>> k)) = (n.toNat / 2 ^ m % 64 : Nat) := by
  rw [rev_char, shr_toNat n hk hm]

/-- **One round**: three bytes, or what is left of them, from the place `o` on. -/
theorem decodeSalt_round {x y z w : UInt8} (hx : 0 ≤ rev x) (hy : 0 ≤ rev y) (ho : o < 16)
    (hv : (sextets (rev x) (rev y) (rev z) (rev w)).toNat =
      a.toNat * 65536 + b.toNat * 256 + c.toNat) (s : Bytes) :
    decodeSalt salt o (x :: y :: z :: w :: s) =
      decodeSalt (((salt.set o a).set (o + 1) b).set (o + 2) c) (o + 3) s := by
  obtain ⟨ha, hb, hc⟩ := bytes_eq hv
  have hneg : ¬ (rev x < 0 ∨ rev y < 0) := by omega
  rw [decodeSalt, if_pos ho, if_neg hneg]
  dsimp only
  rw [ha, hb, hc]

theorem take_set_three (h : o + 3 ≤ salt.length) :
    (((salt.set o a).set (o + 1) b).set (o + 2) c).take (o + 3) = salt.take o ++ [a, b, c] := by
  have h0 : salt.drop o = salt[o] :: salt[o + 1] :: salt[o + 2] :: salt.drop (o + 3) := by
    rw [List.drop_eq_getElem_cons, List.drop_eq_getElem_cons, List.drop_eq_getElem_cons]
  have hp : (salt.take o).length = o := by
    rw [List.length_take]
    omega
  have hall : ((salt.set o a).set (o + 1) b).set (o + 2) c =
      salt.take o ++ a :: b :: c :: salt.drop (o + 3) := by
    conv_lhs => rw [← List.take_append_drop o salt, h0]
    generalize salt.take o = p at hp
    subst hp
    simp only [List.set_append_right _ _ (Nat.le_refl _),
      List.set_append_right _ _ (Nat.le_add_right _ _), Nat.sub_self,
      Nat.add_sub_cancel_left]
    rfl
  rw [hall, List.take_append, hp, List.take_of_length_le (by omega)]
  have h3 : o + 3 - o = 3 := by omega
  rw [h3]
  rfl

/-- the sextets of the last byte -/
theorem sextets_one (a : UInt8) :
    (sextets (rev (b64Char ((a.toUInt32 <<< 16) >>> 18)))
      (rev (b64Char ((a.toUInt32 <<< 16) >>> 12))) (rev 61) (rev 61)).toNat =
      a.toNat * 65536 + (0 : UInt8).toNat * 256 + (0 : UInt8).toNat := by
  have hn := one_toNat a
  have ha := a.toNat_lt
  have hz : sextets (rev (b64Char ((a.toUInt32 <<< 16) >>> 18)))
      (rev (b64Char ((a.toUInt32 <<< 16) >>> 12))) (rev 61) (rev 61) =
      sextets (rev (b64Char ((a.toUInt32 <<< 16) >>> 18)))
        (rev (b64Char ((a.toUInt32 <<< 16) >>> 12))) (0 : Nat) (0 : Nat) := by
    rw [rev_pad]
    rfl
  rw [hz, rev_shr _ (m := 18) rfl (by decide), rev_shr _ (m := 12) rfl (by decide),
    sextets_toNat (by omega) (by omega) (by decide) (by decide), hn]
  show _ = a.toNat * 65536 + 0 * 256 + 0
  omega

theorem sextets_three (a b c : UInt8) (n : UInt32)
    (hn : n.toNat = a.toNat * 65536 + b.toNat * 256 + c.toNat) :
    (sextets (rev (b64Char (n >>> 18))) (rev (b64Char (n >>> 12))) (rev (b64Char (n >>> 6)))
      (rev (b64Char n))).toNat = a.toNat * 65536 + b.toNat * 256 + c.toNat := by
  have ha := a.toNat_lt
  have hb := b.toNat_lt
  have hc := c.toNat_lt
  rw [rev_shr _ (m := 18) rfl (by decide), rev_shr _ (m := 12) rfl (by decide),
    rev_shr _ (m := 6) rfl (by decide), rev_char,
    sextets_toNat (by omega) (by omega) (by omega) (by omega)]
  omega

theorem rev_nonneg (v : UInt32) : 0 ≤ rev (b64Char v) := by
  rw [rev_char]
  exact Int.natCast_nonneg _

/-- **The salt** is decoded from its text, from any round on. -/
theorem decodeSalt_groups (s : Bytes) (salt : Bytes) (o : Nat) (hs : salt.length = 16)
    (ho : o + s.length = 16) (hmod : s.length % 3 = 1) :
    decodeSalt salt o (b64Groups s) = salt.take o ++ s := by
  induction s using b64Groups.induct generalizing salt o with
  | case1 a b c s ih =>
    have hlen : (a :: b :: c :: s).length = s.length + 3 := rfl
    have hn := three_toNat a b c
    rw [b64Groups, decodeSalt_round (rev_nonneg _) (rev_nonneg _) (by omega)
      (sextets_three a b c _ hn), ih _ _ (by simp [hs]) (by omega) (by omega)]
    rw [take_set_three (by omega), List.append_assoc]
    rfl
  | case2 a b =>
    have h2 : ([a, b] : Bytes).length % 3 = 2 := rfl
    omega
  | case3 a =>
    have ho15 : o = 15 := by
      have : ([a] : Bytes).length = 1 := rfl
      omega
    subst ho15
    rw [b64Groups, decodeSalt_round (rev_nonneg _) (rev_nonneg _) (by decide) (sextets_one a)]
    show ((salt.set 15 a).set 16 0).set 17 0 = _
    rw [List.set_eq_of_length_le (by simp [hs]), List.set_eq_of_length_le (by simp [hs]),
      List.set_eq_take_append_cons_drop, if_pos (by omega), List.drop_of_length_le (by omega)]
  | case4 => cases hmod

end

/-! ## the digest -/

section
variable {pw salt : Bytes} {rounds : Int}

theorem length_hpSha256Digest (m : Bytes) : (hpSha256Digest m).length = 32 := rfl

theorem length_hpHmacSha256 (key m : Bytes) : (hpHmacSha256 key m).length = 32 :=
  length_hpSha256Digest _

/-- a digest has 32 bytes, after any number of rounds -/
theorem length_hpPbkdf2Sha256 (pw salt : Bytes) (rounds : Int) :
    (hpPbkdf2Sha256 pw salt rounds).length = 32 := by
  have hrun : ∀ (l : List Nat) (r : Bytes × Bytes), r.2.length = 32 →
      (l.foldl (fun r _ => (hpHmacSha256 pw r.1,
        List.zipWith (· ^^^ ·) r.2 (hpHmacSha256 pw r.1))) r).2.length = 32 := by
    intro l
    induction l with
    | nil =>
      intro r hr
      exact hr
    | cons i l ih =>
      intro r hr
      refine ih _ ?_
      rw [List.length_zipWith, hr, length_hpHmacSha256]
      rfl
  exact hrun _ _ (length_hpHmacSha256 _ _)

end

/-! ## the text -/

section
variable {s w t : Bytes} {p : UInt8 → Bool} {n : Nat} {c : UInt8}

theorem foldlM_scanLit (w s : Bytes) : w.foldlM (fun s c => scanLit c s) (w ++ s) = some s := by
  induction w with
  | nil => rfl
  | cons c w ih =>
    rw [List.foldlM_cons, List.cons_append]
    show (if c = c then some (w ++ s) else none) >>= _ = _
    rw [if_pos rfl]
    exact ih

/-- **A field** is read up to the character that ends it. -/
theorem scanSet_stop (h0 : w ≠ []) (hlen : w.length ≤ 63) (hw : ∀ c ∈ w, p c = true)
    (hs : ∀ c ∈ s.head?, p c = false) : scanSet p (w ++ s) = some (w, s) := by
  have hs' : ∀ c ∈ (s.take (63 - w.length)).head?, p c = false := by
    intro c hc
    rw [List.head?_take] at hc
    split at hc
    · cases hc
    · exact hs c hc
  have htake : ((w ++ s).take 63).takeWhile p = w := by
    rw [List.take_append, List.take_of_length_le hlen]
    exact (takeWhile_stop hw hs').1
  have hne : w.isEmpty = false := by simp [h0]
  simp only [scanSet, htake, hne, List.drop_left, Bool.false_eq_true, if_false]

/-- **The rounds** are read back. -/
theorem scanInt_decimal (hn : n < 2 ^ 31) (hs : ∀ c ∈ s.head?, isDigit c = false) :
    scanInt (decimal n ++ s) = some ((n : Int), s) := by
  have hend : ∀ m, leadingNat m s = m := by
    intro m
    cases s with
    | nil => rfl
    | cons c s =>
      have hc : ¬ isDigit c = true := by simp [hs c rfl]
      rw [leadingNat, if_neg hc]
  obtain ⟨d, ds, hd, hdigit, hspace, -⟩ := decimal_scan (n := n) hend
  obtain ⟨htake, hdrop⟩ := takeWhile_stop (decimal_digits n) hs
  have hv := strtoll_decimal (n := n) (by omega) hend
  have hmod : (n : Int).bmod (2 ^ 32) = n := Int.bmod_eq_of_le (by omega) (by omega)
  have hne : (decimal n).isEmpty = false := by
    obtain ⟨c, cs, hc, -⟩ := decimal_cons n
    rw [hc]
    rfl
  rw [hd] at htake hdrop hv ⊢
  have hsign : ∀ u, d :: ds = 45 :: u ∨ d :: ds = 43 :: u → False := by
    rintro u (e | e) <;> cases e <;> cases hdigit
  unfold scanInt
  dsimp only
  rw [hspace]
  split
  · next e => exact absurd (Or.inl e) (hsign _)
  · next e => exact absurd (Or.inr e) (hsign _)
  · rw [htake, hdrop, hne, hv, hmod]
    rfl

end

/-! ## hashing and verifying -/

/-- the stores of `hp_b64_encode_raw` are inside a buffer of `n` bytes -/
def WritesIn (n : Nat) (s : Bytes) : Prop := ∀ w ∈ rawWrites 0 s, w.1 < n

/-- `b64salt[24]` and `b64dk[48]`; the same digest goes to `b64dk2[48]` -/
def PasswordFits (pw salt : Bytes) (rounds : Int) : Prop :=
  WritesIn 24 salt ∧ WritesIn 48 (hpPbkdf2Sha256 pw salt rounds)

section
variable {pw salt s : Bytes} {rounds : Int} {n : Nat} {c : UInt8}

theorem encodeRaw_char (h : c ∈ hpB64EncodeRaw s) : c ≠ 0 ∧ c ≠ 36 ∧ isSpace c = false := by
  have htab : b64Tab.all (fun c => c != 0 && c != 36 && !isSpace c) = true := by
    rw [b64Tab_eq]
    decide
  obtain ⟨body, hbody, hmem⟩ := groups_padded s
  rw [b64EncodeRaw_eq, hbody, List.mem_append] at h
  rcases h with h | h
  · have hc := List.all_eq_true.mp htab c (hmem c h)
    simpa [and_assoc] using hc
  · rw [List.eq_of_mem_replicate h]
    decide

theorem hpCtEq_self (s : Bytes) : hpCtEq s s = true := by
  have hzero : ∀ s : Bytes, (List.zipWith (· ^^^ ·) s s).foldl (· ||| ·) 0 = 0 := by
    intro s
    induction s with
    | nil => rfl
    | cons c s ih =>
      rw [List.zipWith_cons_cons, List.foldl_cons, UInt8.xor_self]
      exact ih
  rw [hpCtEq, hzero]
  rfl

theorem decimal_length (h : n < 2 ^ 31) : (decimal n).length ≤ 10 := by
  rw [decimal, List.length_map]
  exact Nat.length_toDigits_le_iff (b := 10) (by decide) (by decide) |>.mpr (by omega)

/-- the text, field by field -/
theorem passwordText_eq (hs : salt.length = 16) (hn : n < 2 ^ 31) :
    passwordText pw salt n = ascii "$hphp$" ++ (decimal n ++ (36 :: (hpB64EncodeRaw salt ++
      (36 :: hpB64EncodeRaw (hpPbkdf2Sha256 pw salt n))))) := by
  have hlen := decimal_length hn
  have hsalt := length_encodeRaw salt
  have hdk := length_encodeRaw (hpPbkdf2Sha256 pw salt n)
  rw [hs] at hsalt
  rw [length_hpPbkdf2Sha256] at hdk
  have hfmt : fmtInt n = decimal n := by
    rw [fmtInt, if_neg (by omega), Int.natAbs_natCast, List.nil_append]
  have htext : ascii "$hphp$" ++ fmtInt n ++ ascii "$" ++ hpB64EncodeRaw salt ++ ascii "$" ++
      hpB64EncodeRaw (hpPbkdf2Sha256 pw salt n) =
      ascii "$hphp$" ++ (decimal n ++ (36 :: (hpB64EncodeRaw salt ++
        (36 :: hpB64EncodeRaw (hpPbkdf2Sha256 pw salt n))))) := by
    rw [hfmt]
    simp only [List.append_assoc]
    rfl
  unfold passwordText
  dsimp only
  rw [htext, List.take_of_length_le]
  · apply strLit_self
    intro c hc
    simp only [List.mem_append, List.mem_cons] at hc
    rcases hc with hc | hc | rfl | hc | rfl | hc
    · have hlit : (ascii "$hphp$").all (fun c => c != 0) = true := by decide
      simpa using List.all_eq_true.mp hlit c hc
    · rintro rfl
      exact absurd (decimal_digits n 0 hc) (by decide)
    · decide
    · exact (encodeRaw_char hc).1
    · decide
    · exact (encodeRaw_char hc).1
  · simp only [List.length_append, List.length_cons, hsalt, hdk]
    have : (ascii "$hphp$").length = 6 := rfl
    omega

theorem strLit_strLit (s : Bytes) : strLit (strLit s) = strLit s :=
  strLit_self fun c hc => by simpa using List.mem_takeWhile_imp hc

/-- **Parsing**: the three fields of the text. -/
theorem scanHash_text (pw : Bytes) (hs : salt.length = 16) (hn : n < 2 ^ 31) :
    scanHash (passwordText pw salt n) = some ((n : Int), hpB64EncodeRaw salt,
      hpB64EncodeRaw (hpPbkdf2Sha256 pw salt n)) := by
  have hsalt := length_encodeRaw salt
  have hdk := length_encodeRaw (hpPbkdf2Sha256 pw salt n)
  rw [hs] at hsalt
  rw [length_hpPbkdf2Sha256] at hdk
  have hmem : ∀ c ∈ hpB64EncodeRaw (hpPbkdf2Sha256 pw salt n), (!isSpace c) = true := by
    intro c hc
    rw [(encodeRaw_char hc).2.2]
    rfl
  rw [passwordText_eq hs hn]
  generalize hpB64EncodeRaw (hpPbkdf2Sha256 pw salt n) = dk at hdk hmem
  have hdk0 : dk ≠ [] := fun e => by simp [e] at hdk
  have hspace : dk.dropWhile isSpace = dk := by
    cases dk with
    | nil => rfl
    | cons c dk =>
      have hc := hmem c List.mem_cons_self
      exact List.dropWhile_cons_of_neg (by simpa using hc)
  have hrounds := scanInt_decimal (n := n) (s := 36 :: (hpB64EncodeRaw salt ++ 36 :: dk)) hn (by
    intro c hc
    obtain rfl : 36 = c := by simpa using hc
    decide)
  have hfield := scanSet_stop (p := fun c => c != 36) (w := hpB64EncodeRaw salt) (s := 36 :: dk)
    (fun e => by simp [e] at hsalt) (by omega)
    (fun c hc => by simpa using (encodeRaw_char hc).2.1)
    (fun c hc => by
      obtain rfl : 36 = c := by simpa using hc
      decide)
  have hlast := scanSet_stop (p := fun c => !isSpace c) (w := dk) (s := []) hdk0 (by omega) hmem
    (fun c hc => by cases hc)
  rw [List.append_nil] at hlast
  have hlit : ∀ s : Bytes, scanLit 36 (36 :: s) = some s := fun s => by
    rw [scanLit, if_pos rfl]
  simp only [scanHash, foldlM_scanLit, hrounds, hlit, hfield, hspace, hlast, Option.bind_eq_bind,
    Option.bind_some]

/-- **Passwords**: the text is read back and accepted, and the NUL behind the text of the salt is
outside of its buffer. -/
theorem password_law (hs : salt.length = 16) (h0 : 0 < rounds) (hr : rounds < 2 ^ 31) :
    scanHash (passwordText pw salt rounds) = some (rounds, hpB64EncodeRaw salt,
      hpB64EncodeRaw (hpPbkdf2Sha256 pw salt rounds)) ∧
    decodeSalt (List.replicate 16 0) 0 (hpB64EncodeRaw salt) = salt ∧
    hpbiPasswordVerify pw (passwordText pw salt rounds) = true ∧
    ¬ PasswordFits pw salt rounds ∧
    WritesIn 25 salt ∧ WritesIn 48 (hpPbkdf2Sha256 pw salt rounds) := by
  obtain ⟨n, rfl⟩ := Int.eq_ofNat_of_zero_le (Int.le_of_lt h0)
  have hn : n < 2 ^ 31 := by omega
  have hscan := scanHash_text pw hs hn
  have hsalt : decodeSalt (List.replicate 16 0) 0 (hpB64EncodeRaw salt) = salt := by
    rw [b64EncodeRaw_eq, decodeSalt_groups salt _ 0 rfl (by omega) (by rw [hs])]
    rfl
  have hlen := length_encodeRaw salt
  have hdk := length_encodeRaw (hpPbkdf2Sha256 pw salt n)
  rw [hs] at hlen
  rw [length_hpPbkdf2Sha256] at hdk
  refine ⟨hscan, hsalt, ?_, ?_, ?_, ?_⟩
  · rw [hpbiPasswordVerify, passwordText, strLit_strLit, ← passwordText, hscan]
    dsimp only
    rw [hsalt, if_neg (fun h => h rfl), hpCtEq_self]
  · rintro h
    have := rawWrites_lt_iff.mp h.1
    omega
  · exact rawWrites_lt_iff.mpr (by omega)
  · exact rawWrites_lt_iff.mpr (by omega)

/-- `password_hash("secret")` with a salt of zeros -/
theorem password_law_zeros :
    (List.replicate 16 (0 : UInt8)).length = 16 ∧ (0 : Int) < 4096 ∧ (4096 : Int) < 2 ^ 31 ∧
    hpbiPasswordVerify (ascii "secret") (passwordText (ascii "secret") (List.replicate 16 0) 4096) =
      true ∧
    ¬ PasswordFits (ascii "secret") (List.replicate 16 0) 4096 :=
  have h := @password_law (ascii "secret") (List.replicate 16 0) 4096 rfl (by decide) (by decide)
  ⟨rfl, by decide, by decide, h.2.2.1, h.2.2.2.1⟩

/-- the last store into `b64salt[24]`, of a salt of zeros, is the NUL at 24 -/
theorem salt_overflows : (24, 0) ∈ rawWrites 0 (List.replicate 16 0) ∧
    ¬ ∀ pw salt : Bytes, salt.length = 16 → ∀ rounds : Int, 0 < rounds → rounds < 2 ^ 31 →
      hpbiPasswordVerify pw (passwordText pw salt rounds) = true ∧
        PasswordFits pw salt rounds := by
  have hmem : (24, 0) ∈ rawWrites 0 (List.replicate 16 0) := by
    simp [List.replicate, rawWrites]
  refine ⟨hmem, fun h => ?_⟩
  have hfits := (h [] (List.replicate 16 0) rfl 4096 (by decide) (by decide)).2.1
  exact Nat.lt_irrefl 24 (hfits _ hmem)

end

end Std
end HolyPhp
