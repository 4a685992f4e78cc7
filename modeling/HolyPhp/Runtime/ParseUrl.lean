import HolyPhp.Json.DecodeSpec
import HolyPhp.Lib.Substr
import HolyPhp.Runtime.ArrFill
import HolyPhp.Runtime.Codes

/-!
# `parse_url`

The text is cut from its end: fragment, query, path, and what is left is copied to the buffer of the
host before the user and the port are cut off there.

* `copyTo`, `cut`      a `memcpy` to a buffer of so many bytes, and the length it is given;
* `atoi`               `(int)strtol(s, NULL, 10)`;
* `parseUrl`, `hpbiParseUrl`  the parser; `none` is a copy that does not fit its buffer;
* `Parts`, `Parts.Ok`  a URL in parts without the delimiters behind them;
* `parseUrl_copies`    every copy of every text stays in its buffer;
* `parseUrl_parts`     **the parts come back, if user, host and port have at most 255 bytes.**
-/

set_option autoImplicit false

namespace HolyPhp
namespace ParseUrl
open Arr Assoc Substr
open HolyPhp.Std (strLit isDigit_space)

/-! ## the parser -/

/-- `memcpy` to a zeroed buffer of `cap` bytes; a NUL stays behind the copy -/
def copyTo (cap : Nat) (src : Bytes) : Option Bytes := if src.length < cap then some src else none

/-- `if (n >= sizeof buf) n = sizeof buf - 1` -/
def cut (cap : Nat) (src : Bytes) : Bytes := src.take (cap - 1)

def atoi (s : Bytes) : Int64 := Int64.ofInt ((strtoll s).toInt.bmod (2 ^ 32))

/-- `strchr(s, c)`, `memchr(s, c, n)`: what is in front of the byte -/
def before (c : UInt8) (s : Bytes) : Bytes := s.takeWhile fun x => x ≠ c

/-- the byte and what is behind it; empty where it is not there -/
def atByte (c : UInt8) (s : Bytes) : Bytes := s.dropWhile fun x => x ≠ c

/-- `strrchr(s, c)`: what is in front of the last one and what is behind it -/
def splitLast (c : UInt8) (s : Bytes) : Option (Bytes × Bytes) :=
  match s.reverse.dropWhile fun x => x ≠ c with
  | [] => none
  | _ :: r => some (r.reverse, (s.reverse.takeWhile fun x => x ≠ c).reverse)

structure Url where
  user : Option Bytes
  scheme : Bytes
  host : Bytes
  port : Int64
  path : Bytes
  query : Bytes
  fragment : Bytes
  deriving DecidableEq

/-- the length of the scheme, where there is one -/
def schemeEnd (s : Bytes) : Option Nat := (strpos (ascii "://") (strLit s)).filter (· < 12)

/-- user, host and port in the buffer of the host; what is behind the user is moved to its start -/
def hostPort (host : Bytes) : Option (Option Bytes × Bytes × Int64) :=
  let named (user : Option Bytes) (rest : Bytes) :=
    (user, before 58 rest, atoi ((atByte 58 rest).drop 1))
  match splitLast 64 (strLit host) with
  | none => some (named none (strLit host))
  | some (user, rest) => (copyTo 256 rest).map (named (some (before 58 user)))

def parseUrl (s : Bytes) : Option Url := do
  let scheme ← copyTo 16 (cut 16 (s.take ((schemeEnd s).getD 0)))
  let rest := match schemeEnd s with
    | some i => s.drop (i + 3)
    | none => s
  let frag ← copyTo 256 (cut 256 ((atByte 35 rest).drop 1))
  let rest := before 35 rest
  let query ← copyTo 512 (cut 512 ((atByte 63 rest).drop 1))
  let rest := before 63 rest
  let host ← copyTo 256 (cut 256 (before 47 rest))
  let (user, host, port) ← hostPort host
  let path ← copyTo 512 (cut 512 (atByte 47 rest))
  return ⟨user, strLit scheme, host,
    if port ≠ 0 then port else if strLit scheme = ascii "https" then 443 else 80,
    strLit path, strLit query, strLit frag⟩

/-- what is put in the map -/
def Url.entries (u : Url) : List (Val × Val) :=
  (u.user.map fun x => (HVal.str (some (ascii "user")), HVal.str (some x))).toList ++
  [(.str (some (ascii "scheme")), .str (some u.scheme)),
    (.str (some (ascii "host")), .str (some u.host)),
    (.str (some (ascii "port")), .int u.port),
    (.str (some (ascii "path")), .str (some u.path)),
    (.str (some (ascii "query")), .str (some u.query)),
    (.str (some (ascii "fragment")), .str (some u.fragment))]

/-- the argument is the text after `hp_val_to_str` -/
def hpbiParseUrl (junk : Nat → Val) (s : Bytes) : Option Harr :=
  (parseUrl s).bind fun u => hpMapOf junk u.entries

/-! ## URLs in parts -/

structure Parts where
  scheme : Bytes
  user : Option Bytes
  host : Bytes
  /-- the digits -/
  port : Option Bytes
  /-- with its slash -/
  path : Bytes
  query : Option Bytes
  fragment : Option Bytes

/-- a delimiter and the part behind it -/
def led (c : UInt8) (part : Option Bytes) : Bytes := (part.map (c :: ·)).getD []

/-- `[user@]host[:port]` -/
def Parts.authority (p : Parts) : Bytes :=
  (p.user.map (· ++ [64])).getD [] ++ (p.host ++ led 58 p.port)

def Parts.text (p : Parts) : Bytes :=
  p.scheme ++ (ascii "://" ++ (p.authority ++ (p.path ++ (led 63 p.query ++ led 35 p.fragment))))

/-- what the parser is to give -/
def Parts.url (p : Parts) : Url where
  user := p.user
  scheme := p.scheme
  host := p.host
  port := (p.port.map fun d => Int64.ofNat (leadingNat 0 d)).getD
    (if p.scheme = ascii "https" then 443 else 80)
  path := p.path
  query := p.query.getD []
  fragment := p.fragment.getD []

/-- none of the bytes is in the text -/
def Free (cs : List UInt8) (s : Bytes) : Prop := ∀ c ∈ cs, c ∉ s

instance (cs : List UInt8) (s : Bytes) : Decidable (Free cs s) := List.decidableBAll _ cs

/-- the parts have no NUL and no delimiter that is behind them, and are not too long -/
structure Parts.Ok (p : Parts) : Prop where
  scheme : ¬ ascii "://" <:+: p.scheme
  schemeNul : Free [0] p.scheme
  schemeLength : p.scheme.length < 12
  user : ∀ u ∈ p.user, Free [0, 64, 58, 47, 63, 35] u
  host : Free [0, 64, 58, 47, 63, 35] p.host
  port : ∀ d ∈ p.port, d.all isDigit = true ∧ 1 ≤ leadingNat 0 d ∧ leadingNat 0 d ≤ 65535
  authority : p.authority.length ≤ 255
  slash : p.path.head? = some 47
  path : Free [0, 63, 35] p.path
  pathLength : p.path.length ≤ 511
  query : ∀ q ∈ p.query, Free [0, 35] q ∧ q.length ≤ 511
  fragment : ∀ f ∈ p.fragment, Free [0] f ∧ f.length ≤ 255

/-! ## copies -/

section
variable {c : UInt8} {s t : Bytes} {cap : Nat}

theorem copy_cut (h : 0 < cap) (s : Bytes) : copyTo cap (cut cap s) = some (cut cap s) := by
  refine if_pos ?_
  rw [cut, List.length_take]
  omega

theorem cut_eq (h : s.length ≤ cap - 1) : cut cap s = s := List.take_of_length_le h

theorem splitLast_append (h : c ∉ t) (s : Bytes) : splitLast c (s ++ c :: t) = some (s, t) := by
  have hrev : (s ++ c :: t).reverse = t.reverse ++ c :: s.reverse := by simp
  have hmem : c ∉ t.reverse := mt List.mem_reverse.mp h
  rw [splitLast, hrev, dropWhile_delim hmem, takeWhile_delim hmem]
  simp

theorem splitLast_none (h : c ∉ s) : splitLast c s = none := by
  have hdrop : s.reverse.dropWhile (fun x => x ≠ c) = [] := by
    refine List.dropWhile_eq_nil_iff.mpr fun x hx => decide_eq_true ?_
    rintro rfl
    exact h (List.mem_reverse.mp hx)
  rw [splitLast, hdrop]

/-- what is behind the last byte is a part of the text -/
theorem splitLast_length {a b : Bytes} (h : splitLast c s = some (a, b)) :
    b.length ≤ s.length := by
  unfold splitLast at h
  split at h
  · cases h
  · obtain ⟨-, rfl⟩ := Prod.mk.inj (Option.some.inj h)
    have hle := (List.takeWhile_prefix (fun x => decide (x ≠ c)) (l := s.reverse)).length_le
    rw [List.length_reverse] at hle ⊢
    exact hle

theorem hostPort_some (h : s.length < 256) : ∃ r, hostPort s = some r := by
  unfold hostPort
  dsimp only
  split
  · exact ⟨_, rfl⟩
  · rename_i user rest hs
    have hlen := splitLast_length hs
    have hlit : (strLit s).length ≤ s.length := (List.takeWhile_prefix _).length_le
    rw [copyTo, if_pos (by omega)]
    exact ⟨_, rfl⟩

/-- **Every copy stays inside its buffer.** -/
theorem parseUrl_copies (s : Bytes) : (parseUrl s).isSome = true := by
  have hhost : ∀ s, ∃ r, hostPort (cut 256 s) = some r := fun s => by
    refine hostPort_some ?_
    rw [cut, List.length_take]
    omega
  unfold parseUrl
  simp only [copy_cut (show 0 < 16 by decide), copy_cut (show 0 < 256 by decide),
    copy_cut (show 0 < 512 by decide), Option.bind_eq_bind, Option.bind_some]
  obtain ⟨r, hr⟩ := hhost (before 47 (before 63 (before 35 (match schemeEnd s with
    | some i => s.drop (i + 3)
    | none => s))))
  rw [hr]
  rfl

/-! ## cutting -/

theorem strLit_free (h : Free [0] s) : strLit s = s :=
  takeWhile_ne_iff.mpr (h 0 List.mem_cons_self)

theorem before_self (h : c ∉ s) : before c s = s := takeWhile_ne_iff.mpr h

theorem before_led (h : c ∉ s) (x : Option Bytes) : before c (s ++ led c x) = s := by
  cases x with
  | none => rw [led, Option.map_none, Option.getD_none, List.append_nil, before_self h]
  | some x => exact takeWhile_delim h x

theorem atByte_led (h : c ∉ s) (x : Option Bytes) :
    (atByte c (s ++ led c x)).drop 1 = x.getD [] := by
  cases x with
  | none =>
    have hdrop : atByte c s = [] := List.dropWhile_eq_nil_iff.mpr fun _ hx =>
      decide_eq_true fun h0 => h (h0 ▸ hx)
    rw [led, Option.map_none, Option.getD_none, List.append_nil, hdrop]
    rfl
  | some x =>
    have hdrop : atByte c (s ++ c :: x) = c :: x := dropWhile_delim h x
    show (atByte c (s ++ c :: x)).drop 1 = x
    rw [hdrop]
    rfl

/-- the first `://` is the one behind the scheme -/
theorem strpos_scheme (h : ¬ ascii "://" <:+: s) (r : Bytes) :
    strpos (ascii "://") (s ++ (ascii "://" ++ r)) = some s.length := by
  induction s with
  | nil => exact strpos_here ⟨r, rfl⟩
  | cons c s ih =>
    have hnext : ¬ ascii "://" <+: c :: (s ++ (ascii "://" ++ r)) := by
      -- an occurrence that begins in the scheme ends there: `://` does not overlap with itself
      rintro ⟨t, ht⟩
      obtain ⟨hc, ht⟩ := List.cons.inj ht
      cases s with
      | nil => cases (List.cons.inj ht).1
      | cons d s =>
        obtain ⟨hd, ht⟩ := List.cons.inj ht
        cases s with
        | nil => cases (List.cons.inj ht).1
        | cons e s =>
          obtain ⟨he, -⟩ := List.cons.inj ht
          exact h ⟨[], s, by rw [← hc, ← hd, ← he]; rfl⟩
    rw [List.cons_append, strpos_next hnext,
      ih fun hin => h (hin.trans (List.suffix_cons c s).isInfix)]
    rfl

/-- `atoi` of digits -/
theorem atoi_digits (h : s.all isDigit = true) (h1 : 1 ≤ leadingNat 0 s)
    (h2 : leadingNat 0 s ≤ 65535) : atoi s = Int64.ofNat (leadingNat 0 s) := by
  cases s with
  | nil => cases h1
  | cons d s =>
    have hd : isDigit d = true := (Bool.and_eq_true _ _ ▸ h).1
    have hspace : isSpace d = false := isDigit_space hd
    have hread : strtoll (d :: s) = Int64.ofInt (leadingNat 0 (d :: s)) := by
      rw [strtoll, List.dropWhile_cons_of_neg (by rw [hspace]; exact Bool.false_ne_true)]
      split
      · rename_i heq
        cases heq
        cases hd
      · rename_i heq
        cases heq
        cases hd
      · rw [if_neg (by omega), if_neg (by omega)]
    rw [atoi, hread, Int64.toInt_ofInt_of_le (by omega) (by omega),
      Int.bmod_eq_of_le (by omega) (by omega)]
    rfl

/-! ## the parts -/

theorem Free.mem {cs : List UInt8} (h : Free cs s) (hc : c ∈ cs) : c ∉ s := h c hc

theorem not_mem_led {d : UInt8} {x : Option Bytes} (hd : c ≠ d) (h : ∀ s ∈ x, c ∉ s) :
    c ∉ led d x := by
  cases x with
  | none => exact List.not_mem_nil
  | some s => exact fun hm => (List.mem_cons.mp hm).elim hd (h s rfl)

theorem not_digit (h : s.all isDigit = true) (hc : isDigit c = false) : c ∉ s := by
  intro hm
  rw [List.all_eq_true.mp h c hm] at hc
  cases hc

variable {p : Parts}

/-- the bytes that neither the user nor the host nor the port has -/
theorem Parts.Ok.free_authority (hp : p.Ok) (hc : c ∈ [0, 47, 63, 35]) : c ∉ p.authority := by
  have hcs : c ∈ [0, 64, 58, 47, 63, 35] ∧ c ≠ 64 ∧ c ≠ 58 ∧ isDigit c = false := by
    simp only [List.mem_cons, List.not_mem_nil, or_false] at hc
    rcases hc with rfl | rfl | rfl | rfl <;> decide
  obtain ⟨hmem, h64, h58, hdigit⟩ := hcs
  unfold Parts.authority
  rw [List.mem_append, List.mem_append, not_or, not_or]
  refine ⟨?_, hp.host.mem hmem, not_mem_led h58 fun d hd => not_digit (hp.port d hd).1 hdigit⟩
  cases hu : p.user with
  | none => exact List.not_mem_nil
  | some u =>
    rw [Option.map_some, Option.getD_some, List.mem_append, List.mem_singleton, not_or]
    exact ⟨(hp.user u hu).mem hmem, h64⟩

theorem Parts.Ok.free_text (hp : p.Ok) : Free [0] p.text := by
  intro c hc
  obtain rfl := List.mem_singleton.mp hc
  unfold Parts.text
  simp only [List.mem_append, not_or]
  exact ⟨hp.schemeNul.mem (by decide), by decide, hp.free_authority (by decide),
    hp.path.mem (by decide) , not_mem_led (by decide) fun q hq => (hp.query q hq).1.mem (by decide),
    not_mem_led (by decide) fun f hf => (hp.fragment f hf).1.mem (by decide)⟩

/-- **User, host and port.** -/
theorem hostPort_authority (hp : p.Ok) : hostPort p.authority =
    some (p.user, p.host, atoi (p.port.getD [])) := by
  have hlit : strLit p.authority = p.authority := strLit_free fun c hc => by
    obtain rfl := List.mem_singleton.mp hc
    exact hp.free_authority (by decide)
  have h58 : 58 ∉ p.host := hp.host.mem (by decide)
  have hhost := before_led h58 p.port
  have hport := atByte_led h58 p.port
  have h64 : 64 ∉ p.host ++ led 58 p.port := by
    rw [List.mem_append, not_or]
    exact ⟨hp.host.mem (by decide), not_mem_led (by decide) fun d hd =>
      not_digit (hp.port d hd).1 (by decide)⟩
  unfold hostPort
  dsimp only
  rw [hlit]
  cases hu : p.user with
  | none =>
    have hauth : p.authority = p.host ++ led 58 p.port := by
      unfold Parts.authority
      rw [hu]
      rfl
    rw [hauth, splitLast_none h64]
    dsimp only
    rw [hhost, hport]
  | some u =>
    have hauth : p.authority = u ++ 64 :: (p.host ++ led 58 p.port) := by
      unfold Parts.authority
      rw [hu, Option.map_some, Option.getD_some, List.append_assoc]
      rfl
    have hlen := hp.authority
    rw [hauth, List.length_append, List.length_cons] at hlen
    rw [hauth, splitLast_append h64]
    dsimp only
    rw [copyTo, if_pos (by omega), Option.map_some, hhost, hport,
      before_self ((hp.user u hu).mem (by decide))]

/-- the port, or that of the scheme -/
theorem port_eq (hp : p.Ok) : (if atoi (p.port.getD []) ≠ 0 then atoi (p.port.getD [])
    else if p.scheme = ascii "https" then 443 else 80) = p.url.port := by
  cases hport : p.port with
  | none =>
    have h0 : atoi [] = 0 := by decide
    rw [Option.getD_none, h0, if_neg (by decide), Parts.url, hport]
    rfl
  | some d =>
    obtain ⟨hd, h1, h2⟩ := hp.port d hport
    have hne : Int64.ofNat (leadingNat 0 d) ≠ 0 := by
      intro h
      have hint := congrArg Int64.toInt h
      rw [Int64.toInt_ofNat_of_lt (by omega)] at hint
      have h0 : (0 : Int64).toInt = 0 := rfl
      omega
    rw [Option.getD_some, atoi_digits hd h1 h2, if_pos hne, Parts.url, hport]
    rfl

/-- **The parts come back.** -/
theorem parseUrl_text (hp : p.Ok) : parseUrl p.text = some p.url := by
  have hscheme : schemeEnd p.text = some p.scheme.length := by
    have hpos := strpos_scheme hp.scheme
      (p.authority ++ (p.path ++ (led 63 p.query ++ led 35 p.fragment)))
    rw [schemeEnd, strLit_free hp.free_text, Parts.text, hpos, Option.filter_some,
      if_pos (decide_eq_true hp.schemeLength)]
  have htake : p.text.take p.scheme.length = p.scheme := List.take_left
  have hrest : p.text.drop (p.scheme.length + 3) =
      p.authority ++ (p.path ++ (led 63 p.query ++ led 35 p.fragment)) := by
    rw [Parts.text, ← List.append_assoc]
    exact List.drop_left' (by rw [List.length_append]; rfl)
  have h35 : 35 ∉ p.authority ++ (p.path ++ led 63 p.query) := by
    rw [List.mem_append, List.mem_append, not_or, not_or]
    exact ⟨hp.free_authority (by decide), hp.path.mem (by decide),
      not_mem_led (by decide) fun q hq => (hp.query q hq).1.mem (by decide)⟩
  have h63 : 63 ∉ p.authority ++ p.path := by
    rw [List.mem_append, not_or]
    exact ⟨hp.free_authority (by decide), hp.path.mem (by decide)⟩
  have h47 : 47 ∉ p.authority := hp.free_authority (by decide)
  obtain ⟨path, hpath⟩ : ∃ t, p.path = 47 :: t := by
    cases hh : p.path with
    | nil =>
      have hs := hp.slash
      rw [hh] at hs
      cases hs
    | cons c t =>
      have hs := hp.slash
      rw [hh] at hs
      exact ⟨t, by rw [Option.some.inj hs]⟩
  have hpathB : before 47 (p.authority ++ p.path) = p.authority := by
    rw [hpath]
    exact takeWhile_delim h47 path
  have hpathA : atByte 47 (p.authority ++ p.path) = p.path := by
    rw [hpath]
    exact dropWhile_delim h47 path
  have hcopy : ∀ {cap : Nat} {x : Bytes}, x.length < cap → copyTo cap (cut cap x) = some x := by
    intro cap x hx
    rw [cut_eq (by omega), copyTo, if_pos hx]
  have hquery : (p.query.getD []).length < 512 ∧ Free [0] (p.query.getD []) := by
    cases hq : p.query with
    | none => exact ⟨by decide, fun _ _ => List.not_mem_nil⟩
    | some q =>
      obtain ⟨hfree, hlen⟩ := hp.query q hq
      exact ⟨Nat.lt_succ_of_le hlen, fun c hc => hfree.mem (by
        rw [List.mem_singleton.mp hc]
        decide)⟩
  have hfrag : (p.fragment.getD []).length < 256 ∧ Free [0] (p.fragment.getD []) := by
    cases hf : p.fragment with
    | none => exact ⟨by decide, fun _ _ => List.not_mem_nil⟩
    | some f => exact ⟨Nat.lt_succ_of_le (hp.fragment f hf).2, (hp.fragment f hf).1⟩
  have hpathFree : Free [0] p.path := fun c hc => hp.path.mem (by
    rw [List.mem_singleton.mp hc]
    decide)
  have hassoc : p.authority ++ (p.path ++ (led 63 p.query ++ led 35 p.fragment)) =
      (p.authority ++ (p.path ++ led 63 p.query)) ++ led 35 p.fragment := by
    simp only [List.append_assoc]
  have hschemeLen := hp.schemeLength
  have hauthLen := hp.authority
  have hpathLen := hp.pathLength
  unfold parseUrl
  rw [hscheme]
  dsimp only
  rw [Option.getD_some, htake, hrest, hassoc, atByte_led h35, before_led h35, ← List.append_assoc,
    atByte_led h63, before_led h63, hpathB, hpathA, hcopy (by omega), hcopy hfrag.1,
    hcopy hquery.1, hcopy (by omega), hcopy (by omega)]
  simp only [Option.bind_eq_bind, Option.bind_some, hostPort_authority hp,
    strLit_free hp.schemeNul, strLit_free hpathFree, strLit_free hquery.2, strLit_free hfrag.2,
    port_eq hp]
  rfl

end

/-- a map of a few new keys holds them -/
theorem mapOf_entries (junk : Nat → Val) {kvs : List (Val × Val)}
    (hk : ∀ p ∈ kvs, p.1.tag = .str ∧ hashable p.1 = true) (hn : (kvs.map Prod.fst).Nodup)
    (hlen : kvs.length < 12) : ∃ m, hpMapOf junk kvs = some m ∧ Filled m ∧ m.entries = kvs := by
  induction kvs using List.reverseRecOn with
  | nil => exact ⟨_, rfl, emptyMap_filled junk, rfl⟩
  | append_singleton kvs p ih =>
    rw [List.map_append, List.nodup_append] at hn
    rw [List.length_append, List.length_singleton] at hlen
    obtain ⟨m, hm, hf, he⟩ := ih (fun q hq => hk q (List.mem_append_left _ hq)) hn.1 (by omega)
    obtain ⟨htag, hhash⟩ := hk p (List.mem_append_right kvs List.mem_cons_self)
    have hmax : p.1 ≠ .int Int64.maxValue := by
      intro h
      rw [h] at htag
      cases htag
    have hlen' := length_entries m
    rw [he] at hlen'
    obtain ⟨b, hb, hfb, heb⟩ := hf.set (v := p.2) hhash hmax fun _ => by
      rw [← hlen', full]
      omega
    have hnew : ∀ q ∈ m.entries, q.1 ≠ p.1 := fun q hq hqp =>
      hn.2.2 q.1 (List.mem_map_of_mem (he ▸ hq)) p.1 (by simp) hqp
    refine ⟨b, ?_, hfb, ?_⟩
    · rw [hpMapOf, List.foldlM_append, show kvs.foldlM _ (emptyMap junk) = some m from hm]
      show (hpArrSet m p.1 p.2).bind some = some b
      rw [hb]
      rfl
    · rw [heb, assign_new hnew, he]

/-- the keys of the map -/
def urlKeys (user : Bool) : List Val :=
  ((if user then ["user"] else []) ++ ["scheme", "host", "port", "path", "query", "fragment"]).map
    fun k => .str (some (ascii k))

theorem entries_keys (u : Url) : u.entries.map Prod.fst = urlKeys u.user.isSome := by
  unfold Url.entries
  cases u.user <;> rfl

theorem urlKeys_plain (user : Bool) : (urlKeys user).Nodup ∧ (urlKeys user).length < 12 ∧
    (urlKeys user).all (fun k => decide (k.tag = .str) && hashable k) = true := by
  revert user
  decide

/-- **Every copy stays in its buffer, and the parts of a URL come back** as the entries of the map
that is returned. -/
theorem parseUrl_parts (junk : Nat → Val) {p : Parts} (hp : p.Ok) :
    (∃ m, hpbiParseUrl junk p.text = some m ∧ m.isMap = true ∧ m.entries = p.url.entries) ∧
    ∀ s, (parseUrl s).isSome = true := by
  refine ⟨?_, parseUrl_copies⟩
  obtain ⟨hn, hlen, hall⟩ := urlKeys_plain p.url.user.isSome
  rw [← entries_keys] at hn hlen hall
  rw [List.length_map] at hlen
  have htag : ∀ q ∈ p.url.entries, q.1.tag = .str ∧ hashable q.1 = true := fun q hq => by
    have h := List.all_eq_true.mp hall q.1 (List.mem_map_of_mem hq)
    rwa [Bool.and_eq_true, decide_eq_true_eq] at h
  obtain ⟨m, hm, hf, he⟩ := mapOf_entries junk htag hn hlen
  refine ⟨m, ?_, hf.map, he⟩
  rw [hpbiParseUrl, parseUrl_text hp]
  exact hm

/-- `http://user@host:8080/path?query#frag` -/
def sample : Parts where
  scheme := ascii "http"
  user := some (ascii "user")
  host := ascii "host"
  port := some (ascii "8080")
  path := ascii "/path"
  query := some (ascii "query")
  fragment := some (ascii "frag")

theorem sample_ok : sample.Ok where
  scheme h := by
    rw [← strstr_isSome (by decide)] at h
    exact absurd h (by decide)
  schemeNul := by decide
  schemeLength := by decide
  user u hu := by
    obtain rfl := Option.some.inj hu
    decide
  host := by decide
  port d hd := by
    obtain rfl := Option.some.inj hd
    decide
  authority := by decide
  slash := rfl
  path := by decide
  pathLength := by decide
  query q hq := by
    obtain rfl := Option.some.inj hq
    decide
  fragment f hf := by
    obtain rfl := Option.some.inj hf
    decide

theorem parseUrl_parts_sample : sample.Ok ∧ ((∃ m, hpbiParseUrl blank sample.text = some m ∧
    m.isMap = true ∧ m.entries = sample.url.entries) ∧ ∀ s, (parseUrl s).isSome = true) :=
  ⟨sample_ok, parseUrl_parts blank sample_ok⟩

/-- the port behind a host of 255 bytes is lost, and a host is cut at its `@` and a path at a NUL -/
theorem parseUrl_lost :
    (parseUrl (ascii "http://" ++ (List.replicate 255 97 ++ ascii ":8080/"))).map Url.port =
      some 80 ∧
    (parseUrl (ascii "http://a@b/")).map Url.host = some (ascii "b") ∧
    (parseUrl (ascii "http://a/" ++ 0 :: ascii "b")).map Url.path = some (ascii "/") := by
  decide +kernel

end ParseUrl
end HolyPhp
