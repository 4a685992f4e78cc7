import HolyPhp.Parser.Types
import HolyPhp.Runtime.ArrFill
import HolyPhp.Runtime.ArrList
import HolyPhp.Runtime.KeyVisits

/-!
# Array literals

* `Lit`              the vectors of an `EX_ARRAY_LIT`: `arr.elems` and `map.keys` are one;
* `parsePrimaryLbracket`  the parser of a literal; `parse_written` says what it makes of one;
* `checkLit`         the type of a literal; `checkLit_plains` and `checkLit_keyeds` say that it is
  good for the entries;
* `emitArrayLit`     the call in C, `runBuild` what it returns;
* `literalEntries`   the entries that a literal lists;
* `WellShaped`       only plain entries, or only keyed ones with empty slots behind them;
* `array_lit_iff`    **which literals are right.**
-/

set_option autoImplicit false

namespace HolyPhp
namespace Codegen
open Lexer HolyPhp.Parser Arr Assoc HolyPhp.Std Function

/-! ## the parser -/

/-- what is between two commas -/
inductive Slot (E : Type) where
  | plain (e : E)
  | keyed (k v : E)
  | empty

/-- `elems` is `u.arr.elems` and `u.map.keys`, which have the same place; a slot is NULL -/
structure Lit (E : Type) where
  elems : List (Option E)
  vals : List E

/-- the pushes for one slot -/
def Lit.add {E : Type} (l : Lit E) : Slot E → Lit E
  | .plain e => ⟨l.elems ++ [some e], l.vals⟩
  | .keyed k v => ⟨l.elems ++ [some k], l.vals ++ [v]⟩
  | .empty => ⟨l.elems ++ [none], l.vals⟩

def Lit.ofSlots {E : Type} (ss : List (Slot E)) : Lit E := ss.foldl Lit.add ⟨[], []⟩

def skipNl : List Token → List Token
  | t :: u :: ts => if t.kind = .newline then skipNl (u :: ts) else t :: u :: ts
  | ts => ts

/-- an entry, which is not an empty slot -/
def parseEntry {E : Type} (parseTernary : Parse E) : Parse (Slot E) := fun ts => do
  let (k, ts) ← parseTernary ts
  if tsCheck ts .doublearrow then
    let (v, ts) ← parseTernary (tsAdvance ts)
    .ok (.keyed k v, ts)
  else .ok (.plain k, ts)

/-- the loop of `parse_primary_lbracket` -/
def litLoop {E : Type} (parseTernary : Parse E) : Nat → Lit E → Parse (Lit E)
  | 0, _, _ => .error .fuel
  | fuel + 1, l, ts =>
    if tsCheck ts .rbracket || tsCheck ts .eof then .ok (l, ts)
    else if tsCheck (skipNl ts) .comma then
      litLoop parseTernary fuel (l.add .empty) (skipNl (tsAdvance (skipNl ts)))
    else do
      let (s, ts) ← parseEntry parseTernary (skipNl ts)
      if tsCheck (skipNl ts) .comma then
        litLoop parseTernary fuel (l.add s) (skipNl (tsAdvance (skipNl ts)))
      else .ok (l.add s, skipNl ts)

def parsePrimaryLbracket {E : Type} (parseTernary : Parse E) (fuel : Nat) : Parse (Lit E) :=
  fun ts => do
    let (l, ts) ← litLoop parseTernary fuel ⟨[], []⟩ (skipNl (tsAdvance ts))
    let (_, ts) ← tsExpect .rbracket (ascii "']' to close literal") ts
    .ok (l, skipNl ts)

section
variable {E : Type} {parseTernary : Parse E} {ts us : List Token} {s : Slot E} {ss : List (Slot E)}

/-- the tokens `ts` are these slots, and `us` begins with the `]` behind them -/
inductive Written (parseTernary : Parse E) : List Token → List (Slot E) → List Token → Prop
  | done {ts : List Token} : tsCheck ts .rbracket = true → Written parseTernary ts [] ts
  | empty {ts us : List Token} {ss : List (Slot E)} :
      (tsCheck ts .rbracket || tsCheck ts .eof) = false → tsCheck (skipNl ts) .comma = true →
      Written parseTernary (skipNl (tsAdvance (skipNl ts))) ss us →
      Written parseTernary ts (.empty :: ss) us
  | last {ts us : List Token} {s : Slot E} :
      (tsCheck ts .rbracket || tsCheck ts .eof) = false → tsCheck (skipNl ts) .comma = false →
      parseEntry parseTernary (skipNl ts) = .ok (s, us) → tsCheck (skipNl us) .comma = false →
      tsCheck (skipNl us) .rbracket = true → Written parseTernary ts [s] (skipNl us)
  | cons {ts us vs : List Token} {s : Slot E} {ss : List (Slot E)} :
      (tsCheck ts .rbracket || tsCheck ts .eof) = false → tsCheck (skipNl ts) .comma = false →
      parseEntry parseTernary (skipNl ts) = .ok (s, us) → tsCheck (skipNl us) .comma = true →
      Written parseTernary (skipNl (tsAdvance (skipNl us))) ss vs →
      Written parseTernary ts (s :: ss) vs

theorem litLoop_written (h : Written parseTernary ts ss us) (l : Lit E) {f : Nat}
    (hf : ss.length < f) : litLoop parseTernary f l ts = .ok (ss.foldl Lit.add l, us) ∧
      tsCheck us .rbracket = true := by
  induction h generalizing l f with
  | done h =>
    obtain ⟨f, rfl⟩ := Nat.exists_eq_add_one.2 hf
    exact ⟨by rw [litLoop, h]; rfl, h⟩
  | empty h hc _ ih =>
    obtain ⟨f, rfl⟩ := Nat.exists_eq_add_one.2 (Nat.zero_lt_of_lt hf)
    rw [litLoop, h, hc]
    exact ih _ (Nat.lt_of_succ_lt_succ hf)
  | @last ts us s h hc he hn hr =>
    obtain ⟨f, rfl⟩ := Nat.exists_eq_add_one.2 (Nat.zero_lt_of_lt hf)
    refine ⟨?_, hr⟩
    rw [litLoop, h, hc, he]
    show (if tsCheck (skipNl us) .comma = true then _ else _) = _
    rw [hn]
    rfl
  | @cons ts us vs s ss h hc he hn _ ih =>
    obtain ⟨f, rfl⟩ := Nat.exists_eq_add_one.2 (Nat.zero_lt_of_lt hf)
    rw [litLoop, h, hc, he]
    show (if tsCheck (skipNl us) .comma = true then _ else _) = _ ∧ _
    rw [hn]
    exact ih _ (Nat.lt_of_succ_lt_succ hf)

/-- **What the parser makes of the slots of a literal.** -/
theorem parse_written {lb : Token} (hb : tsAdvance (lb :: ts) = ts)
    (h : Written parseTernary (skipNl ts) ss us) {f : Nat} (hf : ss.length < f) :
    parsePrimaryLbracket parseTernary f (lb :: ts) =
      .ok (Lit.ofSlots ss, skipNl (tsAdvance us)) := by
  obtain ⟨hl, hr⟩ := litLoop_written h ⟨[], []⟩ hf
  rw [parsePrimaryLbracket, hb, hl]
  show (tsExpect .rbracket _ us >>= _) = _
  rw [tsExpect, if_pos hr]
  rfl

end

/-! ## the type -/

/-- the types `T` are compared as pointers -/
inductive LitTy (T : Type) where
  | map (key val : T)
  | array (elem : T)
  deriving DecidableEq

section
variable {E T : Type} [DecidableEq T] {ty : E → T} {mixed t : T} {ts : List T}

/-- one more type: any difference means `mixed` -/
def joinType (mixed : T) (acc : Option T) (t : T) : Option T :=
  match acc with
  | none => some t
  | some u => some (if u = t then u else mixed)

/-- the type of all entries -/
def joinTypes (mixed : T) (ts : List T) : T := (ts.foldl (joinType mixed) none).getD mixed

/-- `check_expr`, which takes NULL -/
def slotType (ty : E → T) (mixed : T) (e : Option E) : T := (e.map ty).getD mixed

/-- `check_expr` of an `EX_ARRAY_LIT` -/
def checkLit (ty : E → T) (mixed : T) (l : Lit E) : LitTy T :=
  if 0 < l.vals.length then
    .map (joinTypes mixed ((l.elems.take l.vals.length).map (slotType ty mixed)))
      (joinTypes mixed (l.vals.map ty))
  else .array (joinTypes mixed (l.elems.map (slotType ty mixed)))

theorem foldl_joinType (u : T) : ∃ v, ts.foldl (joinType mixed) (some u) = some v ∧
    (v = mixed ∨ (v = u ∧ ∀ t ∈ ts, t = u)) := by
  induction ts generalizing u with
  | nil => exact ⟨u, rfl, .inr ⟨rfl, List.forall_mem_nil _⟩⟩
  | cons t ts ih =>
    rw [List.foldl_cons, joinType]
    obtain ⟨v, hv, h⟩ := ih (if u = t then u else mixed)
    refine ⟨v, hv, ?_⟩
    split at h
    next he => exact h.imp_right fun ⟨h1, h2⟩ => ⟨h1, List.forall_mem_cons.2 ⟨he.symm, h2⟩⟩
    · exact .inl (h.elim id And.left)

/-- the type of all entries is the type of each one, or `mixed` -/
theorem joinTypes_fits (ht : t ∈ ts) : joinTypes mixed ts = mixed ∨ joinTypes mixed ts = t := by
  cases ts with
  | nil => cases ht
  | cons u ts =>
    obtain ⟨v, hv, h⟩ := @foldl_joinType _ _ mixed ts u
    have hj : joinTypes mixed (u :: ts) = v := by
      rw [joinTypes, List.foldl_cons]
      exact congrArg (Option.getD · mixed) hv
    rw [hj]
    refine h.imp_right fun ⟨h1, h2⟩ => ?_
    rcases List.mem_cons.1 ht with rfl | ht
    · exact h1
    · rw [h1, h2 t ht]

end

/-! ## the call -/

/-- `hp_arr_of(n, vals)` or `hp_map_of(n, kvs)` -/
inductive Build (E : Type) where
  | arr (n : Nat) (vals : List E)
  | map (n : Nat) (kvs : List (E × E))

/-- `to_hval` of each; it reads the kind of the expression, so NULL stops the compiler -/
def toHvals {E : Type} (es : List (Option E)) : Option (List E) := es.mapM id

def emitArrayLit {E : Type} (l : Lit E) : Option (Build E) :=
  if l.vals.length ≠ 0 then
    (toHvals (l.elems.take l.vals.length)).map fun ks => .map (l.vals.length * 2) (ks.zip l.vals)
  else (toHvals l.elems).map fun es => .arr l.elems.length es

/-- a count as the `int` of a parameter -/
def cInt (n : Nat) : Int := Int.bmod n (2 ^ 32)

def hpArrOf (junk : Nat → Val) (vals : List Val) : Harr := vals.foldl hpArrPush (hpArrNew junk)

/-- what the call returns; the loops of the two functions count to `n` and to `n / 2` -/
def runBuild (junk : Nat → Val) : Build Val → Option Harr
  | .arr n vals => some (hpArrOf junk (vals.take (cInt n).toNat))
  | .map n kvs => hpMapOf junk (kvs.take ((cInt n).tdiv 2).toNat)

/-! ## what a literal lists -/

/-- the entries, with the next integer key -/
def addEntry (r : List (Val × Val) × Int64) : Slot Val → List (Val × Val) × Int64
  | .plain v => (assign r.1 (.int r.2) v, r.2 + 1)
  | .keyed k v => (assign r.1 k v,
      match k with
      | .int i => if r.2 ≤ i then i + 1 else r.2
      | _ => r.2)
  | .empty => r

def literalEntries (ss : List (Slot Val)) : List (Val × Val) := (ss.foldl addEntry ([], 0)).1

/-- the compiled literal is the array with these entries -/
def Right (junk : Nat → Val) (ss : List (Slot Val)) : Prop :=
  ∃ c a, emitArrayLit (Lit.ofSlots ss) = some c ∧ runBuild junk c = some a ∧
    (asKeyed a).entries = literalEntries ss

/-- keys of arrays; behind the greatest integer there is no next one -/
def KeyOk : Slot Val → Prop
  | .keyed k _ => hashable k = true ∧ k ≠ .int Int64.maxValue
  | _ => True

inductive SlotKind where
  | plain
  | keyed
  | empty
  deriving DecidableEq

def Slot.kind {E : Type} : Slot E → SlotKind
  | .plain _ => .plain
  | .keyed _ _ => .keyed
  | .empty => .empty

/-- only plain entries, or only keyed ones with empty slots behind them, and not too many -/
def WellShaped (shape : List SlotKind) : Prop :=
  (∃ n, shape = List.replicate n .plain ∧ n < 2 ^ 31) ∨
    ∃ n m, shape = List.replicate n .keyed ++ List.replicate m .empty ∧ 0 < n ∧ n < 2 ^ 30

/-! ## the vectors -/

section
variable {E : Type} {ss : List (Slot E)} {shape : List SlotKind}

/-- what goes into `elems` -/
def Slot.elem : Slot E → Option E
  | .plain e => some e
  | .keyed k _ => some k
  | .empty => none

/-- what goes into `vals` -/
def Slot.val : Slot E → Option E
  | .keyed _ v => some v
  | _ => none

theorem foldl_add (ss : List (Slot E)) (l : Lit E) :
    ss.foldl Lit.add l = ⟨l.elems ++ ss.map Slot.elem, l.vals ++ ss.filterMap Slot.val⟩ := by
  induction ss generalizing l with
  | nil => rw [List.map_nil, List.filterMap_nil, List.append_nil, List.append_nil, List.foldl_nil]
  | cons s ss ih =>
    rw [List.foldl_cons, ih]
    cases s <;> simp [Lit.add, Slot.elem, Slot.val, List.filterMap_cons]

theorem ofSlots_eq (ss : List (Slot E)) :
    Lit.ofSlots ss = ⟨ss.map Slot.elem, ss.filterMap Slot.val⟩ := foldl_add ss ⟨[], []⟩

/-- there is a value for each keyed slot -/
theorem length_vals (ss : List (Slot E)) :
    (ss.filterMap Slot.val).length = (ss.map Slot.kind).count .keyed := by
  induction ss with
  | nil => rfl
  | cons s ss ih =>
    cases s <;> simp [Slot.val, Slot.kind, ih, List.filterMap_cons]

/-- **The call for a literal**, if there is one. -/
theorem emit_eq (ss : List (Slot E)) : emitArrayLit (Lit.ofSlots ss) =
    if (ss.map Slot.kind).count .keyed ≠ 0 then
      ((ss.take ((ss.map Slot.kind).count .keyed)).mapM Slot.elem).map fun ks =>
        .map ((ss.map Slot.kind).count .keyed * 2) (ks.zip (ss.filterMap Slot.val))
    else (ss.mapM Slot.elem).map fun es => .arr ss.length es := by
  rw [emitArrayLit, ofSlots_eq]
  dsimp only
  rw [length_vals, toHvals, toHvals, ← List.map_take, List.mapM_map, List.mapM_map, List.length_map]
  rfl

end

/-! ## what a call returns -/

section
variable {a b : Harr} {k v : Val} {vs : List Val} {kvs : List (Val × Val)} {junk : Nat → Val}

theorem cInt_of_lt {n : Nat} (h : n < 2 ^ 31) : cInt n = n := by
  unfold cInt
  rw [Int.bmod_def]
  omega

theorem cInt_lt {n : Nat} (h : 2 ^ 31 ≤ n) : (cInt n).toNat < n := by
  unfold cInt
  rw [Int.bmod_def]
  omega

theorem cInt_half_lt {n : Nat} (h : 2 ^ 30 ≤ n) : ((cInt (n * 2)).tdiv 2).toNat < n := by
  have hlt : cInt (n * 2) < 2 * n := by
    unfold cInt
    rw [Int.bmod_def]
    omega
  rcases le_or_gt 0 (cInt (n * 2)) with h0 | h0
  · rw [Int.tdiv_eq_ediv_of_nonneg h0]
    omega
  · have hneg : 0 ≤ (-cInt (n * 2)).tdiv 2 := Int.tdiv_nonneg (by omega) (by decide)
    rw [Int.neg_tdiv] at hneg
    omega

/-- the values that the loop of a call comes to -/
def Build.taken : Build Val → List Val
  | .arr n vals => vals.take (cInt n).toNat
  | .map n kvs => (kvs.take ((cInt n).tdiv 2).toNat).map Prod.snd

theorem arrOf_vals (junk : Nat → Val) (vs : List Val) :
    (hpArrOf junk vs).isMap = false ∧ (hpArrOf junk vs).len = vs.length ∧
      ∀ i (hi : i < vs.length), (hpArrOf junk vs).vals i = vs[i] := by
  induction vs using List.reverseRecOn with
  | nil => exact ⟨rfl, rfl, fun i hi => absurd hi (Nat.not_lt_zero i)⟩
  | append_singleton vs v ih =>
    obtain ⟨hm, hlen, hvals⟩ := ih
    obtain ⟨ha, hm', -⟩ := push_spec (hpArrOf junk vs) v
    have he : hpArrOf junk (vs ++ [v]) = hpArrPush (hpArrOf junk vs) v := List.foldl_append ..
    rw [he]
    refine ⟨hm'.trans hm, by rw [ha.len, hlen, List.length_append, List.length_singleton],
      fun i hi => ?_⟩
    rw [ha.vals, hlen]
    by_cases e : i = vs.length
    · subst e
      rw [update_self, List.getElem_concat_length rfl]
    · have hi' : i < vs.length := by
        rw [List.length_append, List.length_singleton] at hi
        omega
      rw [update_of_ne e, hvals i hi', List.getElem_append_left hi']

/-- a write leaves the old values and writes the new one -/
theorem set_vals (h : hpArrSet a k v = some b) {i : Nat} (hi : i < b.len) :
    b.vals i = v ∨ (i < a.len ∧ b.vals i = a.vals i) := by
  have happ : ∀ c : Harr, Appended a c k v ∨ Appended a c (.int a.nextIndex) v →
      ∀ i < c.len, c.vals i = v ∨ (i < a.len ∧ c.vals i = a.vals i) := by
    intro c hc i hi
    have hl : c.len = a.len + 1 := hc.elim Appended.len Appended.len
    have hv : c.vals = update a.vals a.len v := hc.elim Appended.vals Appended.vals
    rw [hv]
    by_cases e : i = a.len
    · exact .inl (by rw [e, update_self])
    · exact .inr ⟨by omega, update_of_ne e _ _⟩
  rcases set_cases h with ⟨-, rfl⟩ | ⟨j, -, -, rfl⟩ | ⟨-, -, c, hc, rfl⟩
  · exact happ _ (.inr (push_spec a v).1) i hi
  · by_cases e : i = j
    · exact .inl (by rw [e]; exact update_self ..)
    · exact .inr ⟨hi, update_of_ne e _ _⟩
  · obtain ⟨o, n, hb⟩ := set_new hc
    rw [hb] at hi ⊢
    exact happ _ (.inl (append_spec a k v).1) i hi

theorem mapOf_vals (h : hpMapOf junk kvs = some a) {i : Nat} (hi : i < a.len) :
    a.vals i ∈ kvs.map Prod.snd := by
  induction kvs using List.reverseRecOn generalizing a i with
  | nil =>
    cases h
    exact absurd hi (Nat.not_lt_zero i)
  | append_singleton kvs p ih =>
    rw [hpMapOf, List.foldlM_append] at h
    obtain ⟨m, hm, hs⟩ := Option.bind_eq_some_iff.1 h
    obtain ⟨b, hb, hs⟩ := Option.bind_eq_some_iff.1 hs
    obtain rfl := Option.some.inj hs
    rw [List.map_append]
    rcases set_vals hb hi with hv | ⟨hi', hv⟩
    · rw [hv]
      exact List.mem_append_right _ List.mem_cons_self
    · rw [hv]
      exact List.mem_append_left _ (ih hm hi')

/-- the values of the array are among those of the call -/
theorem runBuild_vals {c : Build Val} (h : runBuild junk c = some a) {p : Val × Val}
    (hp : p ∈ (asKeyed a).entries) : p.2 ∈ c.taken := by
  obtain ⟨i, hi, rfl⟩ := List.mem_map.1 hp
  rw [List.mem_range, asKeyed_len] at hi
  show (asKeyed a).vals i ∈ c.taken
  rw [asKeyed_vals]
  cases c with
  | arr n vals =>
    obtain rfl := Option.some.inj h
    obtain ⟨-, hlen, hvals⟩ := arrOf_vals junk (vals.take (cInt n).toNat)
    rw [hlen] at hi
    rw [hvals i hi]
    exact List.getElem_mem hi
  | map n kvs => exact mapOf_vals h hi

/-! ## literals that are right -/

/-- a literal of plain entries -/
def plains {E : Type} (es : List E) : List (Slot E) := es.map .plain

/-- a literal of keyed entries, with empty slots behind them -/
def keyeds {E : Type} (kvs : List (E × E)) (m : Nat) : List (Slot E) :=
  kvs.map (fun p => .keyed p.1 p.2) ++ List.replicate m .empty

theorem mapM_plain {E : Type} (es : List E) : (plains es).mapM Slot.elem = some es := by
  induction es with
  | nil => rfl
  | cons e es ih =>
    rw [plains, List.map_cons, List.mapM_cons]
    exact congrArg (fun o => o.bind fun es => some (e :: es)) ih

theorem mapM_keyed {E : Type} (kvs : List (E × E)) :
    (kvs.map fun p => Slot.keyed p.1 p.2).mapM Slot.elem = some (kvs.map Prod.fst) := by
  induction kvs with
  | nil => rfl
  | cons p kvs ih =>
    rw [List.map_cons, List.mapM_cons]
    exact congrArg (fun o => o.bind fun ks => some (p.1 :: ks)) ih

theorem kinds_plains {E : Type} (es : List E) :
    (plains es).map Slot.kind = List.replicate es.length .plain := by
  rw [plains, List.map_map]
  exact List.map_const' ..

theorem kinds_keyeds {E : Type} (kvs : List (E × E)) (m : Nat) :
    (keyeds kvs m).map Slot.kind =
      List.replicate kvs.length .keyed ++ List.replicate m .empty := by
  rw [keyeds, List.map_append, List.map_map, List.map_replicate]
  exact congrArg (· ++ _) (List.map_const' ..)

theorem vals_keyeds {E : Type} (kvs : List (E × E)) (m : Nat) :
    (keyeds kvs m).filterMap Slot.val = kvs.map Prod.snd := by
  rw [keyeds, List.filterMap_append, List.filterMap_map, List.filterMap_replicate_of_none rfl,
    List.append_nil]
  exact congrFun List.filterMap_eq_map' kvs

theorem take_keyeds {E : Type} (kvs : List (E × E)) (m : Nat) :
    (keyeds kvs m).take kvs.length = kvs.map fun p => Slot.keyed p.1 p.2 := by
  rw [keyeds, List.take_append_of_le_length (by rw [List.length_map]), List.take_of_length_le
    (by rw [List.length_map])]

theorem emit_plains {E : Type} (es : List E) :
    emitArrayLit (Lit.ofSlots (plains es)) = some (.arr es.length es) := by
  have hc : ((plains es).map Slot.kind).count .keyed = 0 := by
    rw [kinds_plains, List.count_replicate]
    rfl
  rw [emit_eq, hc, if_neg (fun h => h rfl), mapM_plain, plains, List.length_map]
  rfl

theorem emit_keyeds {E : Type} {kvs : List (E × E)} (hne : kvs ≠ []) (m : Nat) :
    emitArrayLit (Lit.ofSlots (keyeds kvs m)) = some (.map (kvs.length * 2) kvs) := by
  have hc : ((keyeds kvs m).map Slot.kind).count .keyed = kvs.length := by
    rw [kinds_keyeds, List.count_append, List.count_replicate, List.count_replicate]
    rfl
  rw [emit_eq, hc, if_pos (by rwa [ne_eq, List.length_eq_zero_iff]), take_keyeds, mapM_keyed,
    vals_keyeds]
  show some (Build.map _ ((kvs.map Prod.fst).zip (kvs.map Prod.snd))) = _
  rw [List.zip_map', List.map_id']

section
variable {E T : Type} [DecidableEq T]

/-- the type of plain entries is good for each one -/
theorem checkLit_plains (ty : E → T) (mixed : T) (es : List E) :
    ∃ t, checkLit ty mixed (Lit.ofSlots (plains es)) = .array t ∧
      ∀ e ∈ es, t = mixed ∨ t = ty e := by
  have hv : (plains es).filterMap Slot.val = [] := by
    rw [plains, List.filterMap_map]
    exact List.filterMap_eq_nil_iff.2 fun _ _ => rfl
  rw [checkLit, ofSlots_eq, hv]
  refine ⟨_, if_neg (Nat.lt_irrefl 0), fun e he => joinTypes_fits ?_⟩
  rw [plains, List.map_map, List.map_map]
  exact List.mem_map.2 ⟨e, he, rfl⟩

/-- and the types of keyed entries for each key and value -/
theorem checkLit_keyeds (ty : E → T) (mixed : T) {kvs : List (E × E)} (hne : kvs ≠ []) (m : Nat) :
    ∃ kt vt, checkLit ty mixed (Lit.ofSlots (keyeds kvs m)) = .map kt vt ∧
      ∀ p ∈ kvs, (kt = mixed ∨ kt = ty p.1) ∧ (vt = mixed ∨ vt = ty p.2) := by
  have hv := vals_keyeds kvs m
  rw [checkLit, ofSlots_eq, hv]
  refine ⟨_, _, if_pos (by rw [List.length_map]; exact List.length_pos_iff.2 hne), fun p hp =>
    ⟨joinTypes_fits ?_, joinTypes_fits ?_⟩⟩
  · rw [List.length_map, ← List.map_take, take_keyeds, List.map_map, List.map_map]
    exact List.mem_map.2 ⟨p, hp, rfl⟩
  · rw [List.map_map]
    exact List.mem_map.2 ⟨p, hp, rfl⟩

end

/-- what plain entries list -/
theorem literal_plains {vs : List Val} (h : vs.length < 2 ^ 63) :
    (plains vs).foldl addEntry ([], 0) =
      (vs.mapIdx fun i v => (.int (Int64.ofNat i), v), Int64.ofNat vs.length) := by
  induction vs using List.reverseRecOn with
  | nil => rfl
  | append_singleton vs v ih =>
    rw [List.length_append, List.length_singleton] at h
    rw [plains, List.map_append, List.foldl_append]
    rw [plains] at ih
    rw [ih (by omega), List.mapIdx_concat, List.length_append, List.length_singleton]
    show (assign _ _ _, _) = _
    rw [assign_new, ofNat_succ]
    intro p hp he
    obtain ⟨i, hi, rfl⟩ := List.mem_mapIdx.1 hp
    have hval := congrArg Int64.toInt (HVal.int.inj he)
    rw [toInt_ofNat (by omega), toInt_ofNat (by omega)] at hval
    omega

theorem arrOf_entries (junk : Nat → Val) (vs : List Val) :
    (asKeyed (hpArrOf junk vs)).entries = vs.mapIdx fun i v => (.int (Int64.ofNat i), v) := by
  obtain ⟨hm, hlen, hvals⟩ := arrOf_vals junk vs
  refine List.ext_getElem ?_ fun i h1 h2 => ?_
  · rw [length_entries, asKeyed_len, hlen, List.length_mapIdx]
  · rw [List.length_mapIdx] at h2
    rw [getElem_entries, asKeyed_vals, hvals i h2, List.getElem_mapIdx, asKeyed_list hm]
    rfl

theorem right_plains (junk : Nat → Val) {vs : List Val} (h : vs.length < 2 ^ 31) :
    Right junk (plains vs) := by
  refine ⟨_, _, emit_plains vs, rfl, ?_⟩
  rw [cInt_of_lt h, Int.toNat_natCast, List.take_length, arrOf_entries, literalEntries,
    literal_plains (by omega)]

theorem foldl_keyed (kvs : List (Val × Val)) (r : List (Val × Val) × Int64) :
    (kvs.foldl (fun r p => addEntry r (.keyed p.1 p.2)) r).1 =
      kvs.foldl (fun l p => assign l p.1 p.2) r.1 := by
  induction kvs generalizing r with
  | nil => rfl
  | cons p kvs ih => exact ih _

theorem literal_keyeds (kvs : List (Val × Val)) (m : Nat) :
    literalEntries (keyeds kvs m) = kvs.foldl (fun l p => assign l p.1 p.2) [] := by
  have hempty : ∀ r : List (Val × Val) × Int64,
      (List.replicate m (Slot.empty : Slot Val)).foldl addEntry r = r := by
    intro r
    induction m with
    | zero => rfl
    | succ m ih => exact ih
  rw [literalEntries, keyeds, List.foldl_append, hempty, List.foldl_map]
  exact foldl_keyed kvs _

/-- a map that is filled with these keys -/
theorem mapOf_filled (junk : Nat → Val) {kvs : List (Val × Val)}
    (hk : ∀ p ∈ kvs, hashable p.1 = true ∧ p.1 ≠ .int Int64.maxValue) (hn : kvs.length < full) :
    ∃ a, hpMapOf junk kvs = some a ∧ Filled a ∧ a.len ≤ kvs.length ∧
      a.entries = kvs.foldl (fun l p => assign l p.1 p.2) [] := by
  induction kvs using List.reverseRecOn with
  | nil => exact ⟨_, rfl, emptyMap_filled junk, le_refl _, rfl⟩
  | append_singleton kvs p ih =>
    rw [List.length_append, List.length_singleton] at hn
    obtain ⟨m, hm, hf, hlen, he⟩ := ih (fun q hq => hk q (List.mem_append_left _ hq)) (by omega)
    obtain ⟨hh, hmax⟩ := hk p (List.mem_append_right _ List.mem_cons_self)
    obtain ⟨b, hb, hfb, heb⟩ := hf.set (v := p.2) hh hmax fun _ => by omega
    refine ⟨b, ?_, hfb, ?_, ?_⟩
    · rw [hpMapOf, List.foldlM_append, show kvs.foldlM _ (emptyMap junk) = some m from hm]
      show (hpArrSet m p.1 p.2).bind some = some b
      rw [hb]
      rfl
    · have hle := length_assign_le m.entries p.1 p.2
      rw [← heb, length_entries, length_entries] at hle
      rw [List.length_append, List.length_singleton]
      omega
    · rw [heb, he, List.foldl_append]
      rfl

theorem right_keyeds (junk : Nat → Val) {kvs : List (Val × Val)} {m : Nat} (hne : kvs ≠ [])
    (hk : ∀ p ∈ kvs, hashable p.1 = true ∧ p.1 ≠ .int Int64.maxValue)
    (h : kvs.length < 2 ^ 30) : Right junk (keyeds kvs m) := by
  obtain ⟨a, ha, hf, -, he⟩ := mapOf_filled junk hk (by unfold full; omega)
  refine ⟨_, a, emit_keyeds hne m, ?_, ?_⟩
  · rw [runBuild, cInt_of_lt (by omega)]
    have hn : (((kvs.length * 2 : Nat) : Int).tdiv 2).toNat = kvs.length := by
      rw [Int.tdiv_eq_ediv_of_nonneg (by omega)]
      omega
    rw [hn, List.take_length]
    exact ha
  · rw [asKeyed_map hf.map, he, literal_keyeds]

/-! ## literals that are wrong -/

/-- the key and the values of the literals that go wrong -/
def oddKey : Val := .str (some [])

def odd : SlotKind → Slot Val
  | .plain => .plain (.int 1)
  | .keyed => .keyed oddKey (.int 0)
  | .empty => .empty

theorem oddKey_ok : hashable oddKey = true ∧ oddKey ≠ .int Int64.maxValue :=
  ⟨rfl, fun h => nomatch h⟩

theorem odd_ok (k : SlotKind) : KeyOk (odd k) := by
  cases k with
  | keyed => exact oddKey_ok
  | _ => trivial

theorem odd_kinds (shape : List SlotKind) : (shape.map odd).map Slot.kind = shape := by
  rw [List.map_map, List.map_congr_left (g := id) fun k _ => by cases k <;> rfl, List.map_id]

theorem right_vals {ss : List (Slot Val)} (h : Right junk ss) {c : Build Val}
    (hc : emitArrayLit (Lit.ofSlots ss) = some c) {p : Val × Val} (hp : p ∈ literalEntries ss) :
    p.2 ∈ c.taken := by
  obtain ⟨c', a, hc', ha, he⟩ := h
  obtain rfl := Option.some.inj (hc.symm.trans hc')
  rw [← he] at hp
  exact runBuild_vals ha hp

/-- the last of the plain entries is lost -/
theorem plains_wrong (junk : Nat → Val) {n : Nat} (h : 2 ^ 31 ≤ n) :
    ∃ vs : List Val, vs.length = n ∧ ¬ Right junk (plains vs) := by
  have hlen : (List.replicate (n - 1) (.int 0) ++ [.int 1] : List Val).length = n := by
    rw [List.length_append, List.length_replicate, List.length_singleton]
    omega
  refine ⟨_, hlen, fun hr => ?_⟩
  obtain ⟨k, hk⟩ : ∃ k, (k, (.int 1 : Val)) ∈
      literalEntries (plains (List.replicate (n - 1) (.int 0) ++ [.int 1])) := by
    rw [literalEntries, plains, List.map_append, List.foldl_append]
    exact ⟨_, mem_assign_self ..⟩
  have hv := right_vals hr (emit_plains _) hk
  have hlt := cInt_lt h
  rw [Build.taken, hlen, List.take_append_of_le_length (by rw [List.length_replicate]; omega),
    List.take_replicate] at hv
  have h10 : (.int 1 : Val) = .int 0 := List.eq_of_mem_replicate hv
  exact absurd h10 (by decide)

/-- the last of the keyed entries is lost -/
theorem keyeds_wrong (junk : Nat → Val) {n : Nat} (m : Nat) (h : 2 ^ 30 ≤ n) :
    ∃ kvs : List (Val × Val), kvs.length = n ∧
      (∀ p ∈ kvs, hashable p.1 = true ∧ p.1 ≠ .int Int64.maxValue) ∧
      ¬ Right junk (keyeds kvs m) := by
  have hlen : (List.replicate (n - 1) (oddKey, .int 0) ++ [(oddKey, .int 1)] :
      List (Val × Val)).length = n := by
    rw [List.length_append, List.length_replicate, List.length_singleton]
    omega
  refine ⟨_, hlen, fun p hp => ?_, fun hr => ?_⟩
  · rcases List.mem_append.1 hp with hp | hp
    · rw [List.eq_of_mem_replicate hp]
      exact oddKey_ok
    · rw [List.mem_singleton.1 hp]
      exact oddKey_ok
  · have hk : (oddKey, (.int 1 : Val)) ∈ literalEntries
        (keyeds (List.replicate (n - 1) (oddKey, .int 0) ++ [(oddKey, .int 1)]) m) := by
      rw [literal_keyeds, List.foldl_append]
      exact mem_assign_self ..
    have hv := right_vals hr (emit_keyeds (by simp) m) hk
    have hlt := cInt_half_lt h
    rw [Build.taken, hlen, List.take_append_of_le_length (by rw [List.length_replicate]; omega),
      List.take_replicate, List.map_replicate] at hv
    have h10 : (.int 1 : Val) = .int 0 := List.eq_of_mem_replicate hv
    exact absurd h10 (by decide)

/-- an entry that no odd slot takes away -/
def Stays (l : List (Val × Val)) : Prop := ∃ i, (.int i, .int 1) ∈ l

theorem Stays.add {r : List (Val × Val) × Int64} (h : Stays r.1) (k : SlotKind) :
    Stays (addEntry r (odd k)).1 := by
  obtain ⟨i, hi⟩ := h
  cases k with
  | plain =>
    by_cases hn : i = r.2
    · exact ⟨r.2, mem_assign_self ..⟩
    · exact ⟨i, mem_assign_of_ne hi fun h => hn (HVal.int.inj h)⟩
  | keyed => exact ⟨i, mem_assign_of_ne hi fun h => nomatch h⟩
  | empty => exact ⟨i, hi⟩

theorem Stays.foldl {r : List (Val × Val) × Int64} (h : Stays r.1) (shape : List SlotKind) :
    Stays ((shape.map odd).foldl addEntry r).1 := by
  induction shape generalizing r with
  | nil => exact h
  | cons k shape ih => exact ih (h.add k)

theorem stays_of_plain {shape : List SlotKind} (h : .plain ∈ shape) :
    Stays (literalEntries (shape.map odd)) := by
  obtain ⟨s, t, rfl⟩ := List.append_of_mem h
  rw [literalEntries, List.map_append, List.foldl_append]
  exact Stays.foldl (r := addEntry _ (odd .plain)) ⟨_, mem_assign_self ..⟩ t

theorem odd_vals {shape : List SlotKind} : ∀ v ∈ (shape.map odd).filterMap Slot.val, v = .int 0 := by
  intro v hv
  obtain ⟨s, hs, hv⟩ := List.mem_filterMap.1 hv
  obtain ⟨k, -, rfl⟩ := List.mem_map.1 hs
  cases k with
  | keyed => exact (Option.some.inj hv).symm
  | _ => cases hv

/-- the plain entries among keyed ones are lost -/
theorem mixed_wrong (junk : Nat → Val) {shape : List SlotKind} (hp : .plain ∈ shape)
    (hk : .keyed ∈ shape) : ¬ Right junk (shape.map odd) := by
  intro hr
  obtain ⟨i, hi⟩ := stays_of_plain hp
  obtain ⟨c, -, hc, -⟩ := id hr
  have hv := right_vals hr hc hi
  rw [emit_eq, odd_kinds, if_pos (Nat.ne_of_gt (List.count_pos_iff.2 hk))] at hc
  obtain ⟨ks, -, rfl⟩ := Option.map_eq_some_iff.1 hc
  obtain ⟨p, hpm, hp1⟩ := List.mem_map.1 hv
  have h0 := odd_vals p.2 (List.of_mem_zip (List.mem_of_mem_take hpm)).2
  have h10 : (.int 1 : Val) = .int 0 := hp1.symm.trans h0
  exact absurd h10 (by decide)

theorem mapM_empty {E : Type} {ss : List (Slot E)} (h : .empty ∈ ss) :
    ss.mapM Slot.elem = none := by
  induction ss with
  | nil => cases h
  | cons s ss ih =>
    rw [List.mapM_cons]
    rcases List.mem_cons.1 h with rfl | h
    · rfl
    · rw [ih h]
      cases s.elem <;> rfl

/-- an empty slot in front of a keyed entry stops the compiler -/
theorem emit_none {shape : List SlotKind} (hp : .plain ∉ shape) (hk : .keyed ∈ shape)
    (h : ∀ n m, shape ≠ List.replicate n .keyed ++ List.replicate m .empty) :
    emitArrayLit (Lit.ofSlots (shape.map odd)) = none := by
  have hmem : .empty ∈ shape.take (shape.count .keyed) := by
    by_contra he
    have htake : shape.take (shape.count .keyed) = List.replicate (shape.count .keyed) .keyed := by
      refine List.eq_replicate_iff.2 ⟨?_, fun k hk => ?_⟩
      · rw [List.length_take]
        exact min_eq_left List.count_le_length
      · cases k with
        | plain => exact absurd (List.mem_of_mem_take hk) hp
        | keyed => rfl
        | empty => exact absurd hk he
    have hdrop : (shape.drop (shape.count .keyed)).count .keyed = 0 := by
      have hsum := congrArg (List.count SlotKind.keyed)
        (List.take_append_drop (shape.count .keyed) shape)
      rw [List.count_append, htake, List.count_replicate_self] at hsum
      omega
    have hempty : shape.drop (shape.count .keyed) =
        List.replicate (shape.drop (shape.count .keyed)).length .empty := by
      refine List.eq_replicate_length.2 fun k hk => ?_
      cases k with
      | plain => exact absurd (List.mem_of_mem_drop hk) hp
      | keyed => exact absurd hk (List.count_eq_zero.1 hdrop)
      | empty => rfl
    refine h (shape.count .keyed) (shape.drop (shape.count .keyed)).length ?_
    rw [← htake, ← hempty, List.take_append_drop]
  rw [emit_eq, odd_kinds, if_pos (Nat.ne_of_gt (List.count_pos_iff.2 hk)), ← List.map_take,
    mapM_empty (List.mem_map_of_mem (f := odd) hmem)]
  rfl

/-- and so do empty slots only -/
theorem emit_empty {shape : List SlotKind} (hk : .keyed ∉ shape) (he : .empty ∈ shape) :
    emitArrayLit (Lit.ofSlots (shape.map odd)) = none := by
  rw [emit_eq, odd_kinds, List.count_eq_zero_of_not_mem hk, if_neg (fun h => h rfl),
    mapM_empty (List.mem_map_of_mem (f := odd) he)]
  rfl

end

theorem plains_of_kinds {n : Nat} {ss : List (Slot Val)}
    (h : ss.map Slot.kind = List.replicate n .plain) : ∃ vs, vs.length = n ∧ ss = plains vs := by
  induction ss generalizing n with
  | nil => exact ⟨[], by simpa using congrArg List.length h, rfl⟩
  | cons s ss ih =>
    cases n with
    | zero => cases h
    | succ n =>
      obtain ⟨hs, hss⟩ := List.cons.inj h
      obtain ⟨vs, rfl, rfl⟩ := ih hss
      cases s with
      | plain v => exact ⟨v :: vs, rfl, rfl⟩
      | keyed k v => cases hs
      | empty => cases hs

theorem keyeds_of_kinds {n m : Nat} {ss : List (Slot Val)}
    (h : ss.map Slot.kind = List.replicate n .keyed ++ List.replicate m .empty) :
    ∃ kvs, kvs.length = n ∧ ss = keyeds kvs m := by
  induction n generalizing ss with
  | zero =>
    refine ⟨[], rfl, List.eq_replicate_iff.2 ⟨by simpa using congrArg List.length h, fun s hs => ?_⟩⟩
    have hk : s.kind = .empty := List.eq_of_mem_replicate (h ▸ List.mem_map_of_mem hs)
    cases s with
    | plain v => cases hk
    | keyed k v => cases hk
    | empty => rfl
  | succ n ih =>
    cases ss with
    | nil => cases h
    | cons s ss =>
      obtain ⟨hs, hss⟩ := List.cons.inj h
      obtain ⟨kvs, rfl, rfl⟩ := ih hss
      cases s with
      | plain v => cases hs
      | keyed k v => exact ⟨(k, v) :: kvs, rfl, rfl⟩
      | empty => cases hs

/-- **Which literals are right**: all literals of a shape are if and only if it has only plain
entries, or only keyed ones with empty slots behind them, and not too many of them. -/
theorem array_lit_iff (junk : Nat → Val) (shape : List SlotKind) :
    (∀ ss : List (Slot Val), ss.map Slot.kind = shape → (∀ s ∈ ss, KeyOk s) → Right junk ss) ↔
      WellShaped shape := by
  constructor
  · intro h
    have hodd : Right junk (shape.map odd) := by
      refine h _ (odd_kinds shape) fun s hs => ?_
      obtain ⟨k, -, rfl⟩ := List.mem_map.1 hs
      exact odd_ok k
    have hsome : emitArrayLit (Lit.ofSlots (shape.map odd)) ≠ none := by
      obtain ⟨c, -, hc, -⟩ := hodd
      rw [hc]
      exact Option.some_ne_none c
    by_cases hk : .keyed ∈ shape
    · have hp : .plain ∉ shape := fun hp => mixed_wrong junk hp hk hodd
      by_cases hform : ∃ n m, shape = List.replicate n .keyed ++ List.replicate m .empty
      · obtain ⟨n, m, rfl⟩ := hform
        refine .inr ⟨n, m, rfl, Nat.pos_of_ne_zero ?_, ?_⟩
        · rintro rfl
          exact absurd (List.eq_of_mem_replicate hk) (by decide)
        · by_contra hn
          obtain ⟨kvs, rfl, hok, hw⟩ := keyeds_wrong junk m (Nat.not_lt.1 hn)
          refine hw (h _ (kinds_keyeds kvs m) fun s hs => ?_)
          rcases List.mem_append.1 hs with hs | hs
          · obtain ⟨p, hp, rfl⟩ := List.mem_map.1 hs
            exact hok p hp
          · rw [List.eq_of_mem_replicate hs]
            trivial
      · exact absurd (emit_none hp hk fun n m he => hform ⟨n, m, he⟩) hsome
    · have he : .empty ∉ shape := fun he => hsome (emit_empty hk he)
      have hall : shape = List.replicate shape.length .plain := by
        refine List.eq_replicate_length.2 fun k hm => ?_
        cases k with
        | plain => rfl
        | keyed => exact absurd hm hk
        | empty => exact absurd hm he
      refine .inl ⟨shape.length, hall, ?_⟩
      by_contra hn
      obtain ⟨vs, hlen, hw⟩ := plains_wrong junk (Nat.not_lt.1 hn)
      refine hw (h _ ?_ fun s hs => ?_)
      · rw [kinds_plains, hlen, ← hall]
      · obtain ⟨v, -, rfl⟩ := List.mem_map.1 hs
        trivial
  · rintro (⟨n, rfl, hn⟩ | ⟨n, m, rfl, h0, hn⟩) ss hs hok
    · obtain ⟨vs, rfl, rfl⟩ := plains_of_kinds hs
      exact right_plains junk hn
    · obtain ⟨kvs, rfl, rfl⟩ := keyeds_of_kinds hs
      refine right_keyeds junk (List.ne_nil_of_length_pos h0) (fun p hp => ?_) hn
      exact hok _ (List.mem_append_left _ (List.mem_map_of_mem (f := fun p => _) hp))

/-- `["" => 0, 1]` has one entry -/
theorem array_lit_mixed : ¬ ∀ (junk : Nat → Val) (ss : List (Slot Val)), (∀ s ∈ ss, KeyOk s) →
    Right junk ss := by
  intro h
  have hp : SlotKind.plain ∈ [SlotKind.keyed, .plain] := by decide
  refine mixed_wrong (fun _ => .null) hp List.mem_cons_self (h _ _ fun s hs => ?_)
  obtain ⟨k, -, rfl⟩ := List.mem_map.1 hs
  exact odd_ok k

end Codegen
end HolyPhp
