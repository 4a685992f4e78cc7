import HolyPhp.Json.Cursor
import HolyPhp.Json.DecodeText

/-!
# When `jp_value` comes to its end

* `jpString_reads`, `jpValue_reads`  with rounds enough for the scanners the parser with a cursor
                      gives what `Std.jpString` and `Std.jpValue` give on the rest of the text;
* `objects`           the keys of every object that the parser meets, whatever the text is;
* `Robust p`          the parser ends on `p`, reads inside it and goes forward;
* `robust_iff`        **it does if and only if no object of the text has too many keys**.
-/

set_option autoImplicit false

namespace HolyPhp
namespace JsonP
open Scan
open HolyPhp.Arr (Val Harr hpArrSet emptyMap hpArrNew hpArrPush full)
open HolyPhp.Std (Heap hexCode utf8 unescape isFloatMark isNumByte)

/-! ## the scanners on the rest of the text -/

section
variable {p s : Bytes} {n : Nat}

theorem jpWs_reads (hn : s.length < n) : Reads p (jpWs p n) s (some ((), Std.jpWs s)) := by
  induction n generalizing s with
  | zero => exact absurd hn (Nat.not_lt_zero _)
  | succ n ih =>
    cases s with
    | nil => exact Reads.inside (fun _ => Reads.pure) nofun
    | cons c cs =>
      refine Reads.inside nofun fun _ _ _ => Reads.peek.seq (Reads.ite (fun hc => ?_) fun hc => ?_)
      · have hw : Std.jpWs (c :: cs) = Std.jpWs cs := if_pos (by simpa [isWs, or_assoc] using hc)
        rw [hw]
        exact (Reads.advance (Nat.le_add_left 1 _)).seq (ih (Nat.lt_of_succ_lt_succ hn))
      · have hw : Std.jpWs (c :: cs) = c :: cs := if_neg (by simpa [isWs, and_assoc] using hc)
        rw [hw]
        exact Reads.pure

theorem skip_reads {c : UInt8} : Reads p (skip p c) s (some ((), Std.skip c s)) := by
  refine Reads.isAt.seq ?_
  cases s with
  | nil => exact Reads.pure
  | cons d s =>
    refine Reads.ite (fun hd => ?_) fun hd => ?_
    · rw [Std.skip, if_pos (eq_of_beq hd)]
      exact Reads.advance (Nat.le_add_left 1 _)
    · rw [Std.skip, if_neg (ne_of_beq_false hd)]
      exact Reads.pure

theorem jpChars_esc {e : UInt8} (he : e ≠ 117) :
    Std.jpChars (92 :: e :: s) = (unescape e :: (Std.jpChars s).1, (Std.jpChars s).2) := by
  rw [Std.jpChars] <;> simp_all

/-- `\u` with less than four bytes behind it -/
theorem jpChars_cut (hs : s.length < 4) : Std.jpChars (92 :: 117 :: s) = Std.jpChars s := by
  match s, hs with
  | [], _ => rfl
  | [_], _ => rfl
  | [_, _], _ => rfl
  | [_, _, _], _ => rfl

theorem four_of_le (hs : 4 ≤ s.length) : ∃ a b c d t, s = a :: b :: c :: d :: t := by
  obtain ⟨a, s, rfl⟩ := List.exists_cons_of_length_pos (Nat.lt_of_lt_of_le (by decide) hs)
  have h3 : 3 ≤ s.length := Nat.le_of_succ_le_succ hs
  obtain ⟨b, s, rfl⟩ := List.exists_cons_of_length_pos (Nat.lt_of_lt_of_le (by decide) h3)
  have h2 : 2 ≤ s.length := Nat.le_of_succ_le_succ h3
  obtain ⟨c, s, rfl⟩ := List.exists_cons_of_length_pos (Nat.lt_of_lt_of_le (by decide) h2)
  obtain ⟨d, s, rfl⟩ := List.exists_cons_of_length_pos (Nat.le_of_succ_le_succ h2)
  exact ⟨a, b, c, d, s, rfl⟩

/-- the loop stops in front of the closing quote -/
theorem jpChars_reads {b : Bytes} (hn : s.length < n) :
    ∃ r, Reads p (jpChars p n b) s (some (b ++ (Std.jpChars s).1, r)) ∧
      r.drop 1 = (Std.jpChars s).2 := by
  induction n generalizing s b with
  | zero => exact absurd hn (Nat.not_lt_zero _)
  | succ n ih =>
    cases s with
    | nil =>
      refine ⟨[], Reads.inside (fun _ => ?_) nofun, rfl⟩
      rw [show (Std.jpChars []).1 = [] from rfl, List.append_nil]
      exact Reads.pure
    | cons c s =>
      have hlt : s.length < n := Nat.lt_of_succ_lt_succ hn
      by_cases hq : c = 34
      · subst hq
        refine ⟨34 :: s, Reads.inside nofun fun _ _ _ => Reads.peek.seq ?_, rfl⟩
        rw [show (Std.jpChars (34 :: s)).1 = [] from rfl, List.append_nil]
        exact Reads.ite (fun _ => Reads.pure) fun h => absurd h (by decide)
      -- any other byte: it is taken, and the loop goes on
      suffices hrest : ∃ r, Reads p (do
            let more ← room p 1
            if c == 92 && more then
              let e ← next p
              if e == 117 then
                if ← room p 4 then
                  let h₁ ← next p
                  let h₂ ← next p
                  let h₃ ← next p
                  let h₄ ← next p
                  jpChars p n (b ++ utf8 (hexCode h₁ h₂ h₃ h₄))
                else jpChars p n b
              else jpChars p n (b ++ [unescape e])
            else jpChars p n (b ++ [c])) s (some (b ++ (Std.jpChars (c :: s)).1, r)) ∧
          r.drop 1 = (Std.jpChars (c :: s)).2 by
        obtain ⟨r, hr, hd⟩ := hrest
        refine ⟨r, Reads.inside nofun fun _ _ _ => Reads.peek.seq ?_, hd⟩
        exact Reads.ite (fun h => absurd (eq_of_beq h) hq) fun _ => Reads.next.seq hr
      by_cases hb : c = 92
      · subst hb
        cases s with
        | nil =>
          obtain ⟨r, hr, hd⟩ := ih (b := b ++ [92]) hlt
          rw [show (Std.jpChars []).1 = [] from rfl, List.append_nil] at hr
          exact ⟨r, Reads.room.seq (Reads.ite_neg rfl hr), hd⟩
        | cons e s =>
          have hlt' : s.length < n := Nat.lt_of_succ_lt hlt
          by_cases hu : e = 117
          · subst hu
            by_cases h4 : s.length < 4
            · rw [jpChars_cut h4]
              obtain ⟨r, hr, hd⟩ := ih (b := b) hlt'
              refine ⟨r, Reads.room.seq (Reads.ite_pos rfl (Reads.next.seq (Reads.ite_pos rfl ?_))), hd⟩
              exact Reads.room.seq (Reads.ite_neg (decide_eq_false (Nat.not_le_of_lt h4)) hr)
            · obtain ⟨h₁, h₂, h₃, h₄, t, rfl⟩ := four_of_le (Nat.le_of_not_lt h4)
              have hlt4 : t.length < n := by
                simp only [List.length_cons] at hlt'
                omega
              obtain ⟨r, hr, hd⟩ := ih (b := b ++ utf8 (hexCode h₁ h₂ h₃ h₄)) hlt4
              rw [List.append_assoc] at hr
              refine ⟨r, Reads.room.seq (Reads.ite_pos rfl (Reads.next.seq (Reads.ite_pos rfl ?_))), hd⟩
              refine Reads.room.seq (Reads.ite_pos (decide_eq_true (Nat.le_of_not_lt h4)) ?_)
              exact Reads.next.seq (Reads.next.seq (Reads.next.seq (Reads.next.seq hr)))
          · obtain ⟨r, hr, hd⟩ := ih (b := b ++ [unescape e]) hlt'
            rw [List.append_assoc] at hr
            rw [jpChars_esc hu]
            refine ⟨r, Reads.room.seq (Reads.ite_pos rfl (Reads.next.seq ?_)), hd⟩
            exact Reads.ite_neg (beq_false_of_ne hu) hr
      · obtain ⟨r, hr, hd⟩ := ih (b := b ++ [c]) hlt
        rw [List.append_assoc] at hr
        rw [Std.jpChars_raw hq hb]
        refine ⟨r, Reads.room.seq (Reads.ite_neg ?_ hr), hd⟩
        rw [beq_false_of_ne hb]
        rfl

theorem jpString_reads (hn : s.length < n) : Reads p (jpString p n) s (some (Std.jpString s)) := by
  refine Reads.isAt.seq ?_
  cases s with
  | nil => exact Reads.pure
  | cons c s =>
    by_cases hc : c = 34
    · subst hc
      obtain ⟨r, hr, hd⟩ := jpChars_reads (p := p) (b := []) (Nat.lt_of_succ_lt hn)
      refine Reads.ite_pos rfl ((Reads.advance (Nat.le_add_left 1 _)).seq (hr.seq ?_))
      rw [show Std.jpString (34 :: s) = ((Std.jpChars s).1, (Std.jpChars s).2) from rfl, ← hd]
      cases r with
      | nil => exact Reads.inside (fun _ => Reads.pure) nofun
      | cons x r =>
        exact Reads.inside nofun fun _ _ _ => (Reads.advance (Nat.le_add_left 1 _)).seq Reads.pure
    · refine Reads.ite_neg (beq_false_of_ne hc) ?_
      have hs : Std.jpString (c :: s) = ([], c :: s) := by
        rw [Std.jpString]
        intro cs he
        exact hc (List.cons.inj he).1
      rw [hs]
      exact Reads.pure

theorem literal_reads {w : Bytes} : Reads p (literal p w) s (some (s.take w.length == w, s)) := by
  refine Reads.of_suffix fun hsuf => Reads.room.seq (Reads.ite (fun hr => ?_) fun hr => ?_)
  · have hlen := hsuf.length_le
    have hle := of_decide_eq_true hr
    refine Reads.place.seq ((Reads.readMany (by omega)).seq ?_)
    rw [← List.suffix_iff_eq_drop.1 hsuf]
    exact Reads.pure
  · have hne : (s.take w.length == w) = false := by
      refine beq_false_of_ne fun he => of_decide_eq_false hr ?_
      rw [← he, List.length_take]
      exact Nat.min_le_right ..
    rw [hne]
    exact Reads.pure

theorem jpDigits_reads (isf : Bool) (hn : s.length < n) : Reads p (jpDigits p n isf) s
    (some (isf || (s.takeWhile isNumByte).any isFloatMark, s.dropWhile isNumByte)) := by
  induction n generalizing s isf with
  | zero => exact absurd hn (Nat.not_lt_zero _)
  | succ n ih =>
    cases s with
    | nil =>
      rw [List.takeWhile_nil, List.any_nil, Bool.or_false]
      exact Reads.inside (fun _ => Reads.pure) nofun
    | cons d s =>
      have hlt : s.length < n := Nat.lt_of_succ_lt_succ hn
      have hadv : Reads p (advance 1) (d :: s) (some ((), s)) := Reads.advance (Nat.le_add_left 1 _)
      refine Reads.inside nofun fun _ _ _ => Reads.peek.seq (Reads.ite (fun hf => ?_) fun hf => ?_)
      · have hd : isNumByte d = true := by simp [isNumByte, hf]
        rw [List.takeWhile_cons_of_pos hd, List.dropWhile_cons_of_pos hd, List.any_cons, hf,
          Bool.true_or, Bool.or_true]
        have hrest := ih true hlt
        rw [Bool.true_or] at hrest
        exact hadv.seq hrest
      · refine Reads.ite (fun hd => ?_) fun hd => ?_
        · rw [List.takeWhile_cons_of_pos hd, List.dropWhile_cons_of_pos hd, List.any_cons, hf,
            Bool.false_or]
          exact hadv.seq (ih isf hlt)
        · rw [List.takeWhile_cons_of_neg (ne_true_of_eq_false hd),
            List.dropWhile_cons_of_neg (ne_true_of_eq_false hd), List.any_nil, Bool.or_false]
          exact Reads.pure

theorem jpNumber_reads (strtod : Bytes → Double) (hne : s ≠ []) (hn : s.length < n) :
    Reads p (jpNumber p strtod n) s (some (Std.jpNumber strtod s)) := by
  refine Reads.of_suffix fun hsuf => ?_
  have hlen := hsuf.length_le
  have hsplit := congrArg List.length (List.takeWhile_append_dropWhile (p := isNumByte) (l := s))
  rw [List.length_append] at hsplit
  refine Reads.place.seq ((jpDigits_reads false hn).seq (Reads.place.seq ?_))
  unfold Std.jpNumber
  by_cases ht : s.takeWhile isNumByte = []
  · rw [ht, List.length_nil, Nat.zero_add] at hsplit
    have hd : s.dropWhile isNumByte = s := by
      have := List.takeWhile_append_dropWhile (p := isNumByte) (l := s)
      rwa [ht, List.nil_append] at this
    rw [if_pos (by rw [hsplit]), hd]
    simp only [ht, if_true]
    refine (Reads.advance ?_).seq Reads.pure
    exact List.length_pos_iff.2 hne
  · have hpos : 0 < (s.takeWhile isNumByte).length := List.length_pos_iff.2 ht
    have hsub : p.length - (s.dropWhile isNumByte).length - (p.length - s.length) =
        (s.takeWhile isNumByte).length := by omega
    rw [if_neg (by omega), hsub]
    simp only [if_neg ht]
    refine (Reads.readMany (by omega)).seq ?_
    have htake : ∀ a b : Bytes, a.take 63 = (a ++ b).take (min a.length 63) := by
      intro a b
      rw [List.take_append_of_le_length (Nat.min_le_left ..), Nat.min_comm, ← List.take_take,
        List.take_length]
    rw [← List.suffix_iff_eq_drop.1 hsuf, htake _ (s.dropWhile isNumByte),
      List.takeWhile_append_dropWhile, Bool.false_or]
    exact Reads.pure

end

/-! ## values on the rest of the text -/

section
variable {p s : Bytes} {n : Nat} {strtod : Bytes → Double} {junk : Nat → Val} {h : Heap}

/-- a result of the parser without a cursor, as one of the parser with it -/
def paired (r : Val × Heap × Bytes) : (Val × Heap) × Bytes := ((r.1, r.2.1), r.2.2)

/-- the suffixes of the text are shorter than the rounds that the scanners have -/
theorem reads_of_len {τ : Type} {m : Run τ} {o : Option (τ × Bytes)} (hn : p.length < n)
    (h : s.length < n → Reads p m s o) : Reads p m s o :=
  Reads.of_suffix fun hsuf => h (Nat.lt_of_le_of_lt hsuf.length_le hn)

theorem ws_reads (hn : p.length < n) : Reads p (jpWs p n) s (some ((), Std.jpWs s)) :=
  reads_of_len hn jpWs_reads

theorem isAt_cons {c d : UInt8} : Reads p (isAt p c) (d :: s) (some (d == c, d :: s)) := Reads.isAt

theorem isAt_nil {c : UInt8} : Reads p (isAt p c) [] (some (false, [])) := Reads.isAt

theorem advance_cons {c : UInt8} : Reads p (advance 1) (c :: s) (some ((), s)) :=
  Reads.advance (Nat.le_add_left 1 _)

/-- the text does not begin with the word -/
theorem take_beq_false {w : Bytes} (hw : ∀ cs, s ≠ w ++ cs) : (s.take w.length == w) = false := by
  refine beq_false_of_ne fun he => hw (s.drop w.length) ?_
  calc s = s.take w.length ++ s.drop w.length := (List.take_append_drop ..).symm
    _ = w ++ s.drop w.length := by rw [he]

/-- a byte that is there is skipped; behind another one the computation goes on with `m'` -/
theorem reads_isAt {τ : Type} {c : UInt8} {m m' : Run τ} {o : Option (τ × Bytes)}
    (ht : ∀ cs, s = c :: cs → Reads p m cs o) (hf : (∀ cs, s ≠ c :: cs) → Reads p m' s o) :
    Reads p (isAt p c >>= fun b => if b then advance 1 >>= fun _ => m else m') s o := by
  cases s with
  | nil => exact isAt_nil.seq (Reads.ite_neg rfl (hf nofun))
  | cons d s =>
    refine isAt_cons.seq (Reads.ite (fun hd => ?_) fun hd => ?_)
    · exact advance_cons.seq (ht s (by rw [eq_of_beq hd]))
    · exact hf fun cs he => ne_of_beq_false hd (List.cons.inj he).1

/-- a byte behind the test that there is one -/
theorem reads_inside {τ : Type} {c : UInt8} {m' : Run τ} {f : UInt8 → Run τ}
    {o : Option (τ × Bytes)} (h : Reads p (f c) (c :: s) o) :
    Reads p (room p 1 >>= fun b => if b then peek p >>= f else m') (c :: s) o :=
  Reads.inside nofun fun _ _ _ => Reads.peek.seq h

/-- a computation behind a value -/
theorem reads_behind {m : Run (Val × Heap)} {f : Val × Heap → Run (Val × Heap)}
    {o : Option (Val × Heap × Bytes)} {K : Val × Heap × Bytes → Option (Val × Heap × Bytes)}
    (hm : Reads p m s (o.map paired))
    (hf : ∀ r, o = some r → Reads p (f (r.1, r.2.1)) r.2.2 ((K r).map paired)) :
    Reads p (m >>= f) s ((o.bind K).map paired) := by
  cases o with
  | none => exact Reads.bind (g := fun _ => none) hm nofun
  | some r => exact hm.seq (hf r rfl)

/-- `,` starts the next round, and anything else ends the loop -/
theorem comma_reads {c : UInt8} {v : Val × Heap} {m : Run (Val × Heap)}
    {o : Bytes → Option (Val × Heap × Bytes)} {t : Bytes}
    (hm : ∀ cs, t = 44 :: cs → Reads p m cs ((o cs).map paired)) :
    Reads p (isAt p 44 >>= fun b =>
      if b then advance 1 >>= fun _ => m else skip p c >>= fun _ => pure v) t
      ((match t with | 44 :: cs => o cs | cs => some (v.1, v.2, Std.skip c cs)).map paired) := by
  refine reads_isAt (fun cs hd => ?_) fun hd => ?_
  · subst hd
    exact hm cs rfl
  · split
    · exact absurd rfl (hd _)
    · exact skip_reads.seq Reads.pure

variable (strtod junk) in
theorem values_reads (hn : p.length < n) (fuel : Nat) :
    (∀ h s, Reads p (jpValue p strtod junk n fuel h) s
      ((Std.jpValue strtod junk fuel h s).map paired)) ∧
    (∀ h m s, Reads p (jpMembers p strtod junk n fuel h m) s
      ((Std.jpMembers strtod junk fuel h m s).map paired)) ∧
    ∀ h a s, Reads p (jpElems p strtod junk n fuel h a) s
      ((Std.jpElems strtod junk fuel h a s).map paired) := by
  induction fuel with
  | zero => exact ⟨fun _ _ => Reads.never, fun _ _ _ => Reads.never, fun _ _ _ => Reads.never⟩
  | succ fuel ih =>
    obtain ⟨ihv, ihm, ihe⟩ := ih
    refine ⟨fun h s => ?_, fun h m s => ?_, fun h a s => ?_⟩
    · refine (ws_reads hn).seq ?_
      rw [Std.jpValue]
      split
      · rename_i e
        rw [e]
        exact Reads.inside (fun _ => Reads.pure) fun c cs h => by cases h
      · rename_i cs e
        rw [e]
        refine reads_inside (Reads.ite_pos rfl ?_)
        refine advance_cons.seq ((ws_reads hn).seq ?_)
        refine reads_isAt (fun ds hd => ?_) fun hd => ?_
        · rw [hd]
          exact Reads.pure
        · split
          · rename_i e'
            exact absurd e' (hd _)
          · exact ihm _ _ _
      · rename_i cs e
        rw [e]
        refine reads_inside (Reads.ite_neg rfl (Reads.ite_pos rfl ?_))
        refine advance_cons.seq ((ws_reads hn).seq ?_)
        refine reads_isAt (fun ds hd => ?_) fun hd => ?_
        · rw [hd]
          exact Reads.pure
        · split
          · rename_i e'
            exact absurd e' (hd _)
          · exact ihe _ _ _
      · rename_i cs e
        rw [e]
        refine reads_inside (Reads.ite_neg rfl (Reads.ite_neg rfl (Reads.ite_pos rfl ?_)))
        exact (reads_of_len hn jpString_reads).seq Reads.pure
      · rename_i cs e
        rw [e]
        refine reads_inside (Reads.ite_neg rfl (Reads.ite_neg rfl (Reads.ite_neg rfl ?_)))
        refine literal_reads.seq (Reads.ite_pos rfl ?_)
        exact (Reads.advance (Nat.le_add_left 4 _)).seq Reads.pure
      · rename_i cs e
        rw [e]
        refine reads_inside (Reads.ite_neg rfl (Reads.ite_neg rfl (Reads.ite_neg rfl ?_)))
        refine literal_reads.seq (Reads.ite_neg rfl (literal_reads.seq (Reads.ite_pos rfl ?_)))
        exact (Reads.advance (Nat.le_add_left 5 _)).seq Reads.pure
      · rename_i cs e
        rw [e]
        refine reads_inside (Reads.ite_neg rfl (Reads.ite_neg rfl (Reads.ite_neg rfl ?_)))
        refine literal_reads.seq (Reads.ite_neg rfl (literal_reads.seq (Reads.ite_neg rfl ?_)))
        refine literal_reads.seq (Reads.ite_pos rfl ?_)
        exact (Reads.advance (Nat.le_add_left 4 _)).seq Reads.pure
      · rename_i h0 h1 h2 h3 h4 h5 h6
        obtain ⟨c, cs, e⟩ := List.exists_cons_of_ne_nil h0
        have hnum := reads_of_len hn (jpNumber_reads (p := p) strtod h0)
        have hc : ∀ d : UInt8, (∀ cs, Std.jpWs s ≠ d :: cs) → (c == d) = false :=
          fun d hd => beq_false_of_ne fun he => hd cs (e.trans (by rw [he]))
        rw [e] at h4 h5 h6 hnum ⊢
        refine reads_inside (Reads.ite_neg (hc 123 h1) (Reads.ite_neg (hc 91 h2)
          (Reads.ite_neg (hc 34 h3) ?_)))
        refine literal_reads.seq (Reads.ite_neg (take_beq_false h4) ?_)
        refine literal_reads.seq (Reads.ite_neg (take_beq_false h5) ?_)
        refine literal_reads.seq (Reads.ite_neg (take_beq_false h6) ?_)
        exact hnum.seq Reads.pure
    · refine (ws_reads hn).seq ((reads_of_len hn jpString_reads).seq ((ws_reads hn).seq ?_))
      refine skip_reads.seq ?_
      rw [Std.jpMembers]
      refine reads_behind (ihv h _) fun r _ => ?_
      dsimp only
      split
      · rename_i hset
        rw [hset]
        exact Reads.never
      · rename_i m' hset
        rw [hset]
        exact (ws_reads hn).seq (comma_reads fun cs _ => ihm r.2.1 m' cs)
    · rw [Std.jpElems]
      refine reads_behind (ihv h s) fun r _ => (ws_reads hn).seq ?_
      exact comma_reads fun cs _ => ihe r.2.1 (hpArrPush a r.1) cs

end

/-! ## the objects of a text -/

/-- what `jpNumber` leaves -/
def numberRest (s : Bytes) : Bytes :=
  if s.takeWhile isNumByte = [] then s.drop 1 else s.dropWhile isNumByte

mutual

/-- the keys of every object that the parser meets, in the order in which they come to their end,
and the rest of the text; `none` only where the fuel is short -/
def valueObjects : Nat → Bytes → Option (List (List Bytes) × Bytes)
  | 0, _ => none
  | fuel + 1, s =>
    match Std.jpWs s with
    | [] => some ([], [])
    | 123 :: cs =>
      match Std.jpWs cs with
      | 125 :: cs => some ([[]], cs)
      | cs => memberObjects fuel [] cs
    | 91 :: cs =>
      match Std.jpWs cs with
      | 93 :: cs => some ([], cs)
      | cs => elemObjects fuel cs
    | 34 :: cs => some ([], (Std.jpString (34 :: cs)).2)
    | 116 :: 114 :: 117 :: 101 :: cs => some ([], cs)
    | 102 :: 97 :: 108 :: 115 :: 101 :: cs => some ([], cs)
    | 110 :: 117 :: 108 :: 108 :: cs => some ([], cs)
    | cs => some ([], numberRest cs)

def memberObjects : Nat → List Bytes → Bytes → Option (List (List Bytes) × Bytes)
  | 0, _, _ => none
  | fuel + 1, ks, s =>
    let (k, s) := Std.jpString (Std.jpWs s)
    (valueObjects fuel (Std.skip 58 (Std.jpWs s))).bind fun (os, s) =>
      match Std.jpWs s with
      | 44 :: cs => (memberObjects fuel (ks ++ [k]) cs).map fun r => (os ++ r.1, r.2)
      | cs => some (os ++ [ks ++ [k]], Std.skip 125 cs)

def elemObjects : Nat → Bytes → Option (List (List Bytes) × Bytes)
  | 0, _ => none
  | fuel + 1, s =>
    (valueObjects fuel s).bind fun (os, s) =>
      match Std.jpWs s with
      | 44 :: cs => (elemObjects fuel cs).map fun r => (os ++ r.1, r.2)
      | cs => some (os, Std.skip 93 cs)

end

def objects (s : Bytes) : List (List Bytes) :=
  ((valueObjects (2 * s.length + 1) s).map Prod.fst).getD []

/-- every object has fewer than `2^31 - 4` distinct keys -/
def Fit (os : List (List Bytes)) : Prop := ∀ ks ∈ os, ks.toFinset.card < full

theorem Fit.append {os os' : List (List Bytes)} : Fit (os ++ os') ↔ Fit os ∧ Fit os' :=
  List.forall_mem_append

section
variable {s : Bytes} {fuel : Nat}

theorem length_jpWs (s : Bytes) : (Std.jpWs s).length ≤ s.length := by
  induction s with
  | nil => exact Nat.le_refl _
  | cons c s ih =>
    rw [Std.jpWs]
    split
    · exact Nat.le_succ_of_le ih
    · exact Nat.le_refl _

theorem length_jpChars (s : Bytes) : (Std.jpChars s).2.length ≤ s.length := by
  induction s using Std.jpChars.induct with
  | case1 => exact Nat.le_refl _
  | case2 cs => exact Nat.le_succ _
  | case3 => exact Nat.zero_le _
  | case4 a b c d cs ih => exact Nat.le_trans ih (Nat.le_add_right _ 6)
  | case5 cs _ ih =>
    rw [Std.jpChars]
    · exact Nat.le_trans ih (Nat.le_add_right _ 2)
    · assumption
  | case6 e cs _ _ ih =>
    rw [Std.jpChars]
    · exact Nat.le_trans ih (Nat.le_add_right _ 2)
    all_goals assumption
  | case7 c cs _ _ _ _ _ ih =>
    rw [Std.jpChars]
    · exact Nat.le_succ_of_le ih
    all_goals assumption

theorem length_jpString (s : Bytes) : (Std.jpString s).2.length ≤ s.length := by
  unfold Std.jpString
  split
  · exact Nat.le_succ_of_le (length_jpChars _)
  · exact Nat.le_refl _

theorem length_skip (c : UInt8) (s : Bytes) : (Std.skip c s).length ≤ s.length := by
  cases s with
  | nil => exact Nat.le_refl _
  | cons d s =>
    rw [Std.skip]
    split
    · exact Nat.le_succ _
    · exact Nat.le_refl _

theorem length_numberRest (s : Bytes) : (numberRest s).length ≤ s.length := by
  unfold numberRest
  split
  · rw [List.length_drop]
    omega
  · exact (List.dropWhile_suffix _).length_le

/-- **With fuel for two steps a byte the objects of the text are found.** -/
theorem objects_total (fuel : Nat) :
    (∀ s : Bytes, 2 * s.length + 1 ≤ fuel →
      ∃ os r, valueObjects fuel s = some (os, r) ∧ r.length ≤ s.length) ∧
    (∀ ks (s : Bytes), 2 * s.length + 2 ≤ fuel →
      ∃ os r, memberObjects fuel ks s = some (os, r) ∧ r.length ≤ s.length) ∧
    ∀ s : Bytes, 2 * s.length + 2 ≤ fuel →
      ∃ os r, elemObjects fuel s = some (os, r) ∧ r.length ≤ s.length := by
  induction fuel with
  | zero => exact ⟨nofun, nofun, nofun⟩
  | succ fuel ih =>
    obtain ⟨ihv, ihm, ihe⟩ := ih
    refine ⟨fun s hs => ?_, fun ks s hs => ?_, fun s hs => ?_⟩
    · have hw := length_jpWs s
      rw [valueObjects]
      split
      all_goals
        rename_i e
        try simp only [e, List.length_cons] at hw
      · exact ⟨_, _, rfl, Nat.zero_le _⟩
      · rename_i cs
        have hw' := length_jpWs cs
        split
        · rename_i e'
          rw [e', List.length_cons] at hw'
          exact ⟨_, _, rfl, by omega⟩
        · obtain ⟨os, r, h, hr⟩ := ihm [] (Std.jpWs cs) (by omega)
          exact ⟨os, r, h, by omega⟩
      · rename_i cs
        have hw' := length_jpWs cs
        split
        · rename_i e'
          rw [e', List.length_cons] at hw'
          exact ⟨_, _, rfl, by omega⟩
        · obtain ⟨os, r, h, hr⟩ := ihe (Std.jpWs cs) (by omega)
          exact ⟨os, r, h, by omega⟩
      · rename_i cs
        have := length_jpString (34 :: cs)
        exact ⟨_, _, rfl, Nat.le_trans this (by simp only [List.length_cons]; omega)⟩
      · exact ⟨_, _, rfl, by omega⟩
      · exact ⟨_, _, rfl, by omega⟩
      · exact ⟨_, _, rfl, by omega⟩
      · exact ⟨_, _, rfl, Nat.le_trans (length_numberRest _) (length_jpWs s)⟩
    · have h1 := length_jpWs s
      have h2 := length_jpString (Std.jpWs s)
      have h3 := length_jpWs (Std.jpString (Std.jpWs s)).2
      have h4 := length_skip 58 (Std.jpWs (Std.jpString (Std.jpWs s)).2)
      obtain ⟨os, r, hv, hr⟩ := ihv (Std.skip 58 (Std.jpWs (Std.jpString (Std.jpWs s)).2)) (by omega)
      have h5 := length_jpWs r
      rw [memberObjects]
      dsimp only
      rw [hv, Option.bind_some]
      dsimp only
      split
      · rename_i cs e
        rw [e, List.length_cons] at h5
        obtain ⟨os', r', hm, hr'⟩ := ihm (ks ++ [(Std.jpString (Std.jpWs s)).1]) cs (by omega)
        rw [hm]
        exact ⟨_, r', rfl, by omega⟩
      · exact ⟨_, _, rfl, by have := length_skip 125 (Std.jpWs r); omega⟩
    · obtain ⟨os, r, hv, hr⟩ := ihv s (by omega)
      have h5 := length_jpWs r
      rw [elemObjects, hv, Option.bind_some]
      dsimp only
      split
      · rename_i cs e
        rw [e, List.length_cons] at h5
        obtain ⟨os', r', hm, hr'⟩ := ihe cs (by omega)
        rw [hm]
        exact ⟨_, r', rfl, by omega⟩
      · exact ⟨_, _, rfl, by have := length_skip 93 (Std.jpWs r); omega⟩

/-- more fuel finds the same objects -/
theorem objects_mono (fuel : Nat) :
    (∀ s r, valueObjects fuel s = some r → valueObjects (fuel + 1) s = some r) ∧
    (∀ ks s r, memberObjects fuel ks s = some r → memberObjects (fuel + 1) ks s = some r) ∧
    ∀ s r, elemObjects fuel s = some r → elemObjects (fuel + 1) s = some r := by
  induction fuel with
  | zero => exact ⟨nofun, nofun, nofun⟩
  | succ fuel ih =>
    obtain ⟨ihv, ihm, ihe⟩ := ih
    refine ⟨fun s r h => ?_, fun ks s r h => ?_, fun s r h => ?_⟩
    · rw [valueObjects] at h ⊢
      generalize Std.jpWs s = t at h ⊢
      split at h
      · exact h
      · rename_i cs
        generalize Std.jpWs cs = t at h ⊢
        split at h
        · exact h
        · exact ihm _ _ _ h
      · rename_i cs
        generalize Std.jpWs cs = t at h ⊢
        split at h
        · exact h
        · exact ihe _ _ h
      · exact h
      · exact h
      · exact h
      · exact h
      · exact h
    · rw [memberObjects] at h ⊢
      dsimp only at h ⊢
      obtain ⟨a, hv, h⟩ := Option.bind_eq_some_iff.1 h
      rw [ihv _ _ hv, Option.bind_some]
      generalize Std.jpWs a.2 = t at h ⊢
      split at h
      · obtain ⟨b, hm, he⟩ := Option.map_eq_some_iff.1 h
        exact Option.map_eq_some_iff.2 ⟨b, ihm _ _ _ hm, he⟩
      · exact h
    · rw [elemObjects] at h ⊢
      obtain ⟨a, hv, h⟩ := Option.bind_eq_some_iff.1 h
      rw [ihv _ _ hv, Option.bind_some]
      dsimp only at h ⊢
      generalize Std.jpWs a.2 = t at h ⊢
      split at h
      · obtain ⟨b, hm, he⟩ := Option.map_eq_some_iff.1 h
        exact Option.map_eq_some_iff.2 ⟨b, ihe _ _ hm, he⟩
      · exact h

theorem valueObjects_le {r : List (List Bytes) × Bytes} {n : Nat} (hn : fuel ≤ n)
    (h : valueObjects fuel s = some r) : valueObjects n s = some r := by
  induction hn with
  | refl => exact h
  | step _ ih => exact (objects_mono _).1 s r ih

theorem valueObjects_eq (s : Bytes) :
    ∃ r, valueObjects (2 * s.length + 1) s = some (objects s, r) := by
  obtain ⟨os, r, h, -⟩ := (objects_total (2 * s.length + 1)).1 s (Nat.le_refl _)
  refine ⟨r, ?_⟩
  rw [objects, h]
  rfl

end

/-! ## what the parser makes of them -/

section
variable {m : Harr} {ks : List Bytes} {k : Bytes} {v : Val}

/-- the keys of the map are those of the list, each once -/
structure Keyed (m : Harr) (ks : List Bytes) : Prop where
  filled : Arr.Filled m
  keys : ∃ ds : List Bytes, ds.Nodup ∧ ds.toFinset = ks.toFinset ∧
    m.entries.map Prod.fst = ds.map fun d => .str (some d)

theorem Keyed.new (junk : Nat → Val) : Keyed (emptyMap junk) [] :=
  ⟨Arr.emptyMap_filled junk, [], List.nodup_nil, rfl, rfl⟩

theorem Keyed.len (h : Keyed m ks) : m.len = ks.toFinset.card := by
  obtain ⟨ds, hnd, heq, hmap⟩ := h.keys
  have := congrArg List.length hmap
  rw [List.length_map, List.length_map, Arr.length_entries] at this
  rw [this, ← heq, List.toFinset_card_of_nodup hnd]

/-- a key that the scan does not find is new -/
theorem Keyed.scan (h : Keyed m ks) : m.scan (.str (some k)) = none ↔ k ∉ ks := by
  obtain ⟨ds, -, heq, hmap⟩ := h.keys
  have hmem : k ∈ ks ↔ (.str (some k) : Val) ∈ m.entries.map Prod.fst := by
    rw [hmap, ← List.mem_toFinset, ← heq, List.mem_toFinset]
    simp
  rw [hmem, Harr.scan, List.find?_eq_none]
  constructor
  · intro hall hin
    obtain ⟨q, hq, hk⟩ := List.mem_map.1 hin
    obtain ⟨i, hi, rfl⟩ := List.mem_map.1 hq
    exact hall i hi (Arr.keyEq_iff.2 ⟨hk, rfl⟩)
  · intro hno i hi he
    refine hno (List.mem_map.2 ⟨(m.key i, m.vals i), List.mem_map.2 ⟨i, hi, rfl⟩, ?_⟩)
    exact (Arr.keyEq_iff.1 he).1

/-- **One member**: the map takes its key unless that is one too many. -/
theorem Keyed.set (h : Keyed m ks) (hlt : ks.toFinset.card < full) :
    if (ks ++ [k]).toFinset.card < full then
      ∃ b, hpArrSet m (.str (some k)) v = some b ∧ Keyed b (ks ++ [k])
    else hpArrSet m (.str (some k)) v = none := by
  have hlen := h.len
  have hto : (ks ++ [k]).toFinset = insert k ks.toFinset := by
    rw [List.toFinset_append]
    ext x
    simp
  by_cases hk : k ∈ ks
  · have hsame : (ks ++ [k]).toFinset = ks.toFinset := by
      rw [hto, Finset.insert_eq_of_mem (List.mem_toFinset.2 hk)]
    rw [if_pos (by rw [hsame]; exact hlt)]
    obtain ⟨b, hb, hf, he⟩ := h.filled.set (k := .str (some k)) (v := v) rfl nofun
      fun hs => absurd hk (h.scan.1 hs)
    obtain ⟨ds, hnd, heq, hmap⟩ := h.keys
    refine ⟨b, hb, hf, ds, hnd, heq.trans hsame.symm, ?_⟩
    rw [he, Assoc.keys_assign_mem, hmap]
    rw [hmap]
    exact List.mem_map.2 ⟨k, List.mem_toFinset.1 (heq ▸ List.mem_toFinset.2 hk), rfl⟩
  · have hcard : (ks ++ [k]).toFinset.card = ks.toFinset.card + 1 := by
      rw [hto, Finset.card_insert_of_notMem fun hm => hk (List.mem_toFinset.1 hm)]
    rw [hcard]
    split
    · rename_i hroom
      obtain ⟨b, hb, hf, he⟩ := h.filled.set (k := .str (some k)) (v := v) rfl nofun
        fun _ => by rw [hlen]; exact hroom
      obtain ⟨ds, hnd, heq, hmap⟩ := h.keys
      have hkd : k ∉ ds := fun hm => hk (List.mem_toFinset.1 (heq ▸ List.mem_toFinset.2 hm))
      refine ⟨b, hb, hf, ds ++ [k], ?_, ?_, ?_⟩
      · exact List.nodup_append.2 ⟨hnd, List.nodup_singleton k, fun x hx y hy he =>
          hkd (List.mem_singleton.1 hy ▸ he ▸ hx)⟩
      · rw [List.toFinset_append, heq, ← List.toFinset_append]
      · rw [he, Assoc.assign_new, List.map_append, hmap, List.map_append]
        · rfl
        · intro q hq hqk
          have hin : (.str (some k) : Val) ∈ m.entries.map Prod.fst :=
            hqk ▸ List.mem_map.2 ⟨q, hq, rfl⟩
          rw [hmap] at hin
          obtain ⟨d, hd, hdk⟩ := List.mem_map.1 hin
          exact hkd (Option.some.inj (HVal.str.inj hdk) ▸ hd)
    · rename_i hroom
      exact h.filled.set_full rfl (h.scan.2 hk) (by omega)

end

/-- the parser ends if the objects are fit, and only then -/
inductive Outcome : Option (List (List Bytes) × Bytes) → Option (Val × Heap × Bytes) → Prop
  | out : Outcome none none
  | ends {os : List (List Bytes)} {r : Bytes} {v : Val} {h : Heap} :
      Fit os → Outcome (some (os, r)) (some (v, h, r))
  | stuck {os : List (List Bytes)} {r : Bytes} : ¬ Fit os → Outcome (some (os, r)) none

section
variable {os : List (List Bytes)} {o : Option (List (List Bytes) × Bytes)}
variable {strtod : Bytes → Double} {junk : Nat → Val}

/-- the objects of a first value are in front of those of the next round -/
theorem Outcome.after {r : Option (Val × Heap × Bytes)} (h : Outcome o r) (hf : Fit os) :
    Outcome (o.map fun r => (os ++ r.1, r.2)) r := by
  cases h with
  | out => exact .out
  | ends h => exact .ends (Fit.append.2 ⟨hf, h⟩)
  | stuck h => exact .stuck fun hfit => h (Fit.append.1 hfit).2

theorem Outcome.unfit (h : ¬ Fit os) : Outcome (o.map fun r => (os ++ r.1, r.2)) none := by
  cases o with
  | none => exact .out
  | some r => exact .stuck fun hfit => h (Fit.append.1 hfit).1

/-- an object that has too many keys already stays so -/
theorem memberObjects_unfit {fuel : Nat} {ks : List Bytes} {s r : Bytes}
    (h : ¬ ks.toFinset.card < full) (hm : memberObjects fuel ks s = some (os, r)) : ¬ Fit os := by
  induction fuel generalizing ks s os r with
  | zero => nomatch hm
  | succ fuel ih =>
    have hmore : ∀ k, ¬ (ks ++ [k]).toFinset.card < full := by
      intro k hlt
      refine h (Nat.lt_of_le_of_lt (Finset.card_le_card ?_) hlt)
      rw [List.toFinset_append]
      exact Finset.subset_union_left
    rw [memberObjects] at hm
    obtain ⟨⟨os', s'⟩, -, hm⟩ := Option.bind_eq_some_iff.1 hm
    dsimp only at hm
    split at hm
    · obtain ⟨⟨os'', r'⟩, hm', he⟩ := Option.map_eq_some_iff.1 hm
      obtain ⟨rfl, rfl⟩ := Prod.mk.inj he
      exact fun hfit => ih (hmore _) hm' (Fit.append.1 hfit).2
    · obtain ⟨rfl, rfl⟩ := Prod.mk.inj (Option.some.inj hm)
      exact fun hfit => hmore _ (hfit _ (List.mem_append_right _ (List.mem_singleton_self _)))

theorem memberObjects_stuck {fuel : Nat} {ks : List Bytes} {s : Bytes}
    (h : ¬ ks.toFinset.card < full) (os : List (List Bytes)) :
    Outcome ((memberObjects fuel ks s).map fun r => (os ++ r.1, r.2)) none := by
  cases hm : memberObjects fuel ks s with
  | none => exact .out
  | some r => exact .stuck fun hfit => memberObjects_unfit h hm (Fit.append.1 hfit).2

variable (strtod) in
theorem jpNumber_rest (s : Bytes) : (Std.jpNumber strtod s).2 = numberRest s := by
  unfold Std.jpNumber numberRest
  dsimp only
  split
  · rfl
  · rfl

theorem fit_nil : Fit [] := nofun

/-- `{}` -/
theorem fit_empty : Fit [[]] := by
  intro ks hks
  rw [List.mem_singleton.1 hks]
  decide

variable (strtod junk) in
theorem outcomes (fuel : Nat) :
    (∀ h s, Outcome (valueObjects fuel s) (Std.jpValue strtod junk fuel h s)) ∧
    (∀ h m ks s, Keyed m ks → ks.toFinset.card < full →
      Outcome (memberObjects fuel ks s) (Std.jpMembers strtod junk fuel h m s)) ∧
    ∀ h a s, Outcome (elemObjects fuel s) (Std.jpElems strtod junk fuel h a s) := by
  induction fuel with
  | zero => exact ⟨fun _ _ => .out, fun _ _ _ _ _ _ => .out, fun _ _ _ => .out⟩
  | succ fuel ih =>
    obtain ⟨ihv, ihm, ihe⟩ := ih
    refine ⟨fun h s => ?_, fun h m ks s hk hlt => ?_, fun h a s => ?_⟩
    · rw [← Std.jpValue_jpWs, valueObjects]
      split
      · rename_i e
        rw [e]
        exact .ends fit_nil
      · rename_i cs e
        rw [e, Std.jpValue_obj]
        by_cases hnil : ∃ t, Std.jpWs cs = 125 :: t
        · obtain ⟨t, e'⟩ := hnil
          rw [e']
          exact .ends fit_empty
        · have hobj := ihm h (emptyMap junk) [] (Std.jpWs cs) (.new junk) (by decide)
          -- both sides look at the same byte
          repeat' split
          all_goals first | exact hobj | exact absurd ⟨_, ‹_›⟩ hnil
      · rename_i cs e
        rw [e, Std.jpValue_arr]
        by_cases hnil : ∃ t, Std.jpWs cs = 93 :: t
        · obtain ⟨t, e'⟩ := hnil
          rw [e']
          exact .ends fit_nil
        · have harr := ihe h (hpArrNew junk) (Std.jpWs cs)
          repeat' split
          all_goals first | exact harr | exact absurd ⟨_, ‹_›⟩ hnil
      · rename_i e
        rw [e]
        exact .ends fit_nil
      · rename_i e
        rw [e]
        exact .ends fit_nil
      · rename_i e
        rw [e]
        exact .ends fit_nil
      · rename_i e
        rw [e]
        exact .ends fit_nil
      · rename_i h0 h1 h2 h3 h4 h5 h6
        rw [Std.jpValue, Std.jpWs_jpWs]
        split
        · exact absurd ‹_› h0
        · exact absurd ‹_› (h1 _)
        · exact absurd ‹_› (h2 _)
        · exact absurd ‹_› (h3 _)
        · exact absurd ‹_› (h4 _)
        · exact absurd ‹_› (h5 _)
        · exact absurd ‹_› (h6 _)
        · rw [← jpNumber_rest strtod]
          exact .ends fit_nil
    · rw [memberObjects, Std.jpMembers]
      dsimp only
      have hv := ihv h (Std.skip 58 (Std.jpWs (Std.jpString (Std.jpWs s)).2))
      generalize valueObjects fuel (Std.skip 58 (Std.jpWs (Std.jpString (Std.jpWs s)).2)) = o at hv ⊢
      generalize Std.jpValue strtod junk fuel h _ = v at hv ⊢
      cases hv with
      | out => exact .out
      | stuck hos =>
        rw [Option.bind_some, Option.bind_none]
        dsimp only
        split
        · exact .unfit hos
        · exact .stuck fun hfit => hos (Fit.append.1 hfit).1
      | @ends os r v h hos =>
        have hset := hk.set (k := (Std.jpString (Std.jpWs s)).1) (v := v) hlt
        rw [Option.bind_some, Option.bind_some]
        dsimp only
        split at hset
        · rename_i hroom
          obtain ⟨b, hb, hkb⟩ := hset
          rw [hb, Option.bind_some]
          by_cases hcomma : ∃ t, Std.jpWs r = 44 :: t
          · obtain ⟨t, e⟩ := hcomma
            rw [e]
            exact (ihm h b _ t hkb hroom).after hos
          · have hfit : Fit (os ++ [ks ++ [(Std.jpString (Std.jpWs s)).1]]) := by
              refine Fit.append.2 ⟨hos, fun ks hks => ?_⟩
              exact List.mem_singleton.1 hks ▸ hroom
            repeat' split
            all_goals first | exact .ends hfit | exact absurd ⟨_, ‹_›⟩ hcomma
        · rename_i hroom
          rw [hset, Option.bind_none]
          split
          · exact memberObjects_stuck hroom os
          · refine .stuck fun hfit => hroom (hfit _ ?_)
            exact List.mem_append_right _ (List.mem_singleton_self _)
    · rw [elemObjects, Std.jpElems]
      have hv := ihv h s
      generalize valueObjects fuel s = o at hv ⊢
      generalize Std.jpValue strtod junk fuel h s = v at hv ⊢
      cases hv with
      | out => exact .out
      | stuck hos =>
        rw [Option.bind_some, Option.bind_none]
        dsimp only
        split
        · exact .unfit hos
        · exact .stuck hos
      | @ends os r v h hos =>
        rw [Option.bind_some, Option.bind_some]
        dsimp only
        by_cases hcomma : ∃ t, Std.jpWs r = 44 :: t
        · obtain ⟨t, e⟩ := hcomma
          rw [e]
          exact (ihe h (hpArrPush a v) t).after hos
        · repeat' split
          all_goals first | exact .ends hos | exact absurd ⟨_, ‹_›⟩ hcomma

/-- with more than two steps a byte `jp_value` comes to an end if the objects are fit -/
theorem returns_of_fit {n : Nat} (h : Heap) (s : Bytes) (hn : 2 * s.length + 1 ≤ n)
    (hfit : Fit (objects s)) : Std.jpValue strtod junk n h s ≠ none := by
  obtain ⟨r, hr⟩ := valueObjects_eq s
  have hout := (outcomes strtod junk n).1 h s
  rw [valueObjects_le hn hr] at hout
  generalize Std.jpValue strtod junk n h s = v at hout ⊢
  cases hout with
  | ends => exact nofun
  | stuck hn => exact absurd hfit hn

/-- it comes to an end only then -/
theorem fit_of_returns {fuel : Nat} {h : Heap} {s : Bytes}
    (hf : Std.jpValue strtod junk fuel h s ≠ none) : Fit (objects s) := by
  obtain ⟨r, hr⟩ := valueObjects_eq s
  have hout := (outcomes strtod junk fuel).1 h s
  generalize hv : valueObjects fuel s = o at hout
  generalize Std.jpValue strtod junk fuel h s = v at hout hf
  cases hout with
  | out => exact absurd rfl hf
  | stuck => exact absurd rfl hf
  | ends hfit =>
    have h1 := valueObjects_le (Nat.le_max_left fuel (2 * s.length + 1)) hv
    have h2 := valueObjects_le (Nat.le_max_right fuel (2 * s.length + 1)) hr
    rw [h1] at h2
    exact (Prod.mk.inj (Option.some.inj h2)).1 ▸ hfit

end

/-! ## robustness -/

/-- with enough rounds the computation comes to its end -/
def Ends {τ : Type} (m : Nat → Run τ) (c : Cursor) : Prop := ∃ N, ∀ n, N ≤ n → (m n c).1 ≠ none

/-- on the text `jp_value` and `jp_string` come to their end, read inside the text, and their
cursor goes forward up to its end at most -/
structure Robust (strtod : Bytes → Double) (junk : Nat → Val) (p : Bytes) : Prop where
  value_ends : ∀ h, Ends (fun n => jpValue p strtod junk n n h) (.start 0)
  value_sound : ∀ n fuel h, (jpValue p strtod junk n fuel h (.start 0)).2.Sound p.length
  string_ends : ∀ i ≤ p.length, Ends (jpString p) (.start i)
  string_sound : ∀ i ≤ p.length, ∀ n, (jpString p n (.start i)).2.Sound p.length

section
variable (strtod : Bytes → Double) (junk : Nat → Val) (p : Bytes)

/-- the two parsers come to an end together -/
theorem value_ends_iff {n : Nat} (fuel : Nat) (h : Heap) (hn : p.length < n) :
    (jpValue p strtod junk n fuel h (.start 0)).1 ≠ none ↔
      Std.jpValue strtod junk fuel h p ≠ none := by
  have hr := ((values_reads strtod junk hn fuel).1 h p (.start 0)
    (List.drop_zero) (Nat.zero_le _)).1
  rw [hr]
  cases Std.jpValue strtod junk fuel h p with
  | none => exact iff_of_false (fun hne => hne rfl) fun hne => hne rfl
  | some r => exact iff_of_true nofun nofun

theorem not_robust (h : ∀ fuel, Std.jpValue strtod junk fuel [] p = none) :
    ¬ Robust strtod junk p := by
  intro hr
  obtain ⟨N, hN⟩ := hr.value_ends []
  have hend := hN (max N (p.length + 1)) (Nat.le_max_left ..)
  exact (value_ends_iff strtod junk p _ [] (Nat.le_max_right ..)).1 hend (h _)

/-- **The parser is robust on a text if and only if no object of the text has too many keys.** -/
theorem robust_iff : Robust strtod junk p ↔ Fit (objects p) := by
  constructor
  · intro h
    obtain ⟨N, hN⟩ := h.value_ends []
    have hend := hN (max N (p.length + 1)) (Nat.le_max_left ..)
    exact fit_of_returns ((value_ends_iff strtod junk p _ [] (Nat.le_max_right ..)).1 hend)
  · intro hfit
    refine ⟨fun h => ⟨2 * p.length + 1, fun n hn => ?_⟩, fun n fuel h => ?_, fun i hi => ?_,
      fun i hi n => ?_⟩
    · exact (value_ends_iff strtod junk p n h (by omega)).2 (returns_of_fit h p hn hfit)
    · exact ((values_safe fuel).1 h _ (.start (Nat.zero_le _)) trivial).1
    · refine ⟨p.length + 1, fun n hn => ?_⟩
      have hlen : (p.drop i).length < n := by
        rw [List.length_drop]
        omega
      rw [(jpString_reads hlen (.start i) rfl hi).1]
      exact nofun
    · exact (jpString_safe _ (.start hi) trivial).1

end

/-- an object with `2^31 - 4` keys is never read to its end -/
theorem robust_overfull : ¬ Robust (fun _ => ⟨0⟩) (fun _ => .null) Std.overfull.text := by
  apply not_robust
  intro fuel
  have hfull := Std.jpValue_full (fun _ => ⟨0⟩) (fun _ => .null) Std.overfull Std.overfull_loose
    Std.overfull_not_lax [] 0 [] (Nat.le_refl 0) fuel
  rwa [List.append_nil] at hfull

end JsonP
end HolyPhp
