import HolyPhp.Json.DecodeText

/-!
# The decoder does not see blanks between tokens

`Spaced s t`: `t` is `s` with blanks put in at the commas, the colons and the brackets; strings are
of the form that the encoder writes, and everything else stands for itself.  A cursor of the decoder
may have blanks in front of it (`Apart`).

**`value_spaced`**: on both texts the decoder does the same, whatever else they hold.
-/

set_option autoImplicit false
set_option linter.unusedVariables false

namespace HolyPhp
namespace Std
open Arr hiding Key
open Str Json

/-- commas, colons and brackets -/
def Punct (c : UInt8) : Prop :=
  c = 44 ∨ c = 58 ∨ c = 91 ∨ c = 93 ∨ c = 123 ∨ c = 125

instance (c : UInt8) : Decidable (Punct c) := inferInstanceAs (Decidable (_ ∨ _))

/-- a byte of a literal or a number -/
def Atom (c : UInt8) : Prop := Solid c ∧ c ≠ 34 ∧ ¬ Punct c

instance (c : UInt8) : Decidable (Atom c) := inferInstanceAs (Decidable (_ ∧ _))

def Blank (w : Bytes) : Prop := ∀ c ∈ w, ¬ Solid c

inductive Spaced : Bytes → Bytes → Prop
  | nil : Spaced [] []
  | atom {c : UInt8} {s t : Bytes} : Atom c → Spaced s t → Spaced (c :: s) (c :: t)
  | str {k : List Ch} {s t : Bytes} : LaxStr k → Spaced s t →
      Spaced (string k ++ s) (string k ++ t)
  | punct {c : UInt8} {v w s t : Bytes} : Punct c → Blank v → Blank w → Spaced s t →
      Spaced (c :: s) (v ++ c :: (w ++ t))

def Apart (s t : Bytes) : Prop := ∃ w t', t = w ++ t' ∧ Blank w ∧ Spaced s t'

/-- what stands at a cursor behind the blanks -/
inductive Token : Bytes → Bytes → Prop
  | nil : Token [] []
  | atom {c : UInt8} {s t : Bytes} : Atom c → Spaced s t → Token (c :: s) (c :: t)
  | str {k : List Ch} {s t : Bytes} : LaxStr k → Spaced s t → Token (string k ++ s) (string k ++ t)
  | punct {c : UInt8} {s t : Bytes} : Punct c → Apart s t → Token (c :: s) (c :: t)

section
variable {c p : UInt8} {s t w a : Bytes}

theorem blank_nil : Blank [] := by
  intro c hc
  cases hc

theorem Spaced.apart (h : Spaced s t) : Apart s t := ⟨[], t, rfl, blank_nil, h⟩

theorem atom_of_all (h : s.all (fun c => decide (Atom c)) = true) : ∀ c ∈ s, Atom c :=
  fun c hc => of_decide_eq_true (List.all_eq_true.mp h c hc)

theorem blank_space : Blank [32] := by
  intro c hc
  rw [List.mem_singleton.mp hc]
  decide

theorem Punct.solid (h : Punct c) : Solid c := by
  rcases h with rfl | rfl | rfl | rfl | rfl | rfl <;> decide

theorem jpWs_blank (hw : Blank w) (s : Bytes) : jpWs (w ++ s) = jpWs s := by
  induction w with
  | nil => rfl
  | cons c w ih =>
    have hc : c = 32 ∨ c = 9 ∨ c = 10 ∨ c = 13 := Decidable.not_not.mp (hw c List.mem_cons_self)
    rw [List.cons_append, jpWs, if_pos hc, ih fun d hd => hw d (List.mem_cons_of_mem c hd)]

theorem jpWs_string (k : List Ch) (s : Bytes) : jpWs (string k ++ s) = string k ++ s :=
  jpWs_solid (by decide)

/-- **Behind the blanks** both texts have the same token. -/
theorem Apart.token (h : Apart s t) : Token (jpWs s) (jpWs t) := by
  obtain ⟨w, t, rfl, hw, h⟩ := h
  rw [jpWs_blank hw]
  cases h with
  | nil => exact .nil
  | atom hc h =>
    rw [jpWs_solid hc.1, jpWs_solid hc.1]
    exact .atom hc h
  | str hk h =>
    rw [jpWs_string, jpWs_string]
    exact .str hk h
  | punct hc hv hw h =>
    rw [jpWs_blank hv, jpWs_solid hc.solid, jpWs_solid hc.solid]
    exact .punct hc ⟨_, _, rfl, hw, h⟩

theorem Token.apart (h : Token s t) : Apart s t := by
  cases h with
  | nil => exact Spaced.nil.apart
  | atom hc h => exact (Spaced.atom hc h).apart
  | str hk h => exact (Spaced.str hk h).apart
  | punct hc h =>
    obtain ⟨w, t, rfl, hw, h⟩ := h
    exact (Spaced.punct (v := []) hc blank_nil hw h).apart

/-! ## the scanners -/

/-- a byte of punctuation, or none on either side -/
theorem Token.match (h : Token s t) (hp : Punct p) :
    (∃ s' t', s = p :: s' ∧ t = p :: t' ∧ Apart s' t') ∨
      (∀ r, s ≠ p :: r) ∧ ∀ r, t ≠ p :: r := by
  cases h with
  | nil => exact .inr ⟨fun r => (nomatch ·), fun r => (nomatch ·)⟩
  | atom hc h =>
    right
    constructor <;> intro r he
    all_goals
      obtain ⟨rfl, -⟩ := List.cons.inj he
      exact hc.2.2 hp
  | str hk h =>
    right
    constructor <;> intro r he
    all_goals
      obtain ⟨rfl, -⟩ := List.cons.inj he
      exact absurd hp (by decide)
  | @punct c s t hc h =>
    by_cases he : c = p
    · subst he
      exact .inl ⟨s, t, rfl, rfl, h⟩
    · right
      exact ⟨fun r hr => he (List.cons.inj hr).1, fun r hr => he (List.cons.inj hr).1⟩

theorem skip_ne (h : ∀ r, s ≠ p :: r) : skip p s = s := by
  cases s with
  | nil => rfl
  | cons c s =>
    rw [skip, if_neg]
    rintro rfl
    exact h s rfl

theorem Token.skip (h : Token s t) (hp : Punct p) : Apart (Std.skip p s) (Std.skip p t) := by
  rcases h.match hp with ⟨s, t, rfl, rfl, ha⟩ | ⟨hs, ht⟩
  · rw [Std.skip, if_pos rfl, Std.skip, if_pos rfl]
    exact ha
  · rw [skip_ne hs, skip_ne ht]
    exact h.apart

theorem jpString_ne (h : ∀ r, s ≠ 34 :: r) : jpString s = ([], s) := by
  unfold jpString
  split
  · exact absurd rfl (h _)
  · rfl

/-- a key, or none on either side -/
theorem Token.key (h : Token s t) :
    (jpString s).1 = (jpString t).1 ∧ Apart (jpString s).2 (jpString t).2 := by
  have ha := h.apart
  cases h with
  | nil => exact ⟨rfl, ha⟩
  | @atom c s t hc h =>
    have hne : ∀ u r : Bytes, c :: u ≠ 34 :: r := fun u r he => hc.2.1 (List.cons.inj he).1
    rw [jpString_ne (hne s), jpString_ne (hne t)]
    exact ⟨rfl, ha⟩
  | str hk h =>
    rw [jpString_string hk, jpString_string hk]
    exact ⟨rfl, h.apart⟩
  | @punct c s t hc h =>
    have hne : ∀ u r : Bytes, c :: u ≠ 34 :: r := by
      intro u r he
      obtain ⟨rfl, -⟩ := List.cons.inj he
      exact absurd hc (by decide)
    rw [jpString_ne (hne s), jpString_ne (hne t)]
    exact ⟨rfl, ha⟩

/-! ## literals and numbers -/

theorem Spaced.uncons (h : Spaced (c :: s) t) (hc : Atom c) : ∃ t', t = c :: t' ∧ Spaced s t' := by
  generalize hu : c :: s = u at h
  cases h with
  | nil => cases hu
  | @atom d s t hd h =>
    obtain ⟨rfl, rfl⟩ := List.cons.inj hu
    exact ⟨t, rfl, h⟩
  | str hk h =>
    obtain ⟨rfl, -⟩ := List.cons.inj hu
    exact absurd rfl hc.2.1
  | punct hd =>
    obtain ⟨rfl, -⟩ := List.cons.inj hu
    exact absurd hd hc.2.2

theorem Spaced.uncons' (h : Spaced s (c :: t)) (hc : Atom c) :
    ∃ s', s = c :: s' ∧ Spaced s' t := by
  generalize hu : c :: t = u at h
  cases h with
  | nil => cases hu
  | @atom d s t hd h =>
    obtain ⟨rfl, rfl⟩ := List.cons.inj hu
    exact ⟨s, rfl, h⟩
  | str hk h =>
    obtain ⟨rfl, -⟩ := List.cons.inj hu
    exact absurd rfl hc.2.1
  | @punct d v w s t hd hv hw h =>
    cases v with
    | nil =>
      obtain ⟨rfl, -⟩ := List.cons.inj hu
      exact absurd hd hc.2.2
    | cons b v =>
      obtain ⟨rfl, -⟩ := List.cons.inj hu
      exact absurd hc.1 (hv c List.mem_cons_self)

/-- a literal stands in both texts or in neither -/
theorem Spaced.literal (h : Spaced s t) (ha : ∀ c ∈ a, Atom c) :
    (∃ s' t', s = a ++ s' ∧ t = a ++ t' ∧ Spaced s' t') ∨ (¬ a <+: s ∧ ¬ a <+: t) := by
  induction a generalizing s t with
  | nil => exact .inl ⟨s, t, rfl, rfl, h⟩
  | cons c a ih =>
    have hc := ha c List.mem_cons_self
    by_cases hs : ∃ s', s = c :: s'
    · obtain ⟨s, rfl⟩ := hs
      obtain ⟨t, rfl, hst⟩ := h.uncons hc
      have ha' : ∀ d ∈ a, Atom d := fun d hd => ha d (List.mem_cons_of_mem c hd)
      rcases ih hst ha' with ⟨s, t, rfl, rfl, hr⟩ | ⟨hs, ht⟩
      · exact .inl ⟨s, t, rfl, rfl, hr⟩
      · right
        rw [List.cons_prefix_cons, List.cons_prefix_cons]
        exact ⟨fun h => hs h.2, fun h => ht h.2⟩
    · right
      constructor
      · rintro ⟨r, rfl⟩
        exact hs ⟨_, rfl⟩
      · rintro ⟨r, rfl⟩
        obtain ⟨s, rfl, -⟩ := h.uncons' hc
        exact hs ⟨s, rfl⟩

theorem isNumByte_punct (hc : Punct c) : isNumByte c = false := by
  rcases hc with rfl | rfl | rfl | rfl | rfl | rfl <;> rfl

theorem isNumByte_blank (hc : ¬ Solid c) : isNumByte c = false := by
  rcases Decidable.not_not.mp hc with rfl | rfl | rfl | rfl <;> rfl

/-- the bytes of a number -/
theorem Spaced.num (h : Spaced s t) : s.takeWhile isNumByte = t.takeWhile isNumByte ∧
    Spaced (s.dropWhile isNumByte) (t.dropWhile isNumByte) := by
  induction h with
  | nil => exact ⟨rfl, .nil⟩
  | @atom c s t hc h ih =>
    cases hn : isNumByte c with
    | true => simpa [hn] using ih
    | false => simpa [hn] using Spaced.atom hc h
  | @str k s t hk h => exact ⟨rfl, .str hk h⟩
  | @punct c v w s t hc hv hw h =>
    have hn := isNumByte_punct hc
    have hall : Spaced (c :: s) (v ++ c :: (w ++ t)) := .punct hc hv hw h
    cases v with
    | nil => simpa [hn] using hall
    | cons b v =>
      have hb := isNumByte_blank (hv b List.mem_cons_self)
      simpa [hn, hb] using hall

section
variable (strtod : Bytes → Double)

/-- a number, or a byte of garbage -/
theorem Spaced.jpNumber (hc : Atom c) (h : Spaced s t) :
    (Std.jpNumber strtod (c :: s)).1 = (Std.jpNumber strtod (c :: t)).1 ∧
      Spaced (Std.jpNumber strtod (c :: s)).2 (Std.jpNumber strtod (c :: t)).2 := by
  obtain ⟨ht, hd⟩ := (Spaced.atom hc h).num
  unfold Std.jpNumber
  dsimp only
  rw [ht]
  split
  · exact ⟨rfl, h⟩
  · exact ⟨rfl, hd⟩

end

/-! ## values -/

/-- the same value in the same heap, and cursors that differ in blanks -/
inductive Agree : Option (Val × Heap × Bytes) → Option (Val × Heap × Bytes) → Prop
  | none : Agree none none
  | some {v : Val} {h : Heap} {s t : Bytes} : Apart s t → Agree (some (v, h, s)) (some (v, h, t))

theorem Agree.bind {x y : Option (Val × Heap × Bytes)}
    {f g : Val × Heap × Bytes → Option (Val × Heap × Bytes)} (hxy : Agree x y)
    (hfg : ∀ v h s t, Apart s t → Agree (f (v, h, s)) (g (v, h, t))) :
    Agree (x.bind f) (y.bind g) := by
  cases hxy with
  | none => exact .none
  | some h => exact hfg _ _ _ _ h

/-- the results without the rest of the text -/
theorem Agree.value {x y : Option (Val × Heap × Bytes)} (hxy : Agree x y) :
    x.map (fun r => (r.1, r.2.1)) = y.map fun r => (r.1, r.2.1) := by
  cases hxy <;> rfl

section
variable {strtod : Bytes → Double} {junk : Nat → Val} {fuel : Nat} {h : Heap}

/-- the last case of `jp_value` -/
theorem jpValue_other (hc : Atom c) (ht : ¬ [116, 114, 117, 101] <+: c :: s)
    (hf : ¬ [102, 97, 108, 115, 101] <+: c :: s) (hn : ¬ [110, 117, 108, 108] <+: c :: s) :
    jpValue strtod junk (fuel + 1) h (c :: s) =
      some ((jpNumber strtod (c :: s)).1, h, (jpNumber strtod (c :: s)).2) := by
  rw [jpValue, jpWs_solid hc.1]
  split
  case h_8 => rfl
  case h_1 he => cases he
  case h_2 he =>
    obtain ⟨rfl, -⟩ := List.cons.inj he
    exact absurd (by decide) hc.2.2
  case h_3 he =>
    obtain ⟨rfl, -⟩ := List.cons.inj he
    exact absurd (by decide) hc.2.2
  case h_4 he =>
    obtain ⟨rfl, -⟩ := List.cons.inj he
    exact absurd rfl hc.2.1
  case h_5 r he => exact absurd ⟨r, he.symm⟩ ht
  case h_6 r he => exact absurd ⟨r, he.symm⟩ hf
  case h_7 r he => exact absurd ⟨r, he.symm⟩ hn

theorem atom_agree (hc : Atom c) (hs : Spaced s t) :
    Agree (jpValue strtod junk (fuel + 1) h (c :: s)) (jpValue strtod junk (fuel + 1) h (c :: t)) := by
  have hall : Spaced (c :: s) (c :: t) := .atom hc hs
  have hT : ∀ c ∈ ([116, 114, 117, 101] : Bytes), Atom c := atom_of_all rfl
  have hF : ∀ c ∈ ([102, 97, 108, 115, 101] : Bytes), Atom c := atom_of_all rfl
  have hN : ∀ c ∈ ([110, 117, 108, 108] : Bytes), Atom c := atom_of_all rfl
  rcases hall.literal hT with ⟨s', t', hs', ht', ha⟩ | ⟨hT1, hT2⟩
  · rw [hs', ht']
    exact .some ha.apart
  rcases hall.literal hF with ⟨s', t', hs', ht', ha⟩ | ⟨hF1, hF2⟩
  · rw [hs', ht']
    exact .some ha.apart
  rcases hall.literal hN with ⟨s', t', hs', ht', ha⟩ | ⟨hN1, hN2⟩
  · rw [hs', ht']
    exact .some ha.apart
  obtain ⟨hv, hr⟩ := hs.jpNumber strtod hc
  rw [jpValue_other hc hT1 hF1 hN1, jpValue_other hc hT2 hF2 hN2, hv]
  exact .some hr.apart

/-- a byte of punctuation that opens nothing is garbage -/
theorem jpValue_garbage (hc : Punct c) (h123 : c ≠ 123) (h91 : c ≠ 91) (s : Bytes) :
    jpValue strtod junk (fuel + 1) h (c :: s) = some (.null, h, s) := by
  rcases hc with rfl | rfl | rfl | rfl | rfl | rfl
  · rfl
  · rfl
  · exact absurd rfl h91
  · rfl
  · exact absurd rfl h123
  · rfl

theorem next_other {α : Type} {f g : Bytes → α} :
    (∀ r, s ≠ 44 :: r) → (match s with | 44 :: cs => f cs | cs => g cs) = g s := by
  intro hs
  split
  · exact absurd rfl (hs _)
  · rfl

/-- the loop behind `[` and the loop behind `{`, behind an element: `f` goes on behind a comma -/
theorem next_agree {f g : Bytes → Option (Val × Heap × Bytes)} {v : Val} (hp : Punct p)
    (ha : Apart s t) (hfg : ∀ s t, Apart s t → Agree (f s) (g t)) :
    Agree (match jpWs s with | 44 :: cs => f cs | cs => some (v, h, skip p cs))
      (match jpWs t with | 44 :: cs => g cs | cs => some (v, h, skip p cs)) := by
  have htok := ha.token
  rcases htok.match (p := 44) (by decide) with ⟨s', t', hs, ht, ha'⟩ | ⟨hs, ht⟩
  · rw [hs, ht]
    exact hfg s' t' ha'
  · rw [next_other hs, next_other ht]
    exact .some (htok.skip hp)

/-- `{` in front of anything but `}` -/
theorem jpValue_members (hs : ∀ r, jpWs s ≠ 125 :: r) :
    jpValue strtod junk (fuel + 1) h (123 :: s) =
      jpMembers strtod junk fuel h (emptyMap junk) (jpWs s) := by
  rw [jpValue_obj]
  split
  · exact absurd ‹_› (hs _)
  · rfl

/-- `[` in front of anything but `]` -/
theorem jpValue_elems (hs : ∀ r, jpWs s ≠ 93 :: r) :
    jpValue strtod junk (fuel + 1) h (91 :: s) =
      jpElems strtod junk fuel h (hpArrNew junk) (jpWs s) := by
  rw [jpValue_arr]
  split
  · exact absurd ‹_› (hs _)
  · rfl

variable (strtod junk) in
/-- **The decoder on both texts**, by fuel -/
theorem spaced_agree (fuel : Nat) :
    (∀ h s t, Apart s t → Agree (jpValue strtod junk fuel h s) (jpValue strtod junk fuel h t)) ∧
    (∀ h m s t, Apart s t →
      Agree (jpMembers strtod junk fuel h m s) (jpMembers strtod junk fuel h m t)) ∧
    ∀ h a s t, Apart s t →
      Agree (jpElems strtod junk fuel h a s) (jpElems strtod junk fuel h a t) := by
  induction fuel with
  | zero => exact ⟨fun _ _ _ _ => .none, fun _ _ _ _ _ => .none, fun _ _ _ _ _ => .none⟩
  | succ fuel ih =>
    obtain ⟨ihv, ihm, ihe⟩ := ih
    refine ⟨fun h s t ha => ?_, fun h m s t ha => ?_, fun h a s t ha => ?_⟩
    · rw [← jpValue_jpWs s, ← jpValue_jpWs t]
      have htok := ha.token
      generalize jpWs s = x at htok ⊢
      generalize jpWs t = y at htok ⊢
      cases htok with
      | nil => exact .some Spaced.nil.apart
      | atom hc hs => exact atom_agree hc hs
      | @str k s t hk hs =>
        have hv : ∀ r, jpValue strtod junk (fuel + 1) h (string k ++ r) =
            some (.str (some (jpString (string k ++ r)).1), h, (jpString (string k ++ r)).2) :=
          fun r => rfl
        rw [hv, hv, jpString_string hk, jpString_string hk]
        exact .some hs.apart
      | @punct c s t hc ha =>
        by_cases h123 : c = 123
        · subst h123
          rcases ha.token.match (p := 125) (by decide) with ⟨s', t', hs, ht, ha'⟩ | ⟨hs, ht⟩
          · rw [jpValue_obj, jpValue_obj, hs, ht]
            exact .some ha'
          · rw [jpValue_members hs, jpValue_members ht]
            exact ihm h (emptyMap junk) _ _ ha.token.apart
        · by_cases h91 : c = 91
          · subst h91
            rcases ha.token.match (p := 93) (by decide) with ⟨s', t', hs, ht, ha'⟩ | ⟨hs, ht⟩
            · rw [jpValue_arr, jpValue_arr, hs, ht]
              exact .some ha'
            · rw [jpValue_elems hs, jpValue_elems ht]
              exact ihe h (hpArrNew junk) _ _ ha.token.apart
          · rw [jpValue_garbage hc h123 h91, jpValue_garbage hc h123 h91]
            exact .some ha
    · obtain ⟨hk, hrest⟩ := ha.token.key
      rw [jpMembers, jpMembers]
      dsimp only
      rw [hk]
      refine (ihv h _ _ (hrest.token.skip (by decide))).bind fun v h s t ha => ?_
      dsimp only
      cases hpArrSet m (.str (some (jpString (jpWs _)).1)) v with
      | none => exact .none
      | some b => exact next_agree (by decide) ha fun s t ha => ihm h b s t ha
    · rw [jpElems, jpElems]
      refine (ihv h s t ha).bind fun v h s t ha => ?_
      exact next_agree (by decide) ha fun s t ha => ihe h (hpArrPush a v) s t ha

variable (strtod junk) in
/-- **The value does not depend on the blanks.** -/
theorem value_spaced (hst : Spaced s t) (fuel : Nat) (h : Heap) :
    (jpValue strtod junk fuel h s).map (fun r => (r.1, r.2.1)) =
      (jpValue strtod junk fuel h t).map fun r => (r.1, r.2.1) :=
  ((spaced_agree strtod junk fuel).1 h s t hst.apart).value

end

end
end Std
end HolyPhp
