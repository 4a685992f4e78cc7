import HolyPhp.Lexer.Safe
import HolyPhp.Parser.Cursor

/-!
# The texts in the tokens of a text

* `tplLoop_short`, `lexToken_short`  an expression of a template is shorter than the text that the
  template is in;
* `filterLoop_stream`  the newlines that are dropped leave `T_EOF` where it is;
* `lexAll_stream`      **what `lex_all` makes of a text is a stream with shorter texts in it.**
-/

set_option autoImplicit false

namespace HolyPhp
namespace Grammar
open HolyPhp.Lexer HolyPhp.Parser

variable {strtod : Bytes → Double} {a : Place} {c : UInt8} {s : Bytes} {d n : Nat}

theorem tplGroup_length (q : Option UInt8) (k : Nat) (s : Bytes) :
    (tplGroup q k s).1.length + (tplGroup q k s).2.length ≤ s.length := by
  fun_induction tplGroup q k s with
  | case1 => exact Nat.le_refl _
  | case2 => simp
  | case3 k c s _ r iho ihc ihq ihn =>
    have hr : r.1.length + r.2.length ≤ s.length := by
      unfold r
      split_ifs
      · exact iho
      · exact ihc
      · exact ihq
      · exact ihn
    simp only [List.length_cons]
    omega
  | case4 k c s r ih =>
    have hr : r.1.length + r.2.length ≤ s.length := ih
    simp only [List.length_cons]
    omega
  | case5 => exact Nat.le_refl _
  | case6 q k e t r _ ih =>
    have hr : r.1.length + r.2.length ≤ t.length := ih
    simp only [List.length_cons]
    omega
  | case7 q k c _ e t _ r ih =>
    have hr : r.1.length + r.2.length ≤ (e :: t).length := ih
    simp only [List.length_cons] at hr ⊢
    omega

theorem tplLoop_short (f : Nat) (chunk s : Bytes) :
    ∀ e ∈ (tplLoop f chunk s).filterMap Prod.snd, e.length ≤ s.length := by
  induction f generalizing chunk s with
  | zero => exact fun e he => nomatch he
  | succ f ih =>
    cases s with
    | nil => exact fun e he => nomatch he
    | cons c s =>
      rw [tplLoop]
      split
      · intro e he
        have h := ih _ _ e he
        rw [List.length_drop] at h
        rw [List.length_cons]
        omega
      split
      · intro e he
        rcases List.mem_cons.1 he with rfl | he
        · exact Nat.le_succ_of_le (List.takeWhile_sublist _).length_le
        · exact Nat.le_succ_of_le (Nat.le_trans (ih _ _ e he) (List.dropWhile_sublist _).length_le)
      split
      · intro e he
        have hg := tplGroup_length none 1 s
        rcases List.mem_cons.1 he with rfl | he
        · exact Nat.le_succ_of_le (Nat.le_trans (Nat.le_add_right _ _) hg)
        · exact Nat.le_succ_of_le (Nat.le_trans (ih _ _ e he) (Nat.le_trans (Nat.le_add_left _ _) hg))
      · exact fun e he => Nat.le_succ_of_le (ih _ _ e he)

/-- a token that is no template -/
theorem short_nil {t : Token} (h : t.tpl = []) : Short d t := by
  intro e he
  rw [h] at he
  cases he

theorem Short.mono {t : Token} (h : Short d t) (hd : d ≤ n) : Short n t := fun e he =>
  Nat.lt_of_lt_of_le (h e he) hd

theorem lexToken_short {x : Next} (h : lexToken strtod a c s = .ok x) :
    Short (s.length + 1) x.tok := by
  unfold lexToken at h
  dsimp only at h
  split at h
  · cases h
    exact short_nil rfl
  split at h
  · cases h
    exact short_nil rfl
  split at h
  · split at h
    · cases h
    · cases h
    · next i b e r hs =>
      split at h
      · cases h
        intro x hx
        have hlen := tplLoop_short _ _ _ x hx
        have ht : (taken s (e :: r)).length ≤ s.length := List.length_take_le' _ _
        omega
      · cases h
        exact short_nil rfl
  split at h
  · split at h
    · cases h
    · cases h
    · cases h
      exact short_nil rfl
  split at h
  · split at h
    · cases h
      exact short_nil rfl
    · cases h
  split at h
  · cases h
  · cases h
    exact short_nil rfl

theorem lexNext_short {x : Next} (h : lexNext strtod a s = .ok x) : Short s.length x.tok := by
  unfold lexNext at h
  split at h
  · cases h
  · cases h
    exact short_nil rfl
  · next b c r hb => exact (lexToken_short h).mono (skipTrivia_goes hb).le

/-- the last token is `T_EOF` -/
theorem lexRaw_stream {f : Nat} {ts : List Token} (h : lexRaw strtod f a s = some (.ok ts)) :
    Stream ts ∧ ∀ t ∈ ts, Short s.length t := by
  induction f generalizing a s ts with
  | zero => cases h
  | succ f ih =>
    rw [lexRaw] at h
    split at h
    · cases h
    · next x hx =>
      split at h
      · obtain ⟨r, hr, he⟩ := Option.map_eq_some_iff.1 h
        cases r with
        | error e => cases he
        | ok us =>
          cases he
          obtain ⟨⟨vs, e, hus, he⟩, hshort⟩ := ih hr
          refine ⟨⟨x.tok :: vs, e, congrArg (List.cons _) hus, he⟩, fun t ht => ?_⟩
          rcases List.mem_cons.1 ht with rfl | ht
          · exact lexNext_short hx
          · exact (hshort t ht).mono (lexNext_goes hx).1.le
      · cases h
        refine ⟨⟨[], _, rfl, rfl⟩, fun t ht => ?_⟩
        rw [List.mem_singleton.1 ht]
        exact short_nil rfl

theorem filterLoop_stream {ts : List Token} (h : Stream ts) (st : List Recorded)
    (prev : TokKind) : Stream (filterLoop st prev ts) := by
  obtain ⟨us, e, rfl, he⟩ := h
  induction us generalizing st prev with
  | nil =>
    have hne : e.kind ≠ .newline := by
      rw [he]
      exact TokKind.noConfusion
    refine ⟨[], e, ?_, he⟩
    rw [List.nil_append, filterLoop, if_neg hne]
    rfl
  | cons u us ih =>
    have hcons : ∀ st prev, Stream (u :: filterLoop st prev (us ++ [e])) := by
      intro st prev
      obtain ⟨vs, e', hvs, he'⟩ := ih st prev
      exact ⟨u :: vs, e', congrArg (List.cons u) hvs, he'⟩
    rw [List.cons_append, filterLoop]
    split
    · split
      · exact ih _ _
      · exact hcons _ _
    · exact hcons _ _

theorem filterLoop_mem (st : List Recorded) (prev : TokKind) {ts : List Token} {t : Token}
    (h : t ∈ filterLoop st prev ts) : t ∈ ts := by
  induction ts generalizing st prev with
  | nil => cases h
  | cons u us ih =>
    rw [filterLoop] at h
    split at h
    · split at h
      · exact List.mem_cons_of_mem u (ih _ _ h)
      · exact (List.mem_cons.1 h).elim (fun h => h ▸ List.mem_cons_self) fun h =>
          List.mem_cons_of_mem u (ih _ _ h)
    · exact (List.mem_cons.1 h).elim (fun h => h ▸ List.mem_cons_self) fun h =>
        List.mem_cons_of_mem u (ih _ _ h)

/-- **The stream of a text.** -/
theorem lexAll_stream {ts : List Token} (h : lexAll strtod s = some (.ok ts)) :
    Stream ts ∧ ∀ t ∈ ts, Short s.length t := by
  obtain ⟨r, hr, he⟩ := Option.map_eq_some_iff.1 h
  cases r with
  | error e => cases he
  | ok us =>
    cases he
    obtain ⟨hs, hshort⟩ := lexRaw_stream hr
    exact ⟨filterLoop_stream hs _ _, fun t ht => hshort t (filterLoop_mem _ _ ht)⟩

theorem lexAll_ends (strtod : Bytes → Double) (s : Bytes) : ∃ r, lexAll strtod s = some r := by
  obtain ⟨r, hr⟩ := @lexRaw_ends _ strtod _ (Nat.lt_succ_self s.length) .start
  exact ⟨_, by rw [lexAll, hr]; rfl⟩

end Grammar
end HolyPhp
