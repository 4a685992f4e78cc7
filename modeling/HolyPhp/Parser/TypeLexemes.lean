import HolyPhp.Parser.TypeText

/-!
# The lexemes of a type

* `lexemes`      the lexemes of `type_to_string`;
* `Surface`      the types that can be written;
* `clear`        in the text no two marks meet, there is no `&mut`, and the type has no `callable`;
* `Surface.readable`  the lexer makes the tokens of the lexemes;
* `Surface.spread`    in a clear type each lexeme is a token;
* `strip`        the type with functions in the place of `callable`, which has the same text;
* `bad_or_clear` it is clear, or has lexemes that no type has.
-/

set_option autoImplicit false

namespace HolyPhp
namespace Parser
open Lexer Sema

/-! ## lexemes of types -/

/-- `n<ls>` -/
def angles (n : Bytes) (ls : List Lexeme) : List Lexeme := .word n :: .sym 60 :: (ls ++ [.sym 62])

mutual

def lexemes : Ty → List Lexeme
  | .prim k => [.word (primName k)]
  | .array e => .sym 91 :: (lexemes e ++ [.sym 93])
  | .vec e => angles (ascii "Vec") (lexemes e)
  | .map k v => angles (ascii "Map") (lexemes k ++ .sym 44 :: .space :: lexemes v)
  | .set e => angles (ascii "Set") (lexemes e)
  | .ref e => .sym 38 :: lexemes e
  | .mutref e => .sym 38 :: .word (ascii "mut") :: .space :: lexemes e
  | .ptr e => .sym 42 :: lexemes e
  | .own e => .word (ascii "own") :: .space :: lexemes e
  | .rc e => angles (ascii "Rc") (lexemes e)
  | .option e => angles (ascii "Option") (lexemes e)
  | .result o e => angles (ascii "Result") (lexemes o ++ .sym 44 :: .space :: lexemes e)
  | .fn ps r _ => .word (ascii "fn") :: .sym 40 :: (paramLexemes ps ++ .sym 41 ::
      (if r.isVoid then [] else .space :: .arrow :: .space :: lexemes r))
  | .struct n => [.word n]
  | .cls n => [.word n]
  | .iface n => [.word n]
  | .enum n => [.word n]

def paramLexemes : List Ty → List Lexeme
  | [] => []
  | [p] => lexemes p
  | p :: q :: ps => lexemes p ++ .sym 44 :: .space :: paramLexemes (q :: ps)

end

/-! ## types that can be written -/

/-- the kinds that `prims` has -/
def written : Prim → Bool
  | .error | .tuple | .self => false
  | _ => true

/-- the names that `parse_type` compares with -/
def typeWords : List Bytes :=
  prims.map Prod.fst ++ [ascii "array", ascii "list", ascii "callable", ascii "Vec", ascii "Set",
    ascii "Map", ascii "map", ascii "dict", ascii "Option", ascii "Result"]

/-- an identifier that names no other type -/
def ClassName (n : Bytes) : Prop :=
  (Lexeme.word n).Valid ∧ kwLookup n = .ident ∧ n ∉ typeWords

/-- the types that can be written; the last one is `callable` -/
inductive Surface : Ty → Prop
  | prim {k : Prim} : written k = true → Surface (.prim k)
  | cls {n : Bytes} : ClassName n → Surface (.cls n)
  | array {e : Ty} : Surface e → Surface (.array e)
  | vec {e : Ty} : Surface e → Surface (.vec e)
  | set {e : Ty} : Surface e → Surface (.set e)
  | option {e : Ty} : Surface e → Surface (.option e)
  | map {k v : Ty} : Surface k → Surface v → Surface (.map k v)
  | result {o e : Ty} : Surface o → Surface e → Surface (.result o e)
  | ref {e : Ty} : Surface e → Surface (.ref e)
  | mutref {e : Ty} : Surface e → Surface (.mutref e)
  | ptr {e : Ty} : Surface e → Surface (.ptr e)
  | own {e : Ty} : Surface e → Surface (.own e)
  | fn {ps : List Ty} {r : Ty} : (∀ p ∈ ps, Surface p) → Surface r → Surface (.fn ps r false)
  | callable : Surface (.fn [] .mixed true)

/-- the text ends in `>` -/
def endsGt : Ty → Bool
  | .vec _ | .set _ | .option _ | .map _ _ | .result _ _ | .rc _ => true
  | .ref e | .mutref e | .ptr e | .own e => endsGt e
  | .fn _ r _ => endsGt r
  | _ => false

def isRef : Ty → Bool
  | .ref _ | .mutref _ => true
  | _ => false

def isPtr : Ty → Bool
  | .ptr _ => true
  | _ => false

mutual

/-- no `>>`, no `&&`, no `**`, no `&mut` and no `callable` -/
def clear : Ty → Bool
  | .array e | .own e => clear e
  | .vec e | .set e | .option e | .rc e => clear e && !endsGt e
  | .map k v | .result k v => clear k && (clear v && !endsGt v)
  | .ref e => clear e && !isRef e
  | .ptr e => clear e && !isPtr e
  | .mutref _ => false
  | .fn ps r variadic => !variadic && (clearAll ps && clear r)
  | _ => true

def clearAll : List Ty → Bool
  | [] => true
  | p :: ps => clear p && clearAll ps

end

variable {t : Ty} {ps : List Ty} {ls ms : List Lexeme}

theorem clearAll_iff : clearAll ps = true ↔ ∀ p ∈ ps, clear p = true := by
  induction ps with
  | nil => exact iff_of_true rfl (List.forall_mem_nil _)
  | cons p ps ih => rw [clearAll, Bool.and_eq_true_iff, ih, List.forall_mem_cons]

/-! ## the text -/

theorem flat_append : flat (ls ++ ms) = flat ls ++ flat ms := List.flatMap_append

theorem flat_angles (n : Bytes) : flat (angles n ls) = n ++ [60] ++ flat ls ++ [62] := by
  rw [angles, flat_cons, flat_cons, flat_append]
  simp only [Lexeme.bytes, List.append_assoc]
  rfl

theorem flat_pair : flat (ls ++ .sym 44 :: .space :: ms) = flat ls ++ ascii ", " ++ flat ms := by
  rw [flat_append, List.append_assoc]
  rfl

theorem params_flat (h : ∀ p ∈ ps, typeToString p = flat (lexemes p)) :
    paramsToString ps = flat (paramLexemes ps) := by
  induction ps with
  | nil => rfl
  | cons p ps ih =>
    obtain ⟨hp, hps⟩ := List.forall_mem_cons.1 h
    cases ps with
    | nil => exact hp
    | cons q ps => rw [paramsToString, paramLexemes, hp, ih hps, flat_pair]

theorem Surface.flat (h : Surface t) : typeToString t = flat (lexemes t) := by
  induction h with
  | prim => exact (List.append_nil _).symm
  | cls => exact (List.append_nil _).symm
  | array _ ih =>
    rw [typeToString, lexemes, flat_cons, flat_append, ih]
    rfl
  | vec _ ih =>
    rw [typeToString, lexemes, flat_angles, ih]
    rfl
  | set _ ih =>
    rw [typeToString, lexemes, flat_angles, ih]
    rfl
  | option _ ih =>
    rw [typeToString, lexemes, flat_angles, ih]
    rfl
  | map _ _ ihk ihv =>
    rw [typeToString, lexemes, flat_angles, flat_pair, ihk, ihv, List.append_assoc,
      List.append_assoc]
    simp only [List.append_assoc]
    rfl
  | result _ _ iho ihe =>
    rw [typeToString, lexemes, flat_angles, flat_pair, iho, ihe]
    simp only [List.append_assoc]
    rfl
  | ref _ ih =>
    rw [typeToString, ih]
    rfl
  | mutref _ ih =>
    rw [typeToString, ih]
    rfl
  | ptr _ ih =>
    rw [typeToString, ih]
    rfl
  | own _ ih =>
    rw [typeToString, ih]
    rfl
  | @fn ps r _ _ ihps ihr =>
    rw [typeToString, lexemes, params_flat ihps, ihr, List.append_assoc, List.append_assoc,
      flat_cons, flat_cons, flat_append, flat_cons]
    cases r.isVoid <;> rfl
  | callable => rfl

/-! ## the lexemes can be read -/

/-- behind the lexemes comes no word -/
def NoWord (ls : List Lexeme) : Prop := ∀ w ms, ls ≠ .word w :: ms

/-- what may stand between any two lexemes -/
def Sep (l : Lexeme) : Prop := l.Valid ∧ (∀ w, l ≠ .word w) ∧ l ≠ .sym 60

/-- valid lexemes that are apart, whatever comes behind -/
structure Readable (ls : List Lexeme) : Prop where
  valid : ∀ l ∈ ls, l.Valid
  chain : ∀ ms, NoWord ms → ms.IsChain Apart → (ls ++ ms).IsChain Apart

theorem Sep.chain {l : Lexeme} (h : Sep l) (hc : ls.IsChain Apart) : (l :: ls).IsChain Apart := by
  refine List.isChain_cons.2 ⟨fun m _ => ?_, hc⟩
  cases l with
  | word w => exact absurd rfl (h.2.1 w)
  | sym c =>
    cases m with
    | sym d => exact fun hc => absurd (congrArg Lexeme.sym hc) h.2.2
    | _ => trivial
  | arrow => trivial
  | space => trivial

theorem Readable.nil : Readable [] := ⟨List.forall_mem_nil _, fun _ _ h => h⟩

theorem Readable.word {w : Bytes} (h : (Lexeme.word w).Valid) : Readable [.word w] := by
  refine ⟨List.forall_mem_singleton.2 h, fun ms hn hc => List.isChain_cons.2 ⟨fun m hm => ?_, hc⟩⟩
  cases m with
  | word v =>
    obtain ⟨ls, rfl⟩ := List.head?_eq_some_iff.1 hm
    exact absurd rfl (hn v ls)
  | _ => trivial

theorem Readable.cons_sep {l : Lexeme} (hl : Sep l) (h : Readable ls) : Readable (l :: ls) :=
  ⟨List.forall_mem_cons.2 ⟨hl.1, h.valid⟩, fun ms hn hc => hl.chain (h.chain ms hn hc)⟩

theorem Readable.append_sep {l : Lexeme} (h : Readable ls) (hl : Sep l) (h' : Readable ms) :
    Readable (ls ++ l :: ms) := by
  refine ⟨List.forall_mem_append.2 ⟨h.valid, List.forall_mem_cons.2 ⟨hl.1, h'.valid⟩⟩,
    fun ns hn hc => ?_⟩
  rw [List.append_assoc]
  refine h.chain _ (fun w us he => ?_) (hl.chain (h'.chain ns hn hc))
  exact hl.2.1 w (List.cons.inj he).1

theorem sym_ne {c d : UInt8} (h : c ≠ d) : Lexeme.sym c ≠ .sym d :=
  fun he => h (Lexeme.sym.inj he)

theorem sep_space : Sep .space := ⟨trivial, fun _ => Lexeme.noConfusion, Lexeme.noConfusion⟩

theorem sep_arrow : Sep .arrow := ⟨trivial, fun _ => Lexeme.noConfusion, Lexeme.noConfusion⟩

theorem sep_sym {c : UInt8} (h : c ∈ [62, 38, 42, 91, 93, 40, 41, 44]) : Sep (.sym c) := by
  refine ⟨List.mem_cons_of_mem _ h, fun _ => Lexeme.noConfusion, fun he => ?_⟩
  rw [Lexeme.sym.inj he] at h
  exact absurd h (by decide)

theorem valid_word {c : UInt8} {v : Bytes} (hc : startsName c = true) (hv : v.all inName = true) :
    (Lexeme.word (c :: v)).Valid := ⟨c, v, rfl, hc, List.all_eq_true.1 hv⟩

/-- how the lexemes of a type begin -/
def Begins (t : Ty) (l : Lexeme) : Prop :=
  (∃ w, l = .word w ∧ (kwLookup w = .ident ∨ kwLookup w = .kwOwn ∨ kwLookup w = .kwFn)) ∨
    l = .sym 91 ∨ (l = .sym 38 ∧ isRef t = true) ∨ (l = .sym 42 ∧ isPtr t = true)

theorem primName_word {k : Prim} (h : written k = true) :
    kwLookup (primName k) = .ident ∧ (Lexeme.word (primName k)).Valid := by
  cases k
  case error => cases h
  case tuple => cases h
  case self => cases h
  all_goals exact ⟨by decide, valid_word (by decide) (by decide)⟩

theorem Surface.begins (h : Surface t) : ∃ l ls, lexemes t = l :: ls ∧ Begins t l := by
  cases h with
  | prim h => exact ⟨_, _, rfl, .inl ⟨_, rfl, .inl (primName_word h).1⟩⟩
  | cls h => exact ⟨_, _, rfl, .inl ⟨_, rfl, .inl h.2.1⟩⟩
  | array => exact ⟨_, _, rfl, .inr (.inl rfl)⟩
  | vec => exact ⟨_, _, rfl, .inl ⟨_, rfl, .inl (by decide)⟩⟩
  | set => exact ⟨_, _, rfl, .inl ⟨_, rfl, .inl (by decide)⟩⟩
  | option => exact ⟨_, _, rfl, .inl ⟨_, rfl, .inl (by decide)⟩⟩
  | map => exact ⟨_, _, rfl, .inl ⟨_, rfl, .inl (by decide)⟩⟩
  | result => exact ⟨_, _, rfl, .inl ⟨_, rfl, .inl (by decide)⟩⟩
  | ref => exact ⟨_, _, rfl, .inr (.inr (.inl ⟨rfl, rfl⟩))⟩
  | mutref => exact ⟨_, _, rfl, .inr (.inr (.inl ⟨rfl, rfl⟩))⟩
  | ptr => exact ⟨_, _, rfl, .inr (.inr (.inr ⟨rfl, rfl⟩))⟩
  | own => exact ⟨_, _, rfl, .inl ⟨_, rfl, .inr (.inl (by decide))⟩⟩
  | fn => exact ⟨_, _, rfl, .inl ⟨_, rfl, .inr (.inr (by decide))⟩⟩
  | callable => exact ⟨_, _, rfl, .inl ⟨_, rfl, .inr (.inr (by decide))⟩⟩

/-- no type begins with `<` or `>` -/
theorem Surface.begins_ne (h : Surface t) :
    ∃ l ls, lexemes t = l :: ls ∧ l ≠ .sym 60 ∧ l ≠ .sym 62 := by
  obtain ⟨l, ls, he, hb⟩ := h.begins
  refine ⟨l, ls, he, ?_⟩
  rcases hb with ⟨w, rfl, -⟩ | rfl | ⟨rfl, -⟩ | ⟨rfl, -⟩
  · exact ⟨Lexeme.noConfusion, Lexeme.noConfusion⟩
  all_goals exact ⟨sym_ne (by decide), sym_ne (by decide)⟩

theorem Readable.angles {n : Bytes} (hn : (Lexeme.word n).Valid) (h : Readable ls)
    (hb : ∃ l ms, ls = l :: ms ∧ l ≠ .sym 60 ∧ l ≠ .sym 62) : Readable (angles n ls) := by
  have hgt := h.append_sep (sep_sym (c := 62) (by decide)) .nil
  refine ⟨List.forall_mem_cons.2 ⟨hn, List.forall_mem_cons.2 ⟨List.mem_cons_self, hgt.valid⟩⟩,
    fun ms hm hc => ?_⟩
  obtain ⟨l, us, rfl, h60, h62⟩ := hb
  refine List.isChain_cons_cons.2 ⟨trivial, List.isChain_cons_cons.2 ⟨?_, hgt.chain ms hm hc⟩⟩
  cases l with
  | sym d => exact fun _ => ⟨fun hd => h60 (congrArg _ hd), fun hd => h62 (congrArg _ hd)⟩
  | _ => trivial

theorem Readable.pair (h : Readable ls) (h' : Readable ms) :
    Readable (ls ++ .sym 44 :: .space :: ms) :=
  h.append_sep (sep_sym (by decide)) (h'.cons_sep sep_space)

theorem Readable.params (h : ∀ p ∈ ps, Readable (lexemes p)) : Readable (paramLexemes ps) := by
  induction ps with
  | nil => exact .nil
  | cons p ps ih =>
    obtain ⟨hp, hps⟩ := List.forall_mem_cons.1 h
    cases ps with
    | nil => exact hp
    | cons q ps => exact hp.pair (ih hps)

/-- two arguments in angles -/
theorem begins_append (h : ∃ l us, ls = l :: us ∧ l ≠ .sym 60 ∧ l ≠ .sym 62) :
    ∃ l us, ls ++ ms = l :: us ∧ l ≠ .sym 60 ∧ l ≠ .sym 62 := by
  obtain ⟨l, us, rfl, h⟩ := h
  exact ⟨l, us ++ ms, rfl, h⟩

theorem Surface.readable (h : Surface t) : Readable (lexemes t) := by
  induction h with
  | prim h => exact .word (primName_word h).2
  | cls h => exact .word h.1
  | array _ ih => exact (ih.append_sep (sep_sym (by decide)) .nil).cons_sep (sep_sym (by decide))
  | vec h ih => exact ih.angles (valid_word (by decide) (by decide)) h.begins_ne
  | set h ih => exact ih.angles (valid_word (by decide) (by decide)) h.begins_ne
  | option h ih => exact ih.angles (valid_word (by decide) (by decide)) h.begins_ne
  | map h _ ihk ihv =>
    exact (ihk.pair ihv).angles (valid_word (by decide) (by decide)) (begins_append h.begins_ne)
  | result h _ iho ihe =>
    exact (iho.pair ihe).angles (valid_word (by decide) (by decide)) (begins_append h.begins_ne)
  | ref _ ih => exact ih.cons_sep (sep_sym (by decide))
  | mutref _ ih =>
    have hw := Readable.word (w := ascii "mut") (valid_word (by decide) (by decide))
    exact (hw.append_sep sep_space ih).cons_sep (sep_sym (by decide))
  | ptr _ ih => exact ih.cons_sep (sep_sym (by decide))
  | own _ ih =>
    have hw := Readable.word (w := ascii "own") (valid_word (by decide) (by decide))
    exact hw.append_sep sep_space ih
  | @fn ps r _ _ ihps ihr =>
    have hw := Readable.word (w := ascii "fn") (valid_word (by decide) (by decide))
    have hr : Readable (if r.isVoid then [] else .space :: .arrow :: .space :: lexemes r) := by
      split
      · exact .nil
      · exact ((ihr.cons_sep sep_space).cons_sep sep_arrow).cons_sep sep_space
    exact hw.append_sep (sep_sym (by decide))
      ((Readable.params ihps).append_sep (sep_sym (by decide)) hr)
  | callable =>
    have hw := Readable.word (w := ascii "fn") (valid_word (by decide) (by decide))
    have hr := Readable.word (w := ascii "mixed") (valid_word (by decide) (by decide))
    exact hw.append_sep (sep_sym (by decide)) (.cons_sep (sep_sym (by decide))
      (((hr.cons_sep sep_space).cons_sep sep_arrow).cons_sep sep_space))

/-! ## tokens of a clear type -/

/-- each lexeme is a token, but for the blanks -/
def plain : List Lexeme → List (TokKind × Bytes)
  | [] => []
  | .space :: ls => plain ls
  | .word w :: ls => (kwLookup w, w) :: plain ls
  | .arrow :: ls => (.arrow, [45, 62]) :: plain ls
  | .sym c :: ls => (symKind c, [c]) :: plain ls

theorem plain_append (ls ms : List Lexeme) : plain (ls ++ ms) = plain ls ++ plain ms := by
  induction ls with
  | nil => rfl
  | cons l ls ih =>
    cases l with
    | space => exact ih
    | _ => exact congrArg _ ih

theorem isVoid_eq (h : t.isVoid = true) : t = .void := by
  cases t with
  | prim k => exact congrArg Ty.prim (of_decide_eq_true h)
  | _ => cases h

/-- no mark of the lexemes meets an equal one; `g` is whether they end in `>` -/
def Spread (g : Bool) (ls : List Lexeme) : Prop :=
  ∀ ms, (g = true → ∀ us, ms ≠ .sym 62 :: us) → munch (ls ++ ms) = plain ls ++ munch ms

theorem Spread.nil : Spread false [] := fun _ _ => rfl

theorem Spread.word {g : Bool} (w : Bytes) (h : Spread g ls) : Spread g (.word w :: ls) :=
  fun ms hm => congrArg _ (h ms hm)

theorem Spread.arrow {g : Bool} (h : Spread g ls) : Spread g (.arrow :: ls) :=
  fun ms hm => congrArg _ (h ms hm)

theorem Spread.space {g : Bool} (h : Spread g ls) : Spread g (.space :: ls) := h

/-- a mark in front of what does not begin with it -/
theorem Spread.sym {g : Bool} {c : UInt8} (h : Spread g ls)
    (hd : ∀ ms us, ls ++ ms = .sym c :: us → doubleKind c = none) : Spread g (.sym c :: ls) := by
  intro ms hm
  rw [List.cons_append, munch_sym (hd ms), h ms hm]
  rfl

/-- the last one is `>` -/
theorem Spread.gt : Spread true [.sym 62] :=
  fun _ hm => munch_sym fun us he => absurd he (hm rfl us)

theorem Spread.append {g : Bool} (h : Spread false ls) (h' : Spread g ms) : Spread g (ls ++ ms) := by
  intro us hu
  rw [List.append_assoc, h _ (fun hf => nomatch hf), h' us hu, plain_append, List.append_assoc]

/-- in front of what is no `>`, the end does not matter -/
theorem Spread.stop {g : Bool} (h : Spread g ls) {l : Lexeme} (hl : l ≠ .sym 62) {g' : Bool}
    (h' : Spread g' (l :: ms)) : Spread g' (ls ++ l :: ms) := by
  intro us hu
  rw [List.append_assoc, h, h' us hu, plain_append, List.append_assoc]
  intro _ vs he
  exact hl (List.cons.inj he).1

theorem Spread.angles (n : Bytes) (h : Spread false ls) : Spread true (angles n ls) := by
  refine ((h.append .gt).sym fun _ _ _ => rfl).word n

theorem Spread.pair {g g' : Bool} (h : Spread g ls) (h' : Spread g' ms) :
    Spread g' (ls ++ .sym 44 :: .space :: ms) :=
  h.stop (sym_ne (by decide)) (h'.space.sym fun _ _ _ => rfl)

theorem Spread.params (h : ∀ p ∈ ps, Spread (endsGt p) (lexemes p)) :
    ∃ g, Spread g (paramLexemes ps) := by
  induction ps with
  | nil => exact ⟨_, .nil⟩
  | cons p ps ih =>
    obtain ⟨hp, hps⟩ := List.forall_mem_cons.1 h
    cases ps with
    | nil => exact ⟨_, hp⟩
    | cons q ps =>
      obtain ⟨g, hg⟩ := ih hps
      exact ⟨g, hp.pair hg⟩

/-- a mark of references in front of what is no reference, a star in front of what is no pointer -/
theorem Surface.begins_mark (h : Surface t) {c : UInt8} (hc : c = 38 ∨ c = 42)
    (hr : c = 38 → isRef t = false) (hp : c = 42 → isPtr t = false) {us : List Lexeme} :
    lexemes t ++ ms ≠ .sym c :: us := by
  intro he
  obtain ⟨l, ls, hl, hb⟩ := h.begins
  rw [hl] at he
  have hlc : l = .sym c := (List.cons.inj he).1
  subst hlc
  rcases hb with ⟨w, hw, -⟩ | hs | ⟨hs, ht⟩ | ⟨hs, ht⟩
  · cases hw
  · cases hs
    exact absurd hc (by decide)
  · rw [hr (Lexeme.sym.inj hs)] at ht
    cases ht
  · rw [hp (Lexeme.sym.inj hs)] at ht
    cases ht

theorem Surface.spread (h : Surface t) (hc : clear t = true) : Spread (endsGt t) (lexemes t) := by
  induction h with
  | prim => exact Spread.nil.word _
  | cls => exact Spread.nil.word _
  | array _ ih =>
    exact ((ih hc).stop (sym_ne (by decide)) (Spread.nil.sym fun _ _ _ => rfl)).sym fun _ _ _ => rfl
  | vec _ ih =>
    obtain ⟨hc, hg⟩ := Bool.and_eq_true_iff.1 hc
    rw [Bool.not_eq_true'] at hg
    exact (hg ▸ ih hc).angles _
  | set _ ih =>
    obtain ⟨hc, hg⟩ := Bool.and_eq_true_iff.1 hc
    rw [Bool.not_eq_true'] at hg
    exact (hg ▸ ih hc).angles _
  | option _ ih =>
    obtain ⟨hc, hg⟩ := Bool.and_eq_true_iff.1 hc
    rw [Bool.not_eq_true'] at hg
    exact (hg ▸ ih hc).angles _
  | map _ _ ihk ihv =>
    obtain ⟨hk, hv⟩ := Bool.and_eq_true_iff.1 hc
    obtain ⟨hv, hg⟩ := Bool.and_eq_true_iff.1 hv
    rw [Bool.not_eq_true'] at hg
    exact ((ihk hk).pair (hg ▸ ihv hv)).angles _
  | result _ _ ihk ihv =>
    obtain ⟨hk, hv⟩ := Bool.and_eq_true_iff.1 hc
    obtain ⟨hv, hg⟩ := Bool.and_eq_true_iff.1 hv
    rw [Bool.not_eq_true'] at hg
    exact ((ihk hk).pair (hg ▸ ihv hv)).angles _
  | ref h ih =>
    obtain ⟨hc, hr⟩ := Bool.and_eq_true_iff.1 hc
    rw [Bool.not_eq_true'] at hr
    exact (ih hc).sym fun ms us he =>
      absurd he (h.begins_mark (.inl rfl) (fun _ => hr) fun h => absurd h (by decide))
  | mutref => cases hc
  | ptr h ih =>
    obtain ⟨hc, hp⟩ := Bool.and_eq_true_iff.1 hc
    rw [Bool.not_eq_true'] at hp
    exact (ih hc).sym fun ms us he =>
      absurd he (h.begins_mark (.inr rfl) (fun h => absurd h (by decide)) fun _ => hp)
  | own _ ih => exact (ih hc).space.word _
  | @fn ps r _ _ ihps ihr =>
    obtain ⟨-, hc⟩ := Bool.and_eq_true_iff.1 hc
    obtain ⟨hps, hr⟩ := Bool.and_eq_true_iff.1 hc
    obtain ⟨g, hg⟩ := Spread.params fun p hp => ihps p hp (clearAll_iff.1 hps p hp)
    have hret : Spread (endsGt r)
        (if r.isVoid then [] else .space :: .arrow :: .space :: lexemes r) := by
      split
      next hv =>
        rw [isVoid_eq hv]
        exact .nil
      · exact (ihr hr).space.arrow.space
    exact ((hg.stop (sym_ne (by decide)) (hret.sym fun _ _ _ => rfl)).sym fun _ _ _ => rfl).word _
  | callable => cases hc

/-! ## types that are not clear -/

mutual

/-- with functions that have no parameters in the place of `callable` -/
def strip : Ty → Ty
  | .array e => .array (strip e)
  | .vec e => .vec (strip e)
  | .map k v => .map (strip k) (strip v)
  | .set e => .set (strip e)
  | .ref e => .ref (strip e)
  | .mutref e => .mutref (strip e)
  | .ptr e => .ptr (strip e)
  | .own e => .own (strip e)
  | .rc e => .rc (strip e)
  | .option e => .option (strip e)
  | .result o e => .result (strip o) (strip e)
  | .fn ps r _ => .fn (stripAll ps) (strip r) false
  | t => t

def stripAll : List Ty → List Ty
  | [] => []
  | p :: ps => strip p :: stripAll ps

end

theorem stripAll_eq (ps : List Ty) : stripAll ps = ps.map strip := by
  induction ps with
  | nil => rfl
  | cons p ps ih => exact congrArg _ ih

theorem strip_isVoid (t : Ty) : (strip t).isVoid = t.isVoid := by cases t <;> rfl

theorem strip_isRef (t : Ty) : isRef (strip t) = isRef t := by cases t <;> rfl

theorem strip_isPtr (t : Ty) : isPtr (strip t) = isPtr t := by cases t <;> rfl

theorem params_strip (h : ∀ p ∈ ps, lexemes (strip p) = lexemes p) :
    paramLexemes (stripAll ps) = paramLexemes ps := by
  induction ps with
  | nil => rfl
  | cons p ps ih =>
    obtain ⟨hp, hps⟩ := List.forall_mem_cons.1 h
    cases ps with
    | nil => exact hp
    | cons q ps =>
      show lexemes (strip p) ++ .sym 44 :: .space :: paramLexemes (stripAll (q :: ps)) = _
      rw [hp, ih hps, paramLexemes]

/-- The type has the same text, can be written, and ends as before. -/
theorem Surface.strip (h : Surface t) :
    Surface (strip t) ∧ lexemes (strip t) = lexemes t ∧ endsGt (strip t) = endsGt t := by
  induction h with
  | prim h => exact ⟨.prim h, rfl, rfl⟩
  | cls h => exact ⟨.cls h, rfl, rfl⟩
  | array _ ih => exact ⟨.array ih.1, congrArg (fun ls => _ :: (ls ++ _)) ih.2.1, rfl⟩
  | vec _ ih => exact ⟨.vec ih.1, congrArg (angles _) ih.2.1, rfl⟩
  | set _ ih => exact ⟨.set ih.1, congrArg (angles _) ih.2.1, rfl⟩
  | option _ ih => exact ⟨.option ih.1, congrArg (angles _) ih.2.1, rfl⟩
  | map _ _ ihk ihv =>
    refine ⟨.map ihk.1 ihv.1, ?_, rfl⟩
    rw [Parser.strip, lexemes, lexemes, ihk.2.1, ihv.2.1]
  | result _ _ iho ihe =>
    refine ⟨.result iho.1 ihe.1, ?_, rfl⟩
    rw [Parser.strip, lexemes, lexemes, iho.2.1, ihe.2.1]
  | ref _ ih => exact ⟨.ref ih.1, congrArg (fun ls => _ :: ls) ih.2.1, ih.2.2⟩
  | mutref _ ih => exact ⟨.mutref ih.1, congrArg (fun ls => _ :: _ :: _ :: ls) ih.2.1, ih.2.2⟩
  | ptr _ ih => exact ⟨.ptr ih.1, congrArg (fun ls => _ :: ls) ih.2.1, ih.2.2⟩
  | own _ ih => exact ⟨.own ih.1, congrArg (fun ls => _ :: _ :: ls) ih.2.1, ih.2.2⟩
  | @fn ps r _ _ ihps ihr =>
    refine ⟨.fn ?_ ihr.1, ?_, ihr.2.2⟩
    · rw [stripAll_eq]
      intro q hq
      obtain ⟨p, hp, rfl⟩ := List.mem_map.1 hq
      exact (ihps p hp).1
    · rw [Parser.strip, lexemes, lexemes, params_strip fun p hp => (ihps p hp).2.1, ihr.2.1,
        strip_isVoid]
  | callable => exact ⟨.fn (List.forall_mem_nil _) (.prim rfl), rfl, rfl⟩

theorem Surface.ends_gt (h : Surface t) (hg : endsGt t = true) :
    ∃ ls, lexemes t = ls ++ [.sym 62] := by
  induction h with
  | prim => cases hg
  | cls => cases hg
  | array => cases hg
  | vec => exact ⟨_ :: _ :: _, rfl⟩
  | set => exact ⟨_ :: _ :: _, rfl⟩
  | option => exact ⟨_ :: _ :: _, rfl⟩
  | map => exact ⟨_ :: _ :: _, rfl⟩
  | result => exact ⟨_ :: _ :: _, rfl⟩
  | ref _ ih =>
    obtain ⟨ls, hls⟩ := ih hg
    exact ⟨_ :: ls, congrArg _ hls⟩
  | mutref _ ih =>
    obtain ⟨ls, hls⟩ := ih hg
    exact ⟨_ :: _ :: _ :: ls, congrArg (fun us => _ :: _ :: _ :: us) hls⟩
  | ptr _ ih =>
    obtain ⟨ls, hls⟩ := ih hg
    exact ⟨_ :: ls, congrArg _ hls⟩
  | own _ ih =>
    obtain ⟨ls, hls⟩ := ih hg
    exact ⟨_ :: _ :: ls, congrArg (fun us => _ :: _ :: us) hls⟩
  | @fn ps r _ _ _ ihr =>
    obtain ⟨ls, hls⟩ := ihr hg
    have hv : r.isVoid = false := by
      by_contra hv
      rw [Bool.not_eq_false] at hv
      rw [isVoid_eq hv] at hg
      cases hg
    refine ⟨.word (ascii "fn") :: .sym 40 :: (paramLexemes ps ++ .sym 41 :: .space :: .arrow ::
      .space :: ls), ?_⟩
    rw [lexemes, hv, hls]
    simp
  | callable => cases hg

theorem Bad.angles (n : Bytes) (h : Bad ls) : Bad (angles n ls) := .cons (.cons (h.append_right _))

/-- a text in angles that ends in `>` -/
theorem bad_angles (n : Bytes) (h : ∃ us, ls = us ++ [.sym 62]) : Bad (angles n (ms ++ ls)) := by
  obtain ⟨us, rfl⟩ := h
  rw [Parser.angles, ← List.append_assoc, List.append_assoc]
  exact .cons (.cons (.append_left (.double rfl) _))

/-- the last argument in angles, behind the lexemes `ms` -/
theorem angles_cases (n : Bytes) (ms : List Lexeme) (h : Surface t)
    (ih : Bad (lexemes t) ∨ clear (Parser.strip t) = true) :
    Bad (Parser.angles n (ms ++ lexemes t)) ∨
      (clear (Parser.strip t) && !endsGt (Parser.strip t)) = true := by
  rcases ih with hb | hc
  · exact .inl ((hb.append_left ms).angles n)
  · rw [hc, h.strip.2.2]
    cases hg : endsGt t with
    | true => exact .inl (bad_angles n (h.ends_gt hg))
    | false => exact .inr rfl

theorem pair_append (ls ms : List Lexeme) :
    ls ++ .sym 44 :: .space :: ms = (ls ++ [.sym 44, .space]) ++ ms := by
  rw [List.append_assoc]
  rfl

/-- two arguments in angles -/
theorem pair_cases {u : Ty} (n : Bytes) (h : Surface t)
    (ihu : Bad (lexemes u) ∨ clear (Parser.strip u) = true)
    (iht : Bad (lexemes t) ∨ clear (Parser.strip t) = true) :
    Bad (Parser.angles n (lexemes u ++ .sym 44 :: .space :: lexemes t)) ∨
      (clear (Parser.strip u) && (clear (Parser.strip t) && !endsGt (Parser.strip t))) = true := by
  rcases ihu with hb | hc
  · exact .inl ((hb.append_right _).angles n)
  · rw [pair_append, hc]
    exact angles_cases n _ h iht

theorem params_cases (h : ∀ p ∈ ps, Bad (lexemes p) ∨ clear (Parser.strip p) = true) :
    Bad (paramLexemes ps) ∨ clearAll (stripAll ps) = true := by
  induction ps with
  | nil => exact .inr rfl
  | cons p ps ih =>
    obtain ⟨hp, hps⟩ := List.forall_mem_cons.1 h
    have htail : Bad (paramLexemes ps) → Bad (paramLexemes (p :: ps)) := by
      intro hb
      cases ps with
      | nil => cases hb
      | cons q ps => exact .append_left (.cons (.cons hb)) _
    have hhead : Bad (lexemes p) → Bad (paramLexemes (p :: ps)) := by
      intro hb
      cases ps with
      | nil => exact hb
      | cons q ps => exact hb.append_right _
    rcases hp with hb | hc
    · exact .inl (hhead hb)
    · rcases ih hps with hb | hcs
      · exact .inl (htail hb)
      · exact .inr (Bool.and_eq_true_iff.2 ⟨hc, hcs⟩)

/-- **What stands in the text of a type that does not come back.** -/
theorem bad_or_clear (h : Surface t) : Bad (lexemes t) ∨ clear (strip t) = true := by
  induction h with
  | prim => exact .inr rfl
  | cls => exact .inr rfl
  | array _ ih => exact ih.imp_left fun hb => .cons (hb.append_right _)
  | vec h ih => exact angles_cases _ [] h ih
  | set h ih => exact angles_cases _ [] h ih
  | option h ih => exact angles_cases _ [] h ih
  | map _ h ihk ihv => exact pair_cases _ h ihk ihv
  | result _ h iho ihe => exact pair_cases _ h iho ihe
  | @ref e h ih =>
    rcases ih with hb | hc
    · exact .inl (.cons hb)
    · cases hr : isRef e with
      | false =>
        refine .inr (Bool.and_eq_true_iff.2 ⟨hc, ?_⟩)
        rw [strip_isRef, hr]
        rfl
      | true =>
        cases h with
        | ref => exact .inl (.double rfl)
        | mutref => exact .inl (.double rfl)
        | _ => cases hr
  | mutref => exact .inl (.cons .mutWord)
  | @ptr e h ih =>
    rcases ih with hb | hc
    · exact .inl (.cons hb)
    · cases hp : isPtr e with
      | false =>
        refine .inr (Bool.and_eq_true_iff.2 ⟨hc, ?_⟩)
        rw [strip_isPtr, hp]
        rfl
      | true =>
        cases h with
        | ptr => exact .inl (.double rfl)
        | _ => cases hp
  | own _ ih => exact ih.imp_left fun hb => .cons (.cons hb)
  | @fn ps r _ _ ihps ihr =>
    rcases params_cases ihps with hb | hcs
    · exact .inl (.cons (.cons (hb.append_right _)))
    · rcases ihr with hb | hc
      · refine .inl (.cons (.cons (.append_left (.cons ?_) _)))
        split
        next hv =>
          rw [isVoid_eq hv] at hb
          exact absurd hb (by rintro (_ | _ | ⟨⟨⟩⟩))
        · exact .cons (.cons (.cons hb))
      · exact .inr (Bool.and_eq_true_iff.2 ⟨rfl, Bool.and_eq_true_iff.2 ⟨hcs, hc⟩⟩)
  | callable => exact .inr rfl

end Parser
end HolyPhp
