import Mathlib.Data.List.Basic
import Mathlib.Data.List.Infix

/-!
# Paths and file trees

* `splitSlash`, `resolve`  the names of a path; empty ones and `.` lead nowhere;
* `dirText`                the text of a list of names, with a slash behind each one;
* `Fs`                     a tree of directories and files, by the list of names: what is there
                           stands in a directory;
* `Fs.mkdir`, `Fs.write`   a new directory and a file that is written, where there is a directory
                           to hold them and nothing else in the way.
-/

namespace Posix

abbrev Bytes := List UInt8

/-! ## paths -/

def splitSlash : Bytes → List Bytes
  | [] => [[]]
  | c :: s =>
    if c = 47 then [] :: splitSlash s
    else match splitSlash s with
      | [] => [[c]]
      | x :: xs => (c :: x) :: xs

/-- an empty name and `.` stay where they are -/
def leads (x : Bytes) : Bool := x ≠ [] && x ≠ [46]

def resolve (s : Bytes) : List Bytes := (splitSlash s).filter leads

def dirText (p : List Bytes) : Bytes := p.flatMap fun x => x ++ [47]

section
variable {x s t : Bytes} {p q : List Bytes} {c : UInt8}

theorem splitSlash_ne (s : Bytes) : splitSlash s ≠ [] := by
  cases s with
  | nil => exact List.cons_ne_nil _ _
  | cons c s =>
    rw [splitSlash]
    split
    · exact List.cons_ne_nil _ _
    · split <;> exact List.cons_ne_nil _ _

theorem splitSlash_cons {xs : List Bytes} (h : splitSlash s = x :: xs) (hc : c ≠ 47) :
    splitSlash (c :: s) = (c :: x) :: xs := by
  rw [splitSlash, if_neg hc, h]

theorem splitSlash_name (h : 47 ∉ x) : splitSlash x = [x] := by
  induction x with
  | nil => rfl
  | cons c x ih =>
    rw [List.mem_cons, not_or] at h
    exact splitSlash_cons (ih h.2) fun hc => h.1 hc.symm

theorem splitSlash_slash (h : 47 ∉ x) (s : Bytes) :
    splitSlash (x ++ 47 :: s) = x :: splitSlash s := by
  induction x with
  | nil => rfl
  | cons c x ih =>
    rw [List.mem_cons, not_or] at h
    exact splitSlash_cons (ih h.2) fun hc => h.1 hc.symm

theorem dirText_cons (x : Bytes) (p : List Bytes) : dirText (x :: p) = x ++ 47 :: dirText p := by
  rw [dirText, List.flatMap_cons, List.append_assoc]
  rfl

theorem dirText_append (p q : List Bytes) : dirText (p ++ q) = dirText p ++ dirText q :=
  List.flatMap_append

theorem dirText_snoc (p : List Bytes) (x : Bytes) :
    dirText (p ++ [x]) = dirText p ++ (x ++ [47]) := by
  rw [dirText_append, dirText_cons]
  rfl

theorem splitSlash_dirText (h : ∀ x ∈ p, 47 ∉ x) (s : Bytes) :
    splitSlash (dirText p ++ s) = p ++ splitSlash s := by
  induction p with
  | nil => rfl
  | cons x p ih =>
    rw [dirText_cons, List.append_assoc, List.cons_append,
      splitSlash_slash (h x List.mem_cons_self), ih fun y hy => h y (List.mem_cons_of_mem x hy)]
    rfl

/-- a name that leads somewhere -/
structure IsName (x : Bytes) : Prop where
  noSlash : 47 ∉ x
  leads : leads x = true

instance (x : Bytes) : Decidable (IsName x) :=
  decidable_of_iff (47 ∉ x ∧ leads x = true) ⟨fun h => ⟨h.1, h.2⟩, fun h => ⟨h.noSlash, h.leads⟩⟩

/-- the names of a text of names -/
theorem resolve_dirText (h : ∀ x ∈ p, IsName x) (hx : 47 ∉ x) :
    resolve (dirText p ++ x) = p ++ if leads x then [x] else [] := by
  have hp : p.filter leads = p := List.filter_eq_self.2 fun y hy => (h y hy).leads
  rw [resolve, splitSlash_dirText fun y hy => (h y hy).noSlash, splitSlash_name hx,
    List.filter_append, hp]
  cases hl : leads x with
  | false => rw [List.filter_cons_of_neg (by simp [hl])]; rfl
  | true => rw [List.filter_cons_of_pos hl]; rfl

theorem split_spec {xs : List Bytes} (h : splitSlash s = x :: xs) :
    x <+: s ∧ ∀ y ∈ xs, y <:+: s := by
  induction s generalizing x xs with
  | nil =>
    cases h
    exact ⟨List.nil_prefix, fun y hy => nomatch hy⟩
  | cons c s ih =>
    obtain ⟨z, zs, hz⟩ := List.exists_cons_of_ne_nil (splitSlash_ne s)
    obtain ⟨h1, h2⟩ := ih hz
    have hall : ∀ y ∈ z :: zs, y <:+: c :: s := by
      intro y hy
      rcases List.mem_cons.1 hy with rfl | hy
      · exact List.infix_cons h1.isInfix
      · exact List.infix_cons (h2 y hy)
    by_cases hc : c = 47
    · rw [splitSlash, if_pos hc, hz] at h
      cases h
      exact ⟨List.nil_prefix, hall⟩
    · rw [splitSlash_cons hz hc] at h
      cases h
      exact ⟨List.cons_prefix_cons.2 ⟨rfl, h1⟩, fun y hy => hall y (List.mem_cons_of_mem z hy)⟩

theorem length_dirText_split (s : Bytes) : (dirText (splitSlash s)).length = s.length + 1 := by
  induction s with
  | nil => rfl
  | cons c s ih =>
    obtain ⟨x, xs, hx⟩ := List.exists_cons_of_ne_nil (splitSlash_ne s)
    by_cases hc : c = 47
    · rw [splitSlash, if_pos hc, dirText_cons, List.nil_append, List.length_cons, ih,
        List.length_cons]
    · rw [splitSlash_cons hx hc, dirText_cons, List.cons_append, List.length_cons, ← dirText_cons,
        ← hx, ih, List.length_cons]

theorem length_dirText_le (h : p.Sublist q) : (dirText p).length ≤ (dirText q).length := by
  induction h with
  | slnil => exact Nat.le_refl _
  | cons x _ ih =>
    rw [dirText_cons, List.length_append, List.length_cons]
    omega
  | cons_cons x _ ih =>
    rw [dirText_cons, dirText_cons, List.length_append, List.length_append, List.length_cons,
      List.length_cons]
    omega

/-- the names of a text are not longer than it -/
theorem length_resolve_le (s : Bytes) : (dirText (resolve s)).length ≤ s.length + 1 := by
  rw [← length_dirText_split]
  exact length_dirText_le List.filter_sublist

/-- the names of a text are pieces of it -/
theorem infix_of_resolve (h : x ∈ resolve s) : x <:+: s := by
  obtain ⟨y, ys, hy⟩ := List.exists_cons_of_ne_nil (splitSlash_ne s)
  obtain ⟨h1, h2⟩ := split_spec hy
  have hx := (List.mem_filter.1 h).1
  rw [hy] at hx
  rcases List.mem_cons.1 hx with rfl | hx
  · exact h1.isInfix
  · exact h2 x hx

end

/-! ## file trees -/

inductive Node (β : Type) where
  | dir
  | file (content : β)

structure Fs (β : Type) where
  node : List Bytes → Option (Node β)
  root : node [] = some .dir
  /-- what is there stands in a directory -/
  closed : ∀ p x, node (p ++ [x]) ≠ none → node p = some .dir

namespace Fs
variable {β : Type}

/-- nothing but the root -/
def empty : Fs β where
  node p := if p = [] then some .dir else none
  root := if_pos rfl
  closed := by
    intro p x h
    rw [if_neg (List.append_ne_nil_of_right_ne_nil p (List.cons_ne_nil x []))] at h
    exact absurd rfl h

theorem empty_dir {p : List Bytes} (h : (empty : Fs β).node p = some .dir) : p = [] := by
  by_contra hp
  have hnode : (empty : Fs β).node p = none := if_neg hp
  rw [hnode] at h
  cases h

theorem empty_file (p : List Bytes) (c : β) : (empty : Fs β).node p ≠ some (.file c) := by
  intro h
  have hnode : (if p = [] then some Node.dir else none) = some (Node.file c) := h
  split at hnode <;> cases hnode

def isDir (fs : Fs β) (p : List Bytes) : Bool :=
  match fs.node p with
  | some .dir => true
  | _ => false

theorem isDir_iff {fs : Fs β} {p : List Bytes} : fs.isDir p = true ↔ fs.node p = some .dir := by
  rw [isDir]
  split
  · next h => exact ⟨fun _ => h, fun _ => rfl⟩
  · next h => exact ⟨fun h' => absurd h' Bool.false_ne_true, fun h' => absurd h' h⟩

/-- something new in a directory -/
def put (fs : Fs β) (p : List Bytes) (x : Bytes) (n : Node β) (hp : fs.isDir p = true)
    (hn : fs.isDir (p ++ [x]) ≠ true) : Fs β where
  node q := if q = p ++ [x] then some n else fs.node q
  root := by
    rw [if_neg (List.append_ne_nil_of_right_ne_nil p (List.cons_ne_nil x [])).symm]
    exact fs.root
  closed := by
    intro q y hq
    have hqp : fs.node q = some .dir := by
      by_cases h : q ++ [y] = p ++ [x]
      · rw [(List.append_inj' h rfl).1]
        exact isDir_iff.1 hp
      · rw [if_neg h] at hq
        exact fs.closed q y hq
    have hne : q ≠ p ++ [x] := by
      rintro rfl
      exact hn (isDir_iff.2 hqp)
    rw [if_neg hne]
    exact hqp

/-- a directory `p/x`, unless something is there or `p` is no directory -/
def mkdirAt (fs : Fs β) (p : List Bytes) (x : Bytes) : Fs β :=
  if h : fs.isDir p = true ∧ (fs.isDir (p ++ [x]) ≠ true ∧ (fs.node (p ++ [x])).isNone) then
    fs.put p x .dir h.1 h.2.1
  else fs

/-- `mkdir` -/
def mkdir (fs : Fs β) (path : List Bytes) : Fs β :=
  match path.getLast? with
  | none => fs
  | some x => fs.mkdirAt path.dropLast x

/-- the file `p/x`, unless a directory is there or `p` is none -/
def writeAt (fs : Fs β) (p : List Bytes) (x : Bytes) (c : β) : Option (Fs β) :=
  if h : fs.isDir p = true ∧ fs.isDir (p ++ [x]) ≠ true then some (fs.put p x (.file c) h.1 h.2)
  else none

/-- a file is opened for writing and written -/
def write (fs : Fs β) (path : List Bytes) (c : β) : Option (Fs β) :=
  match path.getLast? with
  | none => none
  | some x => fs.writeAt path.dropLast x c

section
variable {fs fs' : Fs β} {p q : List Bytes} {x : Bytes} {n : Node β} {c : β}

theorem mkdir_snoc (fs : Fs β) (p : List Bytes) (x : Bytes) :
    fs.mkdir (p ++ [x]) = fs.mkdirAt p x := by
  rw [mkdir, List.getLast?_append, List.getLast?_singleton, List.dropLast_concat]
  rfl

theorem write_snoc (fs : Fs β) (p : List Bytes) (x : Bytes) (c : β) :
    fs.write (p ++ [x]) c = fs.writeAt p x c := by
  rw [write, List.getLast?_append, List.getLast?_singleton, List.dropLast_concat]
  rfl

/-- what is there stays -/
theorem mkdir_old (h : fs.node q = some n) (p : List Bytes) : (fs.mkdir p).node q = some n := by
  rw [mkdir]
  split
  · exact h
  · rw [mkdirAt]
    split
    · next hc =>
      show (if q = _ then _ else fs.node q) = _
      rw [if_neg, h]
      rintro rfl
      have hnone := hc.2.2
      rw [h] at hnone
      cases hnone
    · exact h

/-- what is new is the directory -/
theorem mkdir_new (h : (fs.mkdir p).node q = some n) :
    fs.node q = some n ∨ (q = p ∧ p ≠ [] ∧ n = .dir) := by
  rw [mkdir] at h
  split at h
  · exact .inl h
  · next x hx =>
    have hp := List.dropLast_append_getLast? x hx
    rw [mkdirAt] at h
    split at h
    · have hput : (if q = p.dropLast ++ [x] then some Node.dir else fs.node q) = some n := h
      split at hput
      · next hq =>
        refine .inr ⟨hq.trans hp, ?_, (Option.some.inj hput).symm⟩
        rintro rfl
        cases hx
      · exact .inl hput
    · exact .inl h

/-- where there is a directory for it, something is there then -/
theorem mkdir_made (h : fs.node p = some .dir) (x : Bytes) :
    (fs.mkdir (p ++ [x])).node (p ++ [x]) ≠ none := by
  cases hq : fs.node (p ++ [x]) with
  | some n =>
    rw [mkdir_old hq]
    exact Option.some_ne_none n
  | none =>
    have hc : fs.isDir p = true ∧ (fs.isDir (p ++ [x]) ≠ true ∧ (fs.node (p ++ [x])).isNone) := by
      refine ⟨isDir_iff.2 h, ?_, ?_⟩
      · rw [Ne, isDir_iff, hq]
        exact fun h => nomatch h
      · rw [hq]
        rfl
    rw [mkdir_snoc, mkdirAt, dif_pos hc]
    show (if p ++ [x] = p ++ [x] then _ else _) ≠ none
    rw [if_pos rfl]
    exact Option.some_ne_none _

/-- where a file can be written -/
theorem write_iff : (∃ fs', fs.write (p ++ [x]) c = some fs') ↔
    fs.node p = some .dir ∧ fs.node (p ++ [x]) ≠ some .dir := by
  have hne : fs.node (p ++ [x]) ≠ some .dir ↔ fs.isDir (p ++ [x]) ≠ true :=
    not_congr isDir_iff.symm
  rw [write_snoc, writeAt, hne, ← isDir_iff]
  split
  · next h => exact ⟨fun _ => h, fun _ => ⟨_, rfl⟩⟩
  · next h =>
    refine ⟨fun h' => ?_, fun h' => absurd h' h⟩
    obtain ⟨_, h'⟩ := h'
    cases h'

/-- what is there then -/
theorem write_node (h : fs.write p c = some fs') :
    fs'.node q = if q = p then some (.file c) else fs.node q := by
  rw [write] at h
  split at h
  · cases h
  · next x hx =>
    have hp := List.dropLast_append_getLast? x hx
    rw [writeAt] at h
    split at h
    · cases h
      show (if q = p.dropLast ++ [x] then _ else _) = _
      rw [hp]
    · cases h

end

end Fs

end Posix
