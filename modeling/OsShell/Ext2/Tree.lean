import OsShell.Debug
import OsShell.Library.Outcome

/-!
# Walking the directory tree

A file system is what `get_node` finds under each i-number. The blocks of the nodes
and the memory that a walk takes are left out; a directory is the list of its entries
in their order on the disk, where number 0 is that of an unused entry. A path is its
bytes up to the zero that ends it.
-/

namespace OsShell.Ext2

open Stopping

inductive Inode
  | file
  | dir (entries : List (ℕ × List UInt8))
  | symlink (target : List UInt8)

/-- `get_type`: the upper four bits of the mode. -/
def Inode.type : Inode → ℕ
  | .file => 8
  | .dir _ => 4
  | .symlink _ => 10

def slash : UInt8 := 47

structure Tree where
  inode : ℕ → Option Inode
  root : ∃ entries, inode 2 = some (.dir entries)
  closed : ∀ n entries, inode n = some (.dir entries) → ∀ e ∈ entries, e.1 ≠ 0 →
    (inode e.1).isSome
  names : ∀ n entries, inode n = some (.dir entries) → ∀ e ∈ entries,
    e.2 ≠ [] ∧ e.2.length < 256 ∧ 0 ∉ e.2 ∧ slash ∉ e.2

namespace Tree

variable (t : Tree)

def isDir (n : ℕ) : Prop := ∃ entries, t.inode n = some (.dir entries)

/-- The last entry with that name counts. -/
def lookup (entries : List (ℕ × List UInt8)) (name : List UInt8) : ℕ :=
  entries.foldl (fun out e => if name = e.2 then e.1 else out) 0

def findEntry (n : ℕ) (name : List UInt8) : Except Halt ℕ :=
  match t.inode n with
  | some (.dir entries) => .ok (lookup entries name)
  | _ => .error (.assertion "is_dir()")

/-- `get_node`; a node is known by its number. -/
def getNode (number : ℕ) : Except Halt ℕ :=
  if (t.inode number).isSome then .ok number
  else .error (.assertion "number <= numberOfNodes")

theorem dropWhile_lt {p : UInt8 → Bool} {path : List UInt8} (hne : path.dropWhile p ≠ []) :
    ((path.dropWhile p).dropWhile fun c => !p c).length < path.length := by
  have hle := (List.dropWhile_sublist (l := path) p).length_le
  obtain ⟨c, rest, hrest⟩ := List.exists_cons_of_ne_nil hne
  have hc : p c = false := by
    have := List.head_dropWhile_not p hne
    simpa [hrest] using this
  have hshort := (List.dropWhile_sublist (l := rest) fun c => !p c).length_le
  rw [hrest, List.dropWhile_cons, hc]
  rw [hrest, List.length_cons] at hle
  simp only [Bool.not_false, if_true]
  omega

/-- `Ext2::find`, from a node that is there. -/
def find (current : ℕ) (path : List UInt8) : Except Halt (Option ℕ) :=
  let rest := path.dropWhile (· == slash)
  if _ : rest = [] then .ok (some current)
  else do
    let part := rest.takeWhile fun c => !(c == slash)
    assert (part.length ≤ 256) "i < 256"
    let number ← t.findEntry current part
    if number = 0 then return none
    let current ← t.getNode number
    find current (rest.dropWhile fun c => !(c == slash))
termination_by path.length
decreasing_by exact dropWhile_lt ‹_›

end Tree

/-! ## What a walk finds -/

def parts (path : List UInt8) : List (List UInt8) :=
  (path.splitOn slash).filter (· ≠ [])

/-- The walk along the components ends at a node, or where a name is missing. Every component that
is looked up is looked up in a directory. -/
inductive Resolves (t : Tree) : ℕ → List (List UInt8) → Option ℕ → Prop
  | done (n : ℕ) : Resolves t n [] (some n)
  | missing {n : ℕ} {entries : List (ℕ × List UInt8)} {part : List UInt8}
      {rest : List (List UInt8)} (hdir : t.inode n = some (.dir entries))
      (hlen : part.length ≤ 256) (hnone : Tree.lookup entries part = 0) :
      Resolves t n (part :: rest) none
  | step {n : ℕ} {entries : List (ℕ × List UInt8)} {part : List UInt8} {rest : List (List UInt8)}
      {r : Option ℕ} (hdir : t.inode n = some (.dir entries)) (hlen : part.length ≤ 256)
      (hfound : Tree.lookup entries part ≠ 0) (hrest : Resolves t (Tree.lookup entries part) rest r) :
      Resolves t n (part :: rest) r

theorem parts_slash (path : List UInt8) : parts (slash :: path) = parts path := by
  rw [parts, List.splitOn, List.splitOnP_cons_eq_if_modifyHead, if_pos (beq_self_eq_true slash),
    List.filter_cons_of_neg (by simp)]
  rfl

theorem parts_cons {part rest : List UInt8} (hne : part ≠ []) (hpart : slash ∉ part)
    (hrest : rest = [] ∨ ∃ r, rest = slash :: r) : parts (part ++ rest) = part :: parts rest := by
  have hfree : ∀ c ∈ part, (c == slash) = false := by
    intro c hc
    simp only [beq_eq_false_iff_ne]
    rintro rfl
    exact hpart hc
  rcases hrest with rfl | ⟨r, rfl⟩
  · rw [List.append_nil, parts, List.splitOn, List.splitOnP_eq_singleton hfree,
      List.filter_cons_of_pos (by simpa using hne)]
    rfl
  · rw [parts_slash, parts, List.splitOn,
      List.splitOnP_append_cons_of_forall_mem hfree slash (beq_self_eq_true slash),
      List.filter_cons_of_pos (by simpa using hne)]
    rfl

theorem parts_dropWhile (path : List UInt8) :
    parts (path.dropWhile (· == slash)) = parts path := by
  induction path with
  | nil => rfl
  | cons c path ih =>
    rw [List.dropWhile_cons]
    split
    case isTrue hc =>
      obtain rfl : c = slash := by simpa using hc
      rw [ih, parts_slash]
    case isFalse => rfl

theorem parts_append (path path' : List UInt8) :
    parts (path ++ slash :: path') = parts path ++ parts path' := by
  rw [parts, List.splitOn_append_cons_self, List.filter_append]
  rfl

theorem parts_replicate_append (k : ℕ) (path : List UInt8) :
    parts (List.replicate k slash ++ path) = parts path := by
  induction k with
  | zero => rfl
  | succ k ih => rw [List.replicate_succ, List.cons_append, parts_slash, ih]

theorem parts_append_replicate (path : List UInt8) (k : ℕ) :
    parts (path ++ List.replicate k slash) = parts path := by
  cases k with
  | zero => rw [List.replicate_zero, List.append_nil]
  | succ k =>
    have hslashes := parts_replicate_append k []
    rw [List.append_nil] at hslashes
    rw [List.replicate_succ, parts_append, hslashes]
    exact List.append_nil _

theorem parts_split {path : List UInt8} (hne : path.dropWhile (· == slash) ≠ []) :
    parts path = ((path.dropWhile (· == slash)).takeWhile fun c => !(c == slash)) ::
      parts ((path.dropWhile (· == slash)).dropWhile fun c => !(c == slash)) := by
  have hhead := List.head_dropWhile_not (· == slash) hne
  rw [← parts_dropWhile path]
  generalize path.dropWhile (· == slash) = rest at hne hhead
  obtain ⟨c, tail, rfl⟩ := List.exists_cons_of_ne_nil hne
  have hpart : (c :: tail).takeWhile (fun c => !(c == slash)) ≠ [] := by
    simp only [List.head_cons] at hhead
    simp [hhead]
  have hfree : slash ∉ (c :: tail).takeWhile fun c => !(c == slash) := fun hmem => by
    simpa using List.mem_takeWhile_imp hmem
  have hback : (c :: tail).dropWhile (fun c => !(c == slash)) = [] ∨
      ∃ back, (c :: tail).dropWhile (fun c => !(c == slash)) = slash :: back := by
    cases hrest : (c :: tail).dropWhile fun c => !(c == slash) with
    | nil => exact Or.inl rfl
    | cons d back =>
      have hd := List.head_dropWhile_not (fun c => !(c == slash)) (l := c :: tail) (by simp [hrest])
      simp only [hrest, List.head_cons, Bool.not_eq_eq_eq_not, Bool.not_false, beq_iff_eq] at hd
      exact Or.inr ⟨back, by rw [hd]⟩
  rw [← parts_cons hpart hfree hback, List.takeWhile_append_dropWhile]

namespace Tree

def walk (t : Tree) : ℕ → List (List UInt8) → Except Halt (Option ℕ)
  | current, [] => .ok (some current)
  | current, part :: rest => do
    assert (part.length ≤ 256) "i < 256"
    let number ← t.findEntry current part
    if number = 0 then return none
    let current ← t.getNode number
    walk t current rest

theorem find_eq_walk (t : Tree) (n : ℕ) (path : List UInt8) :
    t.find n path = t.walk n (parts path) := by
  fun_induction Tree.find t n path with
  | case1 n path rest hrest =>
    rw [← parts_dropWhile path]
    simp only [rest] at hrest
    rw [hrest]
    rfl
  | case2 n path rest hrest part ih =>
    rw [parts_split hrest, walk]
    simp only [ih]
    rfl

theorem foldl_lookup (entries : List (ℕ × List UInt8)) (name : List UInt8) (out : ℕ) :
    entries.foldl (fun out e => if name = e.2 then e.1 else out) out = out ∨
      ∃ e ∈ entries, entries.foldl (fun out e => if name = e.2 then e.1 else out) out = e.1 := by
  induction entries generalizing out with
  | nil => exact Or.inl rfl
  | cons e entries ih =>
    rw [List.foldl_cons]
    by_cases hname : name = e.2
    · rw [if_pos hname]
      rcases ih e.1 with heq | ⟨d, hd, heq⟩
      · exact Or.inr ⟨e, List.mem_cons_self, heq⟩
      · exact Or.inr ⟨d, List.mem_cons_of_mem _ hd, heq⟩
    · rw [if_neg hname]
      rcases ih out with heq | ⟨d, hd, heq⟩
      · exact Or.inl heq
      · exact Or.inr ⟨d, List.mem_cons_of_mem _ hd, heq⟩

theorem isSome_lookup (t : Tree) {n : ℕ} {entries : List (ℕ × List UInt8)} {name : List UInt8}
    (hdir : t.inode n = some (.dir entries)) (hfound : lookup entries name ≠ 0) :
    (t.inode (lookup entries name)).isSome := by
  obtain ⟨e, he, heq⟩ := (foldl_lookup entries name 0).resolve_left hfound
  have hsome := t.closed n entries hdir e he (heq ▸ hfound)
  rwa [← heq] at hsome

theorem getNode_lookup (t : Tree) {n : ℕ} {entries : List (ℕ × List UInt8)} {name : List UInt8}
    (hdir : t.inode n = some (.dir entries)) (hfound : lookup entries name ≠ 0) :
    t.getNode (lookup entries name) = .ok (lookup entries name) :=
  if_pos (t.isSome_lookup hdir hfound)

theorem walk_ok_iff (t : Tree) {n : ℕ} {path : List (List UInt8)} {r : Option ℕ} :
    t.walk n path = .ok r ↔ Resolves t n path r := by
  constructor
  · intro h
    induction path generalizing n with
    | nil =>
      obtain rfl := Except.ok.inj h
      exact .done n
    | cons part rest ih =>
      by_cases hlen : part.length ≤ 256
      case neg => simp [walk, assert, hlen] at h
      rw [walk, assert_true hlen, ok_bind, findEntry] at h
      split at h
      case h_2 => nomatch h
      case h_1 entries hdir =>
        rw [ok_bind] at h
        by_cases hfound : lookup entries part = 0
        · rw [if_pos hfound] at h
          obtain rfl := Except.ok.inj h
          exact .missing hdir hlen hfound
        · rw [if_neg hfound, t.getNode_lookup hdir hfound, ok_bind] at h
          exact .step hdir hlen hfound (ih h)
  · intro h
    induction h with
    | done n => rfl
    | missing hdir hlen hnone =>
      rw [walk, assert_true hlen, ok_bind, findEntry, hdir, ok_bind, if_pos hnone]
      rfl
    | step hdir hlen hfound _ ih =>
      rw [walk, assert_true hlen, ok_bind, findEntry, hdir, ok_bind, if_neg hfound,
        t.getNode_lookup hdir hfound, ok_bind, ih]

theorem find_ok_iff (t : Tree) {n : ℕ} {path : List UInt8} {r : Option ℕ} :
    t.find n path = .ok r ↔ Resolves t n (parts path) r := by
  rw [find_eq_walk, walk_ok_iff]

end Tree

end OsShell.Ext2
