import OsShell.Ext2.Symlink
import OsShell.Ext2.Tree
import OsShell.Sys.Descriptors

/-!
# `open` and `opendir`

Both look the path up from the root and put the node into a free slot of the process.
`open` follows links before that, what `get_symbol` gives from the root again, in a
loop that stops only at a node that is no link: how far it gets is bounded by fuel here,
and a call that is still in the loop when that runs out has no result. The fields of no
node cannot be read.
-/

namespace OsShell.Sys

open Ext2 Processes

variable {S U : Type}

/-- A tree with the 60 bytes of each i-node where its block pointers are, or a short target. -/
structure FileSystem extends Tree where
  pointerBytes : ℕ → List UInt8
  sixty : ∀ n, (pointerBytes n).length = 60
  short : ∀ n target, inode n = some (.symlink target) → target.length < 60 →
    (pointerBytes n).take target.length = target

/-- The string that `get_symbol` leaves in the buffer. -/
def FileSystem.link (t : FileSystem) (n : ℕ) (target : List UInt8) : List UInt8 :=
  (symbol (t.pointerBytes n) target).takeWhile (· ≠ 0)

def follow (t : FileSystem) : ℕ → ℕ → Option (Except Fault ℕ)
  | 0, _ => none
  | fuel + 1, n =>
    match t.inode n with
    | some (.symlink target) =>
      match t.find 2 (t.link n target) with
      | .error e => some (.error (.halt e))
      | .ok none => some (.error .nullDereference)
      | .ok (some m) => follow t fuel m
    | _ => some (.ok n)

def sysOpen (t : FileSystem) (path : List UInt8) (p : Process ℕ S U) (fuel : ℕ) :
    Option (Except Fault (ℤ × Process ℕ S U)) :=
  match t.find 2 path with
  | .error e => some (.error (.halt e))
  | .ok none => some (.ok (-1, p))
  | .ok (some n) =>
    if path = [] then some (.ok (-1, p))
    else (follow t fuel n).map fun r => r.map p.setFile

/-- The node is asked for its type before it is compared with null, and may be of any type. -/
def sysOpendir (t : Tree) (path : List UInt8) (p : Process ℕ S U) :
    Except Fault (ℤ × Process ℕ S U) :=
  match t.find 2 path with
  | .error e => .error (.halt e)
  | .ok none => .error .nullDereference
  | .ok (some n) => if path = [] then .ok (-1, p) else .ok (p.setFile n)

def Answers (call : ℕ → Option (Except Fault (ℤ × Process ℕ S U))) : Prop :=
  ∃ fuel r q, call fuel = some (.ok (r, q)) ∧
    (r < 0 ∨ ∃ i : Fin 10, r = i.val ∧ (q.files i).isSome)

inductive LinksEnd (t : FileSystem) : ℕ → Prop
  | here {n : ℕ} (h : ∀ target, t.inode n ≠ some (.symlink target)) : LinksEnd t n
  | follow {n m : ℕ} {target : List UInt8} (h : t.inode n = some (.symlink target))
      (hfind : Resolves t.toTree 2 (parts (t.link n target)) (some m)) (hrest : LinksEnd t m) :
      LinksEnd t n

theorem follow_ok_iff {t : FileSystem} {n : ℕ} : (∃ fuel m, follow t fuel n = some (.ok m)) ↔
    LinksEnd t n := by
  constructor
  · rintro ⟨fuel, m, h⟩
    induction fuel generalizing n with
    | zero => nomatch h
    | succ fuel ih =>
      rw [follow] at h
      split at h
      case h_2 hlink => exact .here fun target heq => hlink target heq
      case h_1 target hlink =>
        split at h
        case h_1 => nomatch h
        case h_2 => nomatch h
        case h_3 k hfind => exact .follow hlink (t.find_ok_iff.mp hfind) (ih h)
  · intro h
    induction h with
    | @here n h =>
      refine ⟨1, n, ?_⟩
      rw [follow]
      split
      case h_1 target hlink => exact absurd hlink (h target)
      case h_2 => rfl
    | follow h hfind _ ih =>
      obtain ⟨fuel, m, hm⟩ := ih
      refine ⟨fuel + 1, m, ?_⟩
      simp only [follow, h, t.find_ok_iff.mpr hfind, hm]

theorem setFile_answers (p : Process ℕ S U) (file : ℕ) : (p.setFile file).1 < 0 ∨
    ∃ i : Fin 10, (p.setFile file).1 = i.val ∧ ((p.setFile file).2.files i).isSome := by
  rw [Process.setFile]
  cases firstFree p.files with
  | none => exact Or.inl (show (-1 : ℤ) < 0 by decide)
  | some i => exact Or.inr ⟨i, rfl, by simp⟩

theorem sysOpen_answers_iff {t : FileSystem} {path : List UInt8} {p : Process ℕ S U} :
    Answers (sysOpen t path p) ↔
      ∃ r, Resolves t.toTree 2 (parts path) r ∧ (path ≠ [] → ∀ n, r = some n → LinksEnd t n) := by
  constructor
  · rintro ⟨fuel, r, q, h, -⟩
    rw [sysOpen] at h
    cases hfind : t.find 2 path with
    | error e =>
      rw [hfind] at h
      nomatch h
    | ok found =>
      refine ⟨found, t.find_ok_iff.mp hfind, fun hpath n hn => follow_ok_iff.mp ⟨fuel, ?_⟩⟩
      rw [hfind, hn] at h
      simp only [if_neg hpath, Option.map_eq_some_iff] at h
      obtain ⟨result, hfollow, h⟩ := h
      cases result with
      | error e => nomatch h
      | ok m => exact ⟨m, hfollow⟩
  · rintro ⟨found, hfound, hlinks⟩
    have hfind := t.find_ok_iff.mpr hfound
    have hrefused : ∀ fuel, sysOpen t path p fuel = some (.ok (-1, p)) → Answers (sysOpen t path p) :=
      fun fuel h => ⟨fuel, -1, p, h, Or.inl (by decide)⟩
    cases found with
    | none => exact hrefused 0 (by rw [sysOpen, hfind])
    | some n =>
      by_cases hpath : path = []
      · exact hrefused 0 (by simp only [sysOpen, hfind, if_pos hpath])
      · obtain ⟨fuel, m, hm⟩ := follow_ok_iff.mpr (hlinks hpath n rfl)
        refine ⟨fuel, (p.setFile m).1, (p.setFile m).2, ?_, setFile_answers p m⟩
        simp only [sysOpen, hfind, if_neg hpath, hm]
        rfl

theorem sysOpendir_answers_iff {t : Tree} {path : List UInt8} {p : Process ℕ S U} :
    Answers (fun _ => some (sysOpendir t path p)) ↔ ∃ n, Resolves t 2 (parts path) (some n) := by
  constructor
  · rintro ⟨_, r, q, hcall, -⟩
    have h := Option.some.inj hcall
    rw [sysOpendir] at h
    split at h
    case h_1 => nomatch h
    case h_2 => nomatch h
    case h_3 n hfind => exact ⟨n, t.find_ok_iff.mp hfind⟩
  · rintro ⟨n, hn⟩
    have hfind := t.find_ok_iff.mpr hn
    by_cases hpath : path = []
    · exact ⟨0, -1, p, by simp only [sysOpendir, hfind, if_pos hpath], Or.inl (by decide)⟩
    · refine ⟨0, (p.setFile n).1, (p.setFile n).2, ?_, setFile_answers p n⟩
      simp only [sysOpendir, hfind, if_neg hpath]

/-- Both calls answer if and only if every component that they look up is looked up in a directory
and has at most 256 bytes, and `open` if what it finds, if anything, leads through its links to a
node, while `opendir` has to find something. -/
theorem open_answers_iff (t : FileSystem) (path : List UInt8) (p : Process ℕ S U) :
    (Answers (sysOpen t path p) ↔ ∃ r, Resolves t.toTree 2 (parts path) r ∧
      (path ≠ [] → ∀ n, r = some n → LinksEnd t n)) ∧
    (Answers (fun _ => some (sysOpendir t.toTree path p)) ↔
      ∃ n, Resolves t.toTree 2 (parts path) (some n)) :=
  ⟨sysOpen_answers_iff, sysOpendir_answers_iff⟩

theorem link_eq (t : FileSystem) {n : ℕ} {target : List UInt8}
    (hlink : t.inode n = some (.symlink target)) (hlen : target.length ≠ 60) :
    t.link n target = target.takeWhile (· ≠ 0) := by
  rw [FileSystem.link, symbol]
  split_ifs with hle
  · rw [t.short n target hlink (by omega)]
  · rfl

/-- A file `a`, a link `b` to itself, a link `c` to nothing and a link `d` to `a`, by a path of 60
bytes. -/
def sampleInode (n : ℕ) : Option Inode :=
  if n = 2 then some (.dir [(11, [97]), (12, [98]), (13, [99]), (14, [100])])
  else if n = 11 then some .file
  else if n = 12 then some (.symlink [98])
  else if n = 13 then some (.symlink [120])
  else if n = 14 then some (.symlink (List.replicate 59 slash ++ [97]))
  else none

theorem sampleInode_dir {n : ℕ} {entries : List (ℕ × List UInt8)}
    (h : sampleInode n = some (.dir entries)) :
    entries = [(11, [97]), (12, [98]), (13, [99]), (14, [100])] := by
  rw [sampleInode] at h
  split_ifs at h <;> cases h
  rfl

def sampleTree : FileSystem where
  inode := sampleInode
  root := ⟨_, rfl⟩
  closed n entries h e he _ := by
    rw [sampleInode_dir h] at he
    simp only [List.mem_cons, List.not_mem_nil, or_false] at he
    rcases he with rfl | rfl | rfl | rfl <;> rfl
  names n entries h e he := by
    rw [sampleInode_dir h] at he
    simp only [List.mem_cons, List.not_mem_nil, or_false] at he
    rcases he with rfl | rfl | rfl | rfl <;> decide
  pointerBytes n := (if n = 12 then 98 else if n = 13 then 120 else 20) :: List.replicate 59 0
  sixty n := by rw [List.length_cons, List.length_replicate]
  short n target h hlen := by
    rw [sampleInode] at h
    split_ifs at h with h2 h11 h12 h13 h14 <;> cases h
    · subst h12
      rfl
    · subst h13
      rfl
    · simp at hlen

theorem sampleTree_faults (p : Process ℕ S U) :
    sysOpendir sampleTree.toTree [120] p = .error .nullDereference ∧
    (∀ fuel, sysOpen sampleTree [99] p fuel =
      if fuel = 0 then none else some (.error .nullDereference)) ∧
    (∀ fuel, sysOpen sampleTree [100] p fuel =
      if fuel = 0 then none else some (.error .nullDereference)) ∧
    (∀ fuel, sysOpen sampleTree [97, slash, 120] p fuel =
      some (.error (.halt (.assertion "is_dir()")))) ∧
    ∀ fuel, sysOpen sampleTree [98] p fuel = none := by
  have hx : sampleTree.find 2 [120] = .ok none := by
    rw [Tree.find_eq_walk]
    rfl
  have hblock : sampleTree.find 2 [20] = .ok none := by
    rw [Tree.find_eq_walk]
    rfl
  have hc : sampleTree.find 2 [99] = .ok (some 13) := by
    rw [Tree.find_eq_walk]
    rfl
  have hd : sampleTree.find 2 [100] = .ok (some 14) := by
    rw [Tree.find_eq_walk]
    rfl
  have ha : sampleTree.find 2 [97, slash, 120] = .error (.assertion "is_dir()") := by
    rw [Tree.find_eq_walk]
    rfl
  have hb : sampleTree.find 2 [98] = .ok (some 12) := by
    rw [Tree.find_eq_walk]
    rfl
  have hdangling : ∀ n target, sampleTree.inode n = some (.symlink target) →
      sampleTree.find 2 (sampleTree.link n target) = .ok none → ∀ fuel,
        follow sampleTree fuel n = if fuel = 0 then none else some (.error .nullDereference) := by
    intro n target hlink hfind fuel
    cases fuel with
    | zero => rfl
    | succ fuel => simp only [follow, hlink, hfind, Nat.succ_ne_zero, if_false]
  have hcycle : ∀ fuel, follow sampleTree fuel 12 = none := by
    intro fuel
    induction fuel with
    | zero => rfl
    | succ fuel ih =>
      have hlink : sampleTree.inode 12 = some (.symlink [98]) := rfl
      have htarget : sampleTree.link 12 [98] = [98] := rfl
      simp only [follow, hlink, htarget, hb, ih]
  refine ⟨?_, fun fuel => ?_, fun fuel => ?_, fun fuel => ?_, fun fuel => ?_⟩
  · simp only [sysOpendir, hx]
  · simp only [sysOpen, hc, hdangling 13 [120] rfl hx, reduceCtorEq, if_false]
    split <;> rfl
  · simp only [sysOpen, hd, hdangling 14 _ rfl hblock, reduceCtorEq, if_false]
    split <;> rfl
  · simp only [sysOpen, ha]
  · simp only [sysOpen, hb, hcycle, reduceCtorEq, if_false]
    rfl

theorem sampleTree_unanswered : ∃ p : Process ℕ Unit Unit,
    ¬ Answers (fun _ => some (sysOpendir sampleTree.toTree [120] p)) ∧
    ¬ Answers (sysOpen sampleTree [99] p) ∧ ¬ Answers (sysOpen sampleTree [100] p) ∧
    ¬ Answers (sysOpen sampleTree [97, slash, 120] p) ∧ ¬ Answers (sysOpen sampleTree [98] p) := by
  let p : Process ℕ Unit Unit :=
    { files := fun _ => none, sems := fun _ => none, children := fun _ => none, output := (),
      pd := 0 }
  obtain ⟨hdir, hdangling, hsixty, hfile, hcycle⟩ := sampleTree_faults p
  refine ⟨p, ?_, ?_, ?_, ?_, ?_⟩
  · rintro ⟨_, r, q, h, -⟩
    rw [hdir] at h
    nomatch h
  · rintro ⟨fuel, r, q, h, -⟩
    rw [hdangling] at h
    split at h <;> nomatch h
  · rintro ⟨fuel, r, q, h, -⟩
    rw [hsixty] at h
    split at h <;> nomatch h
  · rintro ⟨fuel, r, q, h, -⟩
    rw [hfile] at h
    nomatch h
  · rintro ⟨fuel, r, q, h, -⟩
    rw [hcycle] at h
    nomatch h

end OsShell.Sys
