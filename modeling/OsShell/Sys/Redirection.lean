import OsShell.Exec.Arguments
import OsShell.Pipe.Code
import OsShell.Process.HandleRuns

/-!
# `pipe` and `dup2`

The two system calls with which a shell redirects its children. `pipe` takes a
slot for each end before it looks whether it got both; `dup2` answers at once when
its two descriptors are equal. Pipes are known by their place in the order in which
they were made; the handler stores the two slot numbers where the second word of
the caller's stack points.
-/

namespace OsShell.Sys

open Bytes Exec Processes

variable {F S U : Type}

def READ : ℕ := 0
def WRITE : ℕ := 1

inductive FileObject (F : Type)
  | pipeFile (my_pipe mode : ℕ)
  | other (file : F)

structure Files (F S U : Type) where
  process : Process (FileObject F) S U
  pipes : List Pipes.Ring
  mem : Buffer

/-- `memory` is what the new pipe's buffer holds. -/
def sysPipe (s : Files F S U) (memory : ℕ → UInt8) (userEsp : ℕ) : ℤ × Files F S U :=
  let pipe := s.pipes.length
  let pipes := s.pipes ++ [Pipes.Ring.new memory]
  let (read_fd, p) := s.process.setFile (.pipeFile pipe READ)
  let (write_fd, p) := p.setFile (.pipeFile pipe WRITE)
  if read_fd < 0 ∨ write_fd < 0 then (-1, ⟨p, pipes, s.mem⟩)
  else
    let fd := word read_fd.toNat ++ word write_fd.toNat
    (0, ⟨p, pipes, Store.apply s.mem ⟨wordAt s.mem (userEsp + 4), fd⟩⟩)

/-- A call that fails leaves the table as it was; one that succeeds has put the two ends of a new
empty pipe into free slots and stored their numbers. -/
def AllOrNothing (s : Files F S U) (userEsp : ℕ) (r : ℤ × Files F S U) : Prop :=
  (r.1 < 0 → r.2.process = s.process) ∧
  (r.1 = 0 → ∃ (i j : Fin 10) (ring : Pipes.Ring), i ≠ j ∧
    s.process.files i = none ∧ s.process.files j = none ∧
    r.2.pipes = s.pipes ++ [ring] ∧ ring.count = 0 ∧
    r.2.process.files i = some (.pipeFile s.pipes.length READ) ∧
    r.2.process.files j = some (.pipeFile s.pipes.length WRITE) ∧
    (∀ k, k ≠ i → k ≠ j → r.2.process.files k = s.process.files k) ∧
    wordAt r.2.mem (wordAt s.mem (userEsp + 4)) = i ∧
    wordAt r.2.mem (wordAt s.mem (userEsp + 4) + 4) = j)

section Slots

variable {p : Process F S U} {i j : Fin 10} {f g : F}

def withFile (p : Process F S U) (i : Fin 10) (f : F) : Process F S U :=
  { p with files := Function.update p.files i (some f) }

@[simp] theorem withFile_self (p : Process F S U) (i : Fin 10) (f : F) :
    (withFile p i f).files i = some f := by
  simp [withFile]

theorem withFile_of_ne (hij : j ≠ i) (f : F) : (withFile p i f).files j = p.files j :=
  Function.update_of_ne hij _ _

theorem setFile_some (h : firstFree p.files = some i) (f : F) :
    p.setFile f = ((i.val : ℤ), withFile p i f) := by
  simp only [Process.setFile, h, withFile]

theorem setFile_none (h : firstFree p.files = none) (f : F) : p.setFile f = (-1, p) := by
  simp only [Process.setFile, h]

theorem firstFree_withFile (f : F) (hj : firstFree (withFile p i f).files = some j) :
    i ≠ j ∧ p.files j = none := by
  have hfree := (firstFree_eq_some.mp hj).1
  have hij : j ≠ i := by
    rintro rfl
    simp at hfree
  rw [withFile_of_ne hij] at hfree
  exact ⟨hij.symm, hfree⟩

theorem only_free (f : F) (hnone : firstFree (withFile p i f).files = none) :
    ∀ k, p.files k = none → k = i := by
  intro k hk
  by_contra hki
  have hfilled := firstFree_eq_none.mp hnone k
  rw [withFile_of_ne hki] at hfilled
  exact hfilled hk

inductive TwoSlots (p : Process F S U) (f g : F) : Prop
  | full (hfull : ∀ k, p.files k ≠ none) (hread : p.setFile f = (-1, p))
      (hwrite : p.setFile g = (-1, p))
  | one (i : Fin 10) (hi : p.files i = none) (honly : ∀ k, p.files k = none → k = i)
      (hread : p.setFile f = ((i.val : ℤ), withFile p i f))
      (hwrite : (withFile p i f).setFile g = (-1, withFile p i f))
  | two (i j : Fin 10) (hij : i ≠ j) (hi : p.files i = none) (hj : p.files j = none)
      (hread : p.setFile f = ((i.val : ℤ), withFile p i f))
      (hwrite : (withFile p i f).setFile g = ((j.val : ℤ), withFile (withFile p i f) j g))

theorem setFile_twice (p : Process F S U) (f g : F) : TwoSlots p f g := by
  cases h : firstFree p.files with
  | none => exact .full (firstFree_eq_none.mp h) (setFile_none h f) (setFile_none h g)
  | some i =>
    have hi := (firstFree_eq_some.mp h).1
    have hread := setFile_some h f
    cases h' : firstFree (withFile p i f).files with
    | none => exact .one i hi (only_free f h') hread (setFile_none h' g)
    | some j =>
      obtain ⟨hij, hj⟩ := firstFree_withFile f h'
      exact .two i j hij hi hj hread (setFile_some h' g)

end Slots

theorem byteAt_apply {mem : Buffer} {st : Store} (hlen : st.bytes.length ≤ 2 ^ 32) {i : ℕ}
    (hi : i < st.bytes.length) :
    byteAt (Store.apply mem st) (st.address + i) = st.bytes[i] := by
  have hplace : ((st.address + i) % 2 ^ 32 + 2 ^ 32 - st.address % 2 ^ 32) % 2 ^ 32 = i := by
    omega
  simp only [byteAt, Store.apply]
  rw [hplace, List.getD_eq_getElem?_getD, List.getElem?_eq_getElem hi, Option.getD_some]

theorem wordAt_apply {mem : Buffer} {a x y : ℕ} (hx : x < 2 ^ 32) (hy : y < 2 ^ 32) :
    wordAt (Store.apply mem ⟨a, word x ++ word y⟩) a = x ∧
      wordAt (Store.apply mem ⟨a, word x ++ word y⟩) (a + 4) = y := by
  have hspells : Spells (byteAt (Store.apply mem ⟨a, word x ++ word y⟩)) a (word x ++ word y) :=
    fun i hi => byteAt_apply (by simp) hi
  obtain ⟨hfirst, hsecond⟩ := spells_append.mp hspells
  exact ⟨le32_of_spells hfirst hx, le32_of_spells hsecond hy⟩

/-- The call is all or nothing unless exactly one slot is free: then that slot is lost. -/
theorem pipe_allOrNothing_iff (s : Files F S U) (memory : ℕ → UInt8) (userEsp : ℕ) :
    AllOrNothing s userEsp (sysPipe s memory userEsp) ↔
      ¬ ∃! i, s.process.files i = none := by
  rcases setFile_twice s.process (.pipeFile s.pipes.length READ) (.pipeFile s.pipes.length WRITE)
    with ⟨hfull, hread, hwrite⟩ | ⟨i, hi, honly, hread, hwrite⟩ | ⟨i, j, hij, hi, hj, hread, hwrite⟩
  · have hcall : (sysPipe s memory userEsp).1 = -1 ∧
        (sysPipe s memory userEsp).2.process = s.process := by
      simp [sysPipe, hread, hwrite]
    refine iff_of_true ⟨fun _ => hcall.2, fun hzero => ?_⟩ ?_
    · rw [hcall.1] at hzero
      nomatch hzero
    · rintro ⟨k, hk, -⟩
      exact hfull k hk
  · have hcall : (sysPipe s memory userEsp).1 = -1 ∧
        (sysPipe s memory userEsp).2.process.files i ≠ none := by
      simp [sysPipe, hread, hwrite]
    refine iff_of_false (fun h => hcall.2 ?_) (not_not.mpr ⟨i, hi, honly⟩)
    rw [h.1 (by rw [hcall.1]; decide), hi]
  · have hne : ¬ ((i.val : ℤ) < 0 ∨ (j.val : ℤ) < 0) := by omega
    obtain ⟨hfst, hsnd⟩ := wordAt_apply (show i.val < 2 ^ 32 by omega) (show j.val < 2 ^ 32 by omega)
    simp only [sysPipe, hread, hwrite, if_neg hne, Int.toNat_natCast]
    refine iff_of_true ⟨nofun, fun _ => ⟨i, j, .new memory, hij, hi, hj, rfl, rfl, ?_, ?_,
      fun k hki hkj => ?_, hfst, hsnd⟩⟩ ?_
    · rw [withFile_of_ne hij, withFile_self]
    · rw [withFile_self]
    · rw [withFile_of_ne hkj, withFile_of_ne hki]
    · rintro ⟨k, -, honly⟩
      exact hij ((honly i hi).trans (honly j hj).symm)

def nineFiles : Files Unit Unit Unit where
  process := ⟨fun i => if i = 9 then none else some (.other ()), fun _ => none, fun _ => none, (), 0⟩
  pipes := []
  mem := fun _ => 0

/-- The call fails, and the tenth slot is gone. -/
theorem last_slot_lost : ¬ AllOrNothing nineFiles 0 (sysPipe nineFiles (fun _ => 0) 0) := by
  intro h
  have hcode : (sysPipe nineFiles (fun _ => 0) 0).1 = -1 := by decide
  have hslot : ((sysPipe nineFiles (fun _ => 0) 0).2.process.files 9).isSome = true := by decide
  rw [h.1 (by rw [hcode]; decide)] at hslot
  nomatch hslot

variable {p : Process F S U} {oldfd newfd : Id}

/-- A call that succeeds has copied an open slot to the slot `newfd`; one that fails has changed
nothing. -/
def Dup2Correct (p : Process F S U) (oldfd newfd : Id) (r : ℤ × Process F S U) : Prop :=
  (0 ≤ r.1 → r.1 = newfd.toInt ∧ ∃ (i j : Fin 10) (f : F), oldfd.toInt = i ∧ newfd.toInt = j ∧
    p.files i = some f ∧ r.2.files j = some f ∧ (∀ k ≠ j, r.2.files k = p.files k) ∧
    r.2.sems = p.sems ∧ r.2.children = p.children) ∧
  (r.1 < 0 → r.2 = p)

theorem close_file (p : Process F S U) (j : Fin 10) :
    (p.close (handle .file j)).2 = { p with files := Function.update p.files j none } := by
  have hindex := getFileIndex_handle .file j
  have hsem := getSemaphoreIndex_handle .file j
  have hchild := getChildIndex_handle .file j
  rw [if_pos rfl] at hindex
  rw [if_neg (by decide)] at hsem hchild
  simp only [Process.close, hindex, hsem, hchild]
  cases h : p.files j with
  | none => rw [if_pos Option.isNone_none, ← h, Function.update_eq_self]
  | some f => rw [if_neg (by simp)]

theorem dup2_of_ne (hne : oldfd ≠ newfd) : Dup2Correct p oldfd newfd (p.dup2 oldfd newfd) := by
  unfold Process.dup2
  rw [if_neg hne]
  by_cases hold : oldfd.toInt < 0 ∨ oldfd.toInt ≥ 10
  · rw [dif_pos hold]
    exact ⟨nofun, fun _ => rfl⟩
  rw [dif_neg hold]
  dsimp only
  generalize hi : (⟨oldfd.toInt.toNat, by omega⟩ : Fin 10) = i
  cases hfile : p.files i with
  | none =>
    rw [if_pos Option.isNone_none]
    exact ⟨nofun, fun _ => rfl⟩
  | some f =>
    rw [if_neg (by simp)]
    by_cases hnew : newfd.toInt < 0 ∨ newfd.toInt ≥ 10
    · rw [dif_pos hnew]
      exact ⟨nofun, fun _ => rfl⟩
    rw [dif_neg hnew]
    generalize hj : (⟨newfd.toInt.toNat, by omega⟩ : Fin 10) = j
    have holdfd : oldfd.toInt = i := by rw [← hi]; simp only; omega
    have hnewfd : newfd.toInt = j := by rw [← hj]; simp only; omega
    have hij : i ≠ j := by
      rintro rfl
      exact hne (BitVec.eq_of_toInt_eq (holdfd.trans hnewfd.symm))
    have hhandle : newfd = handle .file j := by rw [← hj]; exact eq_handle_of_toInt (by omega)
    refine ⟨fun _ => ⟨rfl, i, j, f, holdfd, hnewfd, hfile, ?_⟩, fun hlt => ?_⟩
    · rw [hhandle, close_file]
      refine ⟨?_, fun k hk => ?_, rfl, rfl⟩
      · simp only [Function.update_self, Function.update_of_ne hij, hfile]
      · simp only [Function.update_of_ne hk]
    · exact absurd hlt (by omega)

/-- The call is correct unless its descriptors are equal, not negative and not open. -/
theorem dup2_correct_iff (p : Process F S U) (oldfd newfd : Id) :
    Dup2Correct p oldfd newfd (p.dup2 oldfd newfd) ↔
      (oldfd = newfd → 0 ≤ newfd.toInt → ∃ i : Fin 10, newfd.toInt = i ∧ p.files i ≠ none) := by
  by_cases heq : oldfd = newfd
  · subst heq
    have hcall : p.dup2 oldfd oldfd = (oldfd.toInt, p) := by
      unfold Process.dup2
      rw [if_pos rfl]
    rw [hcall]
    constructor
    · rintro ⟨hok, -⟩ - hnonneg
      obtain ⟨-, i, j, f, hi, -, hfile, -⟩ := hok hnonneg
      exact ⟨i, hi, by rw [hfile]; exact Option.some_ne_none f⟩
    · intro hopen
      refine ⟨fun hnonneg => ⟨rfl, ?_⟩, fun _ => rfl⟩
      obtain ⟨i, hi, hne⟩ := hopen rfl hnonneg
      obtain ⟨f, hf⟩ := Option.ne_none_iff_exists'.mp hne
      exact ⟨i, i, f, hi, hi, hf, hf, fun _ _ => rfl, rfl, rfl⟩
  · exact iff_of_true (dup2_of_ne heq) fun h => absurd h heq

/-- `dup2(77, 77)` returns 77. -/
theorem dup2_seventySeven : ¬ Dup2Correct nineFiles.process 77 77 (nineFiles.process.dup2 77 77) := by
  rintro ⟨hok, -⟩
  obtain ⟨-, i, -, -, hi, -⟩ := hok (by decide)
  have hi77 : (77 : ℤ) = i.val := hi
  have := i.isLt
  omega

end OsShell.Sys
