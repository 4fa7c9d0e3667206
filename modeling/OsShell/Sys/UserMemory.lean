import OsShell.Exec.Load
import OsShell.Sys.Redirection

/-!
# Where system calls store

Six system calls store through an address that the caller passes, and each checks
it in its own way, or not at all. A store is kept as where it begins and how many
bytes it has. An open file is what its `read` depends on: size and offset of an
`ActualFile`, the side of a pipe and how many bytes the pipe holds when the call
gets its lock, or the console. The strings of the kernel are found in the memory.
-/

namespace OsShell.Sys

open Bytes Exec Processes Vmm

inductive OpenFile
  | actual (size totalOffset : ℕ)
  | pipe (reads : Bool) (count : ℕ)
  | console

def OpenFile.seek (offset : ℕ) : OpenFile → OpenFile
  | .actual size _ => .actual size offset
  | f => f

def OpenFile.stored (buffer n : ℕ) : OpenFile → ℕ
  | .actual size totalOffset =>
    if buffer < 0x80000000 then 0
    else if totalOffset ≥ size ∨ n = 0 then 0
    else if n > size - totalOffset then size - totalOffset
    else n
  -- the size is an `int` there
  | .pipe reads count => if reads then min (BitVec.ofNat 32 n).toInt.toNat count else 0
  | .console => if n = 0 then 0 else 1

/-- The process, where its `cwd` and the literal `""` of the handler stand, and the memory. -/
structure Caller where
  process : Process OpenFile Unit Unit
  cwd : ℕ
  literal : ℕ
  mem : Buffer

abbrev Range := ℕ × ℕ

/-- How many bytes `memcpy(dest, src, n)` copies: it counts with signed words. -/
def copied (n : ℕ) : ℕ :=
  if n < 2 ^ 31 then n else 0

section Handlers

variable (k : Caller) (userEsp : ℕ)

/-- `userEsp[i]` -/
def Caller.word (i : ℕ) : ℕ := wordAt k.mem (userEsp + 4 * i)

def Caller.id (i : ℕ) : Id := .ofNat 32 (k.word userEsp i)

/-- `*ptr = e->get()` -/
def waitStores : List Range :=
  if k.word userEsp 2 < 0x80000000 then []
  else if (k.process.wait (k.id userEsp 1)).2.1.isSome then [(k.word userEsp 2, 4)]
  else []

def readStores : List Range :=
  let buffer := k.word userEsp 2
  if buffer < 0x80000000 ∨ buffer = 0xFEC00000 ∨ buffer = 0xFEE00000 then []
  else if k.word userEsp 1 = 1 then []
  else
    match k.process.getFile (k.id userEsp 1) with
    | none => []
    | some fd => [(buffer, fd.stored buffer (k.word userEsp 3))]

/-- Where there is no file, the call does not get as far as a store. -/
def readdirStores : List Range :=
  let buffer := k.word userEsp 2
  match k.process.getFile (k.id userEsp 1) with
  | none => []
  | some fd => [(buffer, (fd.seek (k.word userEsp 3)).stored buffer 1024)]

/-- `memcpy((void*)userEsp[1], fd, 2 * sizeof(int))` -/
def pipeStores : List Range :=
  let (readFd, p) := k.process.setFile (.pipe true 0)
  let (writeFd, _) := p.setFile (.pipe false 0)
  if readFd < 0 ∨ writeFd < 0 then [] else [(k.word userEsp 1, 8)]

/-- A string that never ends keeps the call from a store. -/
def pwdStores : List Range :=
  let buffer := k.word userEsp 1
  if k.cwd = 0 then []
  else
    match strlen k.mem k.cwd with
    | none => []
    | some length => [(buffer, copied length), (buffer + length, 1)]

/-- `memcpy(stored_addition, added_path, added_length)` and the zero behind it, which go to the
kernel's literal. -/
def Caller.addition (addedPath addedLength : ℕ) : Buffer :=
  let mem := (List.range (copied addedLength)).foldl (fun mem i =>
    Function.update mem ((k.literal + i) % 2 ^ 32) (byteAt mem (addedPath + i))) k.mem
  Function.update mem ((k.literal + addedLength) % 2 ^ 32) 0

/-- `index` counts down from the last character, in 32 bits. -/
def Caller.parentIndex (size : ℕ) : Option ℕ :=
  let index n := (size + (2 ^ 32 - 1 - n)) % 2 ^ 32
  (findFrom (fun n => byteAt k.mem (k.cwd + index n) == 47) (2 ^ 32) 0).map index

def parentStores (addedPath : ℕ) : List Range :=
  match (strlen k.mem k.cwd).bind k.parentIndex with
  | none => []
  | some index => if index ≠ 0 then [(addedPath, copied index)] else []

def cdStores : List Range :=
  let addedPath := k.word userEsp 1
  if k.word userEsp 2 = 0 then
    match cstring k.mem addedPath with
    | none => []
    | some added =>
      if added = [46, 46] then parentStores k addedPath
      else if added = [46] then []
      else
        match strlen (k.addition addedPath added.length) k.cwd with
        | none => []
        | some prevLen =>
          [(addedPath, copied prevLen), (addedPath + prevLen, 1),
            (addedPath + prevLen + 1, copied added.length),
            (addedPath + prevLen + 1 + added.length, 1)]
  else []

/-- What `sysHandler` and the methods it calls store through addresses of the user stack. -/
def userStores (eax : ℕ) : List Range :=
  if eax = 8 then waitStores k userEsp
  else if eax = 12 then readStores k userEsp
  else if eax = 16 then readdirStores k userEsp
  else if eax = 18 then pipeStores k userEsp
  else if eax = 19 then pwdStores k userEsp
  else if eax = 20 then cdStores k userEsp
  else []

end Handlers

def ClearString (c : Config) (a n : ℕ) : Prop :=
  if n < 2 ^ 31 then Clear c a (n + 1) else Clear c ((a + n) % 2 ^ 32) 1

/-- What a caller has to respect so that the call stores to private addresses only. -/
structure SafeAddresses (c : Config) (k : Caller) (userEsp eax : ℕ) : Prop where
  wait : eax = 8 → 0x80000000 ≤ k.word userEsp 2 →
    (k.process.wait (k.id userEsp 1)).2.1 ≠ none → Clear c (k.word userEsp 2) 4
  read : eax = 12 → 0x80000000 ≤ k.word userEsp 2 → k.word userEsp 2 ≠ 0xFEC00000 →
    k.word userEsp 2 ≠ 0xFEE00000 → k.word userEsp 1 ≠ 1 →
    ∀ fd, k.process.getFile (k.id userEsp 1) = some fd →
      Clear c (k.word userEsp 2) (fd.stored (k.word userEsp 2) (k.word userEsp 3))
  readdir : eax = 16 → ∀ fd, k.process.getFile (k.id userEsp 1) = some fd →
    Clear c (k.word userEsp 2)
      ((fd.seek (k.word userEsp 3)).stored (k.word userEsp 2) 1024)
  pipe : eax = 18 → (∃ i j, i ≠ j ∧ k.process.files i = none ∧ k.process.files j = none) →
    Clear c (k.word userEsp 1) 8
  pwd : eax = 19 → k.cwd ≠ 0 → ∀ n, strlen k.mem k.cwd = some n →
    ClearString c (k.word userEsp 1) n
  cdParent : eax = 20 → k.word userEsp 2 = 0 → cstring k.mem (k.word userEsp 1) = some [46, 46] →
    ∀ size index, strlen k.mem k.cwd = some size → k.parentIndex size = some index →
      Clear c (k.word userEsp 1) (copied index)
  cd : eax = 20 → k.word userEsp 2 = 0 → ∀ added, cstring k.mem (k.word userEsp 1) = some added →
    added ≠ [46, 46] → added ≠ [46] →
    ∀ n, strlen (k.addition (k.word userEsp 1) added.length) k.cwd = some n →
      ClearString c (k.word userEsp 1) n ∧
        ClearString c ((k.word userEsp 1 + n + 1) % 2 ^ 32) added.length

variable {c : Config} {k : Caller} {userEsp : ℕ}

theorem word_lt (i : ℕ) : k.word userEsp i < 2 ^ 32 :=
  le32_lt _ _

def AllPrivate (c : Config) (ranges : List Range) : Prop :=
  ∀ r ∈ ranges, ∀ i < r.2, Private c ((r.1 + i) % 2 ^ 32)

theorem allPrivate_nil : AllPrivate c [] :=
  fun _ hr => absurd hr List.not_mem_nil

theorem allPrivate_cons {r : Range} {ranges : List Range} : AllPrivate c (r :: ranges) ↔
    (∀ i < r.2, Private c ((r.1 + i) % 2 ^ 32)) ∧ AllPrivate c ranges :=
  List.forall_mem_cons

theorem allPrivate_one {a n : ℕ} (ha : a < 2 ^ 32) : AllPrivate c [(a, n)] ↔ Clear c a n := by
  rw [allPrivate_cons, and_iff_left allPrivate_nil, clear_iff ha]

theorem clearString_iff {a n : ℕ} (ha : a < 2 ^ 32) :
    ((∀ i < copied n, Private c ((a + i) % 2 ^ 32)) ∧ ∀ i < 1, Private c ((a + n + i) % 2 ^ 32)) ↔
      ClearString c a n := by
  unfold ClearString copied
  by_cases hn : n < 2 ^ 31
  · rw [if_pos hn, if_pos hn, ← clear_iff ha]
    constructor
    · rintro ⟨hcopy, hlast⟩ i hi
      rcases Nat.lt_succ_iff_lt_or_eq.mp hi with hi | rfl
      · exact hcopy i hi
      · exact hlast 0 Nat.one_pos
    · intro h
      refine ⟨fun i hi => h i (by omega), fun i hi => ?_⟩
      obtain rfl : i = 0 := by omega
      exact h n (Nat.lt_succ_self n)
  · rw [if_neg hn, if_neg hn, ← clear_iff (Nat.mod_lt _ (by omega)),
      and_iff_right (fun i hi => absurd hi (Nat.not_lt_zero i))]
    simp only [Nat.mod_add_mod]

theorem ite_nil {P : Prop} [Decidable P] {ranges : List Range} :
    AllPrivate c (if P then [] else ranges) ↔ (¬ P → AllPrivate c ranges) := by
  by_cases h : P
  · simp [h, allPrivate_nil]
  · simp [h]

theorem wait_private_iff : AllPrivate c (waitStores k userEsp) ↔
    (0x80000000 ≤ k.word userEsp 2 → (k.process.wait (k.id userEsp 1)).2.1 ≠ none →
      Clear c (k.word userEsp 2) 4) := by
  rw [waitStores, ite_nil, Nat.not_lt]
  refine imp_congr_right fun _ => ?_
  cases (k.process.wait (k.id userEsp 1)).2.1 with
  | none => simp [allPrivate_nil]
  | some e => simp [allPrivate_one (word_lt 2)]

theorem read_private_iff : AllPrivate c (readStores k userEsp) ↔
    (0x80000000 ≤ k.word userEsp 2 → k.word userEsp 2 ≠ 0xFEC00000 →
      k.word userEsp 2 ≠ 0xFEE00000 → k.word userEsp 1 ≠ 1 →
      ∀ fd, k.process.getFile (k.id userEsp 1) = some fd →
        Clear c (k.word userEsp 2) (fd.stored (k.word userEsp 2) (k.word userEsp 3))) := by
  simp only [readStores, ite_nil, not_or, Nat.not_lt, and_imp]
  refine imp_congr_right fun _ => imp_congr_right fun _ => imp_congr_right fun _ =>
    imp_congr_right fun _ => ?_
  cases k.process.getFile (k.id userEsp 1) with
  | none => simp [allPrivate_nil]
  | some fd => simp [allPrivate_one (word_lt 2)]

theorem readdir_private_iff : AllPrivate c (readdirStores k userEsp) ↔
    ∀ fd, k.process.getFile (k.id userEsp 1) = some fd → Clear c (k.word userEsp 2)
      ((fd.seek (k.word userEsp 3)).stored (k.word userEsp 2) 1024) := by
  unfold readdirStores
  cases k.process.getFile (k.id userEsp 1) with
  | none => simp [allPrivate_nil]
  | some fd => simp [allPrivate_one (word_lt 2)]

theorem pwd_private_iff : AllPrivate c (pwdStores k userEsp) ↔
    (k.cwd ≠ 0 → ∀ n, strlen k.mem k.cwd = some n → ClearString c (k.word userEsp 1) n) := by
  rw [pwdStores, ite_nil]
  refine imp_congr_right fun _ => ?_
  cases strlen k.mem k.cwd with
  | none => simp [allPrivate_nil]
  | some n =>
    simp only [allPrivate_cons, and_iff_left allPrivate_nil, clearString_iff (word_lt 1),
      Option.some.injEq, forall_eq']

theorem pipe_private_iff : AllPrivate c (pipeStores k userEsp) ↔
    ((∃ i j, i ≠ j ∧ k.process.files i = none ∧ k.process.files j = none) →
      Clear c (k.word userEsp 1) 8) := by
  unfold pipeStores
  rcases setFile_twice k.process (.pipe true 0) (.pipe false 0)
    with ⟨hfull, hread, hwrite⟩ | ⟨i, hi, honly, hread, hwrite⟩ | ⟨i, j, hij, hi, hj, hread, hwrite⟩
  · simp only [hread, hwrite]
    rw [if_pos (by decide)]
    refine iff_of_true allPrivate_nil ?_
    rintro ⟨i, -, -, hi, -⟩
    exact absurd hi (hfull i)
  · simp only [hread, hwrite]
    rw [if_pos (Or.inr (by decide))]
    refine iff_of_true allPrivate_nil ?_
    rintro ⟨a, b, hab, ha, hb⟩
    exact absurd ((honly a ha).trans (honly b hb).symm) hab
  · simp only [hread, hwrite]
    rw [if_neg (by omega), allPrivate_one (word_lt 1)]
    exact ⟨fun h _ => h, fun h => h ⟨i, j, hij, hi, hj⟩⟩

theorem parent_private_iff {a : ℕ} (ha : a < 2 ^ 32) : AllPrivate c (parentStores k a) ↔
    ∀ size index, strlen k.mem k.cwd = some size → k.parentIndex size = some index →
      Clear c a (copied index) := by
  unfold parentStores
  cases hsize : strlen k.mem k.cwd with
  | none => simp [allPrivate_nil]
  | some size =>
    rw [Option.bind_some]
    cases hindex : k.parentIndex size with
    | none =>
      refine iff_of_true allPrivate_nil ?_
      rintro _ index ⟨⟩ h
      rw [hindex] at h
      nomatch h
    | some index =>
      have hparts : (∀ size' index', some size = some size' → k.parentIndex size' = some index' →
          Clear c a (copied index')) ↔ Clear c a (copied index) := by
        constructor
        · exact fun h => h size index rfl hindex
        · rintro h _ index' ⟨⟩ h'
          rw [hindex] at h'
          obtain rfl := Option.some.inj h'
          exact h
      rw [hparts]
      dsimp only
      by_cases hzero : index = 0
      · rw [hzero, if_neg (not_not.mpr rfl)]
        exact iff_of_true allPrivate_nil (Or.inl rfl)
      · rw [if_pos hzero, allPrivate_one ha]

theorem addition_private_iff {a n m : ℕ} (ha : a < 2 ^ 32) :
    AllPrivate c [(a, copied n), (a + n, 1), (a + n + 1, copied m), (a + n + 1 + m, 1)] ↔
      ClearString c a n ∧ ClearString c ((a + n + 1) % 2 ^ 32) m := by
  rw [← clearString_iff ha, ← clearString_iff (Nat.mod_lt _ (by omega))]
  simp only [allPrivate_cons, and_iff_left allPrivate_nil, Nat.mod_add_mod, Nat.add_assoc,
    and_assoc]

theorem cd_private_iff : AllPrivate c (cdStores k userEsp) ↔
    (k.word userEsp 2 = 0 → cstring k.mem (k.word userEsp 1) = some [46, 46] →
      ∀ size index, strlen k.mem k.cwd = some size → k.parentIndex size = some index →
        Clear c (k.word userEsp 1) (copied index)) ∧
    (k.word userEsp 2 = 0 → ∀ added, cstring k.mem (k.word userEsp 1) = some added →
      added ≠ [46, 46] → added ≠ [46] →
      ∀ n, strlen (k.addition (k.word userEsp 1) added.length) k.cwd = some n →
        ClearString c (k.word userEsp 1) n ∧
          ClearString c ((k.word userEsp 1 + n + 1) % 2 ^ 32) added.length) := by
  unfold cdStores
  by_cases hzero : k.word userEsp 2 = 0
  · dsimp only
    rw [if_pos hzero]
    cases hadded : cstring k.mem (k.word userEsp 1) with
    | none => simp [allPrivate_nil]
    | some added =>
      by_cases hparent : added = [46, 46]
      · subst hparent
        simp [hzero, parent_private_iff (word_lt 1)]
      · by_cases hself : added = [46]
        · subst hself
          simp [hzero, allPrivate_nil]
        · cases hlen : strlen (k.addition (k.word userEsp 1) added.length) k.cwd with
          | none => simp [hparent, hself, hlen, allPrivate_nil]
          | some n => simp [hzero, hparent, hself, hlen, addition_private_iff (word_lt 1)]
  · dsimp only
    rw [if_neg hzero]
    exact iff_of_true allPrivate_nil ⟨fun h => absurd h hzero, fun h => absurd h hzero⟩

theorem SafeAddresses.of_not_storing {eax : ℕ} (h8 : eax ≠ 8) (h12 : eax ≠ 12) (h16 : eax ≠ 16)
    (h18 : eax ≠ 18) (h19 : eax ≠ 19) (h20 : eax ≠ 20) : SafeAddresses c k userEsp eax :=
  ⟨fun h => absurd h h8, fun h => absurd h h12, fun h => absurd h h16, fun h => absurd h h18,
    fun h => absurd h h19, fun h => absurd h h20, fun h => absurd h h20⟩

/-- A call stores to private addresses only if and only if its caller passes safe addresses. -/
theorem userStores_private_iff (c : Config) (k : Caller) (userEsp eax : ℕ) :
    AllPrivate c (userStores k userEsp eax) ↔ SafeAddresses c k userEsp eax := by
  unfold userStores
  by_cases h8 : eax = 8
  · subst h8
    rw [if_pos rfl, wait_private_iff]
    exact ⟨fun h => ⟨fun _ => h, nofun, nofun, nofun, nofun, nofun, nofun⟩, fun h => h.wait rfl⟩
  rw [if_neg h8]
  by_cases h12 : eax = 12
  · subst h12
    rw [if_pos rfl, read_private_iff]
    exact ⟨fun h => ⟨nofun, fun _ => h, nofun, nofun, nofun, nofun, nofun⟩, fun h => h.read rfl⟩
  rw [if_neg h12]
  by_cases h16 : eax = 16
  · subst h16
    rw [if_pos rfl, readdir_private_iff]
    exact ⟨fun h => ⟨nofun, nofun, fun _ => h, nofun, nofun, nofun, nofun⟩, fun h => h.readdir rfl⟩
  rw [if_neg h16]
  by_cases h18 : eax = 18
  · subst h18
    rw [if_pos rfl, pipe_private_iff]
    exact ⟨fun h => ⟨nofun, nofun, nofun, fun _ => h, nofun, nofun, nofun⟩, fun h => h.pipe rfl⟩
  rw [if_neg h18]
  by_cases h19 : eax = 19
  · subst h19
    rw [if_pos rfl, pwd_private_iff]
    exact ⟨fun h => ⟨nofun, nofun, nofun, nofun, fun _ => h, nofun, nofun⟩, fun h => h.pwd rfl⟩
  rw [if_neg h19]
  by_cases h20 : eax = 20
  · subst h20
    rw [if_pos rfl, cd_private_iff]
    exact ⟨fun h => ⟨nofun, nofun, nofun, nofun, nofun, fun _ => h.1, fun _ => h.2⟩,
      fun h => ⟨h.cdParent rfl, h.cd rfl⟩⟩
  rw [if_neg h20]
  exact iff_of_true allPrivate_nil (.of_not_storing h8 h12 h16 h18 h19 h20)

def kernelPointers : Caller where
  process := ⟨fun _ => none, fun _ => none, fun _ => none, (), 0⟩
  cwd := 0
  literal := 0
  mem := [⟨0x90000004, word 0x100000⟩].foldl Store.apply fun _ => 0

/-- `pipe` stores its two descriptors to the kernel's own memory. -/
theorem pipe_stores_anywhere :
    ¬ AllPrivate ⟨0x800000, 0xFEC00000, 0xFEE00000⟩ (userStores kernelPointers 0x90000000 18) := by
  intro h
  have hmem : (0x100000, 8) ∈ userStores kernelPointers 0x90000000 18 := by decide +kernel
  have hlow := (h _ hmem 0 (by decide)).1
  norm_num at hlow

end OsShell.Sys
