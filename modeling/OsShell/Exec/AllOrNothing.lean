import OsShell.Exec.Load
import OsShell.Ext2.Tree

/-!
# All or nothing

`SYS::exec` refuses a file that is not a program before it touches the caller's
address space. After that there is no way back: what is wrong with a program
header, or cannot be read, shows while the old image is gone already. `Described`
says which files describe a complete image, and the ones of them that can be read
are run as they should, when there are frames for them.
-/

namespace OsShell.Exec

open Bytes Stopping Vmm Ext2

namespace File

variable (f : File)

def header : ElfHeader := ⟨f.view 0 52⟩

def headerOffset (i : ℕ) : ℕ :=
  (f.header.phoff + i * f.header.phentsize) % 2 ^ 32

def programHeader (i : ℕ) : ProgramHeader := ⟨f.view (f.headerOffset i) 32⟩

def parts (phdr : ProgramHeader) : List Store :=
  if phdr.type = 1 then
    [⟨phdr.vaddr, (f.bytes.drop phdr.offset).take phdr.filesz⟩,
      ⟨(phdr.vaddr + phdr.filesz) % 2 ^ 32, List.replicate (phdr.memsz - phdr.filesz) 0⟩]
  else []

/-- The image; where segments overlap, the later one counts. -/
def image : List Store :=
  (List.range f.header.phnum).flatMap fun i => f.parts (f.programHeader i)

end File

/-- The file has a segment's part of it, which is no longer than its memory, and the memory is
private. -/
def ProgramHeader.Whole (c : Config) (f : File) (phdr : ProgramHeader) : Prop :=
  phdr.type = 1 → (phdr.filesz = 0 ∨ phdr.offset + phdr.filesz ≤ f.bytes.length) ∧
    phdr.filesz ≤ phdr.memsz ∧ Exec.Clear c phdr.vaddr phdr.memsz

structure File.Described (c : Config) (f : File) : Prop where
  header : 52 ≤ f.bytes.length
  headers : ∀ i < f.header.phnum, f.headerOffset i + 32 ≤ f.bytes.length
  segments : ∀ i < f.header.phnum, (f.programHeader i).Whole c f

structure File.Intact (f : File) : Prop where
  header : f.Back 0 52
  headers : ∀ i < f.header.phnum, f.Back (f.headerOffset i) 32
  segments : ∀ i < f.header.phnum, (f.programHeader i).type = 1 →
    f.Back (f.programHeader i).offset (f.programHeader i).filesz

/-- `SYS::exec` where `free` frames are left when the old image is gone. -/
def SYS.execWithin (c : Config) (free : ℕ) (file : Option File) (argv : List CString)
    (mem : Buffer) : Buffer × SYS.Result :=
  match file, SYS.exec c file argv mem with
  | some f, (mem', .user entry sp) =>
    if framesNeeded c (addresses ((SYS.buildStack argv).2 ++ (ELF.load f).1)) ≤ free then
      (mem', .user entry sp)
    else (mem', .halted (.panic "no more frames"))
  | _, result => result

/-- The mounted file system: the tree, and each of its nodes as a file. -/
structure Disk extends Tree where
  file : ℕ → File
  type : ∀ n i, inode n = some i → (file n).type = i.type

def SYS.execPath (c : Config) (free : ℕ) (d : Disk) (path : List UInt8) (argv : List CString)
    (mem : Buffer) : Buffer × SYS.Result :=
  match d.find 2 path with
  | .error e => (mem, .halted e)
  | .ok found => SYS.execWithin c free (found.map d.file) argv mem

def Disk.named (d : Disk) (path : List UInt8) : Option File :=
  match d.find 2 path with
  | .error _ => none
  | .ok found => found.map d.file

/-- User mode with the complete image in memory, or a negative code and the memory as it was. -/
def AllOrNothing (c : Config) (file : Option File) (mem : Buffer) : Buffer × SYS.Result → Prop
  | (mem', .user entry _) => ∃ f, file = some f ∧ f.Described c ∧ entry = f.header.entry ∧
      ∃ stack : Buffer, mem' = f.image.foldl Store.apply stack
  | (mem', .returned code) => code < 0 ∧ mem' = mem
  | (_, .halted _) => False

/-- The ELF header can be read back, and where it passes the checks the file describes a complete
image, which can be read back and has its frames. -/
def File.Sound (c : Config) (free : ℕ) (argv : List CString) (f : File) : Prop :=
  52 ≤ f.bytes.length ∧ f.Back 0 52 ∧ (f.header.check = none → f.Described c ∧ f.Intact ∧
    framesNeeded c (addresses ((SYS.buildStack argv).2 ++ f.image)) ≤ free)

/-- The path can be walked to its end, or up to a missing name, and a file it leads to is sound. -/
def Disk.Sound (c : Config) (free : ℕ) (d : Disk) (path : List UInt8) (argv : List CString) : Prop :=
  ∃ r, Resolves d.toTree 2 (parts path) r ∧
    ∀ n, r = some n → (d.file n).type = 8 → (d.file n).Sound c free argv

theorem check_neg {h : ElfHeader} {code : ℤ} (hcheck : h.check = some code) : code < 0 := by
  unfold ElfHeader.check at hcheck
  repeat' split at hcheck
  all_goals cases hcheck
  all_goals decide

variable {c : Config} {f : File}

theorem segment_eq {phdr : ProgramHeader} (h : phdr.type = 1 →
    (phdr.filesz = 0 ∨ phdr.offset + phdr.filesz ≤ f.bytes.length) ∧ phdr.filesz ≤ phdr.memsz ∧
      phdr.memsz - phdr.filesz < 2 ^ 31 ∧ f.Back phdr.offset phdr.filesz) :
    ELF.segment f phdr = (f.parts phdr, .ok ()) := by
  unfold ELF.segment File.parts
  by_cases htype : phdr.type = 1
  · obtain ⟨hfit, hle, hhalf, hback⟩ := h htype
    have hlt : phdr.memsz < 2 ^ 32 := le32_lt _ _
    have hzeros : (phdr.memsz + 2 ^ 32 - phdr.filesz) % 2 ^ 32 = phdr.memsz - phdr.filesz := by
      omega
    rw [if_pos htype, if_pos htype, File.readAll_of_back hfit hback, bzero, hzeros, if_pos hhalf]
    rfl
  · rw [if_neg htype, if_neg htype]

theorem offset_zero {hoff : ℕ} (hlt : hoff < 2 ^ 32) (size : ℕ) :
    (hoff + 0 * size) % 2 ^ 32 = hoff := by
  omega

theorem offset_succ (hoff size i : ℕ) : ((hoff + size) % 2 ^ 32 + i * size) % 2 ^ 32 =
    (hoff + (i + 1) * size) % 2 ^ 32 := by
  rw [Nat.mod_add_mod]
  congr 1
  ring

section Segments

variable {size n hoff : ℕ} (hlt : hoff < 2 ^ 32)
include hlt

theorem segments_eq {stores : ℕ → List Store}
    (hfit : ∀ i < n, (hoff + i * size) % 2 ^ 32 + 32 ≤ f.bytes.length)
    (hback : ∀ i < n, f.Back ((hoff + i * size) % 2 ^ 32) 32)
    (hsegment : ∀ i < n, ELF.segment f ⟨f.view ((hoff + i * size) % 2 ^ 32) 32⟩ =
      (stores i, .ok ())) :
    ELF.segments f size n hoff = ((List.range n).flatMap stores, .ok ()) := by
  induction n generalizing hoff stores with
  | zero => rfl
  | succ n ih =>
    have hfirst := hfit 0 (Nat.succ_pos n)
    have hread := hback 0 (Nat.succ_pos n)
    have hstored := hsegment 0 (Nat.succ_pos n)
    rw [offset_zero hlt] at hfirst hread hstored
    have hrest : ELF.segments f size n ((hoff + size) % 2 ^ 32) =
        ((List.range n).flatMap fun i => stores (i + 1), .ok ()) := ih
      (Nat.mod_lt (hoff + size) (by omega : 0 < 2 ^ 32))
      (fun i hi => offset_succ hoff size i ▸ hfit (i + 1) (by omega))
      (fun i hi => offset_succ hoff size i ▸ hback (i + 1) (by omega))
      fun i hi => offset_succ hoff size i ▸ hsegment (i + 1) (by omega)
    rw [ELF.segments, File.readThing_of_back hfirst hread]
    simp only [hstored, Writing.andThen, hrest, List.range_succ_eq_map, List.flatMap_cons,
      List.flatMap_map, Nat.succ_eq_add_one]

theorem of_segments (htruthful : f.Truthful) (h : (ELF.segments f size n hoff).2 = .ok ()) :
    ∀ i < n, (hoff + i * size) % 2 ^ 32 + 32 ≤ f.bytes.length ∧
      f.Back ((hoff + i * size) % 2 ^ 32) 32 ∧
      (ELF.segment f ⟨f.view ((hoff + i * size) % 2 ^ 32) 32⟩).2 = .ok () := by
  induction n generalizing hoff with
  | zero => exact fun i hi => absurd hi (Nat.not_lt_zero i)
  | succ n ih =>
    rw [ELF.segments] at h
    cases hbits : f.readThing hoff 32 with
    | error e =>
      rw [hbits] at h
      cases h
    | ok bits =>
      obtain ⟨hfit, hcan⟩ := File.of_readThing (by decide) hbits
      have hback := htruthful.back (.inr hfit) hcan
      obtain rfl : f.view hoff 32 = bits :=
        Except.ok.inj ((File.readThing_of_back hfit hback).symm.trans hbits)
      rw [hbits] at h
      simp only at h
      obtain ⟨stores, r, hsegment⟩ : ∃ stores r, ELF.segment f ⟨f.view hoff 32⟩ = (stores, r) :=
        ⟨_, _, rfl⟩
      rw [hsegment] at h
      cases r with
      | error e => cases h
      | ok u =>
        rintro (_ | i) hi
        · rw [offset_zero hlt]
          exact ⟨hfit, hback, by rw [hsegment]⟩
        · rw [← offset_succ]
          exact ih (Nat.mod_lt _ (by decide)) h i (Nat.lt_of_succ_lt_succ hi)

end Segments

section Load

theorem load_header (hheader : 52 ≤ f.bytes.length) (hback : f.Back 0 52) : ELF.load f =
    let (stores, result) := ELF.segments f f.header.phentsize f.header.phnum f.header.phoff
    (stores, result.map fun _ => f.header.entry) := by
  rw [ELF.load, File.readThing_of_back (by omega) hback]
  rfl

theorem load_eq (hheader : 52 ≤ f.bytes.length)
    (hheaders : ∀ i < f.header.phnum, f.headerOffset i + 32 ≤ f.bytes.length) (hintact : f.Intact)
    {stores : ℕ → List Store} (hsegment : ∀ i < f.header.phnum,
      ELF.segment f (f.programHeader i) = (stores i, .ok ())) :
    ELF.load f = ((List.range f.header.phnum).flatMap stores, .ok f.header.entry) := by
  have hphoff : f.header.phoff < 2 ^ 32 := le32_lt _ _
  rw [load_header hheader hintact.header, segments_eq hphoff hheaders hintact.headers hsegment]
  rfl

/-- `bzero` takes the number of zeros, which is below `2 ^ 31` as an APIC page is in the private
half. -/
theorem load_described (hio : 0x80000000 ≤ c.ioAPIC ∧ c.ioAPIC < 2 ^ 32) (h : f.Described c)
    (hintact : f.Intact) : ELF.load f = (f.image, .ok f.header.entry) := by
  refine load_eq h.header h.headers hintact fun i hi => segment_eq fun htype => ?_
  obtain ⟨hfit, hle, hclear⟩ := h.segments i hi htype
  refine ⟨hfit, hle, ?_, hintact.segments i hi htype⟩
  unfold Clear at hclear
  omega

theorem of_load (htruthful : f.Truthful) {e : ℕ} (h : (ELF.load f).2 = .ok e) :
    52 ≤ f.bytes.length ∧ f.Back 0 52 ∧ ∀ i < f.header.phnum,
      f.headerOffset i + 32 ≤ f.bytes.length ∧ f.Back (f.headerOffset i) 32 ∧
        ((f.programHeader i).type = 1 →
          f.CanRead (f.programHeader i).offset (f.programHeader i).filesz) := by
  have hread : ∃ bits, f.readThing 0 52 = .ok bits := by
    cases hbits : f.readThing 0 52 with
    | ok bits => exact ⟨bits, rfl⟩
    | error e =>
      rw [ELF.load, hbits] at h
      cases h
  obtain ⟨bits, hbits⟩ := hread
  obtain ⟨hfit, hcan⟩ := File.of_readThing (by decide) hbits
  have hback := htruthful.back (.inr hfit) hcan
  refine ⟨by omega, hback, fun i hi => ?_⟩
  have hsegments : (ELF.segments f f.header.phentsize f.header.phnum f.header.phoff).2 = .ok () := by
    rw [load_header (by omega) hback] at h
    revert h
    generalize ELF.segments f f.header.phentsize f.header.phnum f.header.phoff = r
    obtain ⟨stores, e | ⟨⟩⟩ := r
    · exact nofun
    · exact fun _ => rfl
  obtain ⟨hheader, hheaderBack, hsegment⟩ := of_segments (le32_lt _ _) htruthful hsegments i hi
  exact ⟨hheader, hheaderBack, segment_ok_iff.mp hsegment⟩

theorem Intact.of_load (htruthful : f.Truthful) {e : ℕ} (h : (ELF.load f).2 = .ok e)
    (hfit : ∀ i < f.header.phnum, (f.programHeader i).type = 1 → (f.programHeader i).filesz = 0 ∨
      (f.programHeader i).offset + (f.programHeader i).filesz ≤ f.bytes.length) : f.Intact := by
  obtain ⟨-, hback, hall⟩ := Exec.of_load htruthful h
  exact ⟨hback, fun i hi => (hall i hi).2.1, fun i hi htype =>
    htruthful.back (hfit i hi htype) ((hall i hi).2.2 htype)⟩

end Load

section Exec

variable {free : ℕ} {argv : List CString} {mem : Buffer} (htype : f.type = 8)
include htype

variable (c argv mem) in
theorem exec_header (hheader : 52 ≤ f.bytes.length) (hback : f.Back 0 52) :
    SYS.exec c (some f) argv mem =
      match f.header.check with
      | some code => (mem, .returned code)
      | none =>
        let stack := (SYS.buildStack argv).2.foldl Store.apply (SYS.clearPrivate c mem)
        let mem := (ELF.load f).1.foldl Store.apply stack
        match (ELF.load f).2 with
        | .error e => (mem, .halted e)
        | .ok e => (mem, .user e (SYS.buildStack argv).1) := by
  have hread : f.readThing 0 52 = .ok f.header.bits := File.readThing_of_back (by omega) hback
  obtain ⟨stores, r, hload⟩ : ∃ stores r, ELF.load f = (stores, r) := ⟨_, _, rfl⟩
  rw [SYS.exec]
  cases hcheck : f.header.check with
  | some code =>
    have hcheck : (ElfHeader.mk f.header.bits).check = some code := hcheck
    simp only [htype, ne_eq, not_true_eq_false, if_false, hread, hcheck]
  | none =>
    have hcheck : (ElfHeader.mk f.header.bits).check = none := hcheck
    cases r <;>
      simp only [htype, ne_eq, not_true_eq_false, if_false, hread, hcheck, hload]

theorem execWithin_of_sound (hio : 0x80000000 ≤ c.ioAPIC ∧ c.ioAPIC < 2 ^ 32)
    (h : f.Sound c free argv) :
    AllOrNothing c (some f) mem (SYS.execWithin c free (some f) argv mem) := by
  obtain ⟨hheader, hback, hrest⟩ := h
  have hexec := exec_header c argv mem htype hheader hback
  unfold SYS.execWithin
  cases hcheck : f.header.check with
  | some code =>
    rw [hcheck] at hexec
    rw [hexec]
    exact ⟨check_neg hcheck, rfl⟩
  | none =>
    obtain ⟨hdescribed, hintact, hframes⟩ := hrest hcheck
    have hload := load_described hio hdescribed hintact
    rw [hcheck, hload] at hexec
    rw [hexec]
    simp only [hload, if_pos hframes]
    exact ⟨f, rfl, hdescribed, rfl, _, rfl⟩

theorem sound_of_execWithin (hio : 0x80000000 ≤ c.ioAPIC ∧ c.ioAPIC < 2 ^ 32)
    (htruthful : f.Truthful)
    (h : AllOrNothing c (some f) mem (SYS.execWithin c free (some f) argv mem)) :
    f.Sound c free argv := by
  cases hbits : f.readThing 0 52 with
  | error e =>
    have hexec : SYS.exec c (some f) argv mem = (mem, .halted e) := by
      rw [SYS.exec]
      simp only [htype, ne_eq, not_true_eq_false, if_false, hbits]
    unfold SYS.execWithin at h
    rw [hexec] at h
    exact h.elim
  | ok bits =>
    obtain ⟨hfit, hcan⟩ := File.of_readThing (by decide) hbits
    have hback := htruthful.back (.inr hfit) hcan
    refine ⟨by omega, hback, fun hcheck => ?_⟩
    have hexec := exec_header c argv mem htype (by omega) hback
    rw [hcheck] at hexec
    unfold SYS.execWithin at h
    cases hload : (ELF.load f).2 with
    | error e =>
      rw [hload] at hexec
      rw [hexec] at h
      exact h.elim
    | ok e =>
      rw [hload] at hexec
      rw [hexec] at h
      simp only at h
      split_ifs at h with hframes
      · obtain ⟨f', heq, hdescribed, -⟩ := h
        obtain rfl := Option.some.inj heq
        have hintact := Intact.of_load htruthful hload fun i hi htype =>
          (hdescribed.segments i hi htype).1
        rw [load_described hio hdescribed hintact] at hframes
        exact ⟨hdescribed, hintact, hframes⟩
      · exact h.elim

end Exec

theorem execPath_of_find {free n : ℕ} {d : Disk} {path : List UInt8} {argv : List CString}
    {mem : Buffer} (h : d.find 2 path = .ok (some n)) : SYS.execPath c free d path argv mem =
      SYS.execWithin c free (some (d.file n)) argv mem := by
  simp only [SYS.execPath, h, Option.map_some]

theorem kilobyte_pos : 0 < 1024 := by decide

theorem length_nil_lt : ([] : List UInt8).length < 2 ^ 32 := by decide

theorem length_header_lt : ((oneSegment 0x80000000).bytes.take 52).length < 2 ^ 32 := by
  decide +kernel

/-- An empty file, a program whose header is all there is of it, and one with a hole where its
segment should be. -/
def emptyFile : File := .stored 8 1024 [] kilobyte_pos length_nil_lt

def headerOnly : File :=
  .stored 8 1024 ((oneSegment 0x80000000).bytes.take 52) kilobyte_pos length_header_lt

def withHole : File where
  type := 8
  bytes := (oneSegment 0x80000000).bytes.take 56 ++ word 1024 ++
    (oneSegment 0x80000000).bytes.drop 60 ++ List.replicate (2048 - 84) 0
  size_lt := by decide +kernel
  blockSize := 1024
  blockSize_pos := kilobyte_pos
  readBlock b :=
    if b = 0 then .ok fun i => ((oneSegment 0x80000000).bytes.take 56 ++ word 1024 ++
      (oneSegment 0x80000000).bytes.drop 60).getD i 0
    else .error (.assertion "index < data.n_sectors / (block_size / 512)")

def programs : Disk where
  inode
    | 2 => some (.dir [(3, [97]), (4, [98]), (5, [99]), (6, [100])])
    | 3 | 4 | 5 | 6 => some .file
    | _ => none
  root := ⟨_, rfl⟩
  closed n entries h e he _ := by
    split at h <;> cases h
    simp only [List.mem_cons, List.not_mem_nil, or_false] at he
    rcases he with rfl | rfl | rfl | rfl <;> rfl
  names n entries h e he := by
    split at h <;> cases h
    simp only [List.mem_cons, List.not_mem_nil, or_false] at he
    rcases he with rfl | rfl | rfl | rfl <;> decide
  file
    | 3 => oneSegment 0x80000000
    | 4 => emptyFile
    | 5 => headerOnly
    | 6 => withHole
    | _ => .stored 4 1024 [] kilobyte_pos length_nil_lt
  type n i h := by
    split at h <;> cases h <;> rfl

end OsShell.Exec
