import OsShell.BlockIO.ReadAll
import OsShell.Vmm.Code

/-!
# Loading and starting a program

`SYS::exec` writes the arguments to the new stack and lets `ELF::load` copy the
program. What they write goes to addresses of 32 bits and is kept as a list of
stores, in their order, next to the memory that results. A page that is not there
yet is read as zeros. A file has its bytes, and what `read_block` makes of each of
its blocks: the kernel may stop, and where the file has a hole other bytes may come.
Left out: `root_fs->find`, whose result is the argument `file`, the temporary copies
on the kernel's heap, and what becomes of a kernel that has been written over.
-/

namespace OsShell.Exec

open Bytes Stopping Vmm

structure File where
  type : ℕ
  bytes : List UInt8
  size_lt : bytes.length < 2 ^ 32
  blockSize : ℕ
  blockSize_pos : 0 < blockSize
  /-- what `read_block` puts into the buffer, if it does not stop the kernel before -/
  readBlock : ℕ → Except Halt Buffer

namespace File

/-- The bytes from `offset` on, up to the first that is in a block that cannot be read. -/
def readBytes (f : File) : ℕ → ℕ → List UInt8 × Except Halt Unit
  | _, 0 => ([], .ok ())
  | offset, n + 1 =>
    match f.readBlock (offset / f.blockSize) with
    | .error e => ([], .error e)
    | .ok block =>
      let (bytes, result) := f.readBytes (offset + 1) n
      (block (offset % f.blockSize) :: bytes, result)

/-- What `read_all` puts into the buffer, and what it returns. -/
def readAll (f : File) (offset n : ℕ) : List UInt8 × Except Halt ℤ :=
  if n = 0 then ([], .ok 0)
  else if offset > f.bytes.length then ([], .ok (-1))
  else
    let (bytes, result) := f.readBytes offset (min n (f.bytes.length - offset))
    (bytes, result.map fun _ => (bytes.length : ℤ))

/-- `read(offset, thing)`, where `thing` takes `size` bytes. -/
def readThing (f : File) (offset size : ℕ) : Except Halt Buffer := do
  let (bytes, result) := f.readAll offset size
  let cnt ← result
  assert (cnt = size) "cnt == sizeof(T)"
  return fun i => bytes.getD i 0

end File

structure ElfHeader where
  bits : Buffer

namespace ElfHeader

variable (h : ElfHeader)

def maigc0 : ℕ := (h.bits 0).toNat
def magic1 : ℕ := (h.bits 1).toNat
def magic2 : ℕ := (h.bits 2).toNat
def magic3 : ℕ := (h.bits 3).toNat
def cls : ℕ := (h.bits 4).toNat
def encoding : ℕ := (h.bits 5).toNat
def abi : ℕ := (h.bits 7).toNat
def type : ℕ := le16 h.bits 16
def version : ℕ := le32 h.bits 20
def entry : ℕ := le32 h.bits 24
def phoff : ℕ := le32 h.bits 28
def phentsize : ℕ := le16 h.bits 42
def phnum : ℕ := le16 h.bits 44

/-- The checks of `SYS::exec`, and what it returns where one fails. -/
def check : Option ℤ :=
  if h.maigc0 ≠ 0x7F ∨ h.magic1 ≠ 'E'.toNat ∨ h.magic2 ≠ 'L'.toNat ∨ h.magic3 ≠ 'F'.toNat then
    some (-3)
  else if h.encoding ≠ 1 then some (-4)
  else if h.cls ≠ 1 then some (-5)
  else if h.abi ≠ 0 then some (-6)
  else if h.type ≠ 2 then some (-7)
  else if h.version ≠ 1 then some (-8)
  else if h.phoff = 0 then some (-9)
  else none

end ElfHeader

structure ProgramHeader where
  bits : Buffer

namespace ProgramHeader

variable (phdr : ProgramHeader)

def type : ℕ := le32 phdr.bits 0
def offset : ℕ := le32 phdr.bits 4
def vaddr : ℕ := le32 phdr.bits 8
def filesz : ℕ := le32 phdr.bits 16
def memsz : ℕ := le32 phdr.bits 20

end ProgramHeader

/-- Bytes written from an address on; addresses wrap around. -/
structure Store where
  address : ℕ
  bytes : List UInt8
deriving DecidableEq

def Store.Touches (st : Store) (a : ℕ) : Prop :=
  ∃ i < st.bytes.length, a = (st.address + i) % 2 ^ 32

def Store.apply (mem : Buffer) (st : Store) : Buffer :=
  fun a => st.bytes.getD ((a + 2 ^ 32 - st.address % 2 ^ 32) % 2 ^ 32) (mem a)

theorem Store.apply_of_not_touches {mem : Buffer} {st : Store} {a : ℕ} (ha : a < 2 ^ 32)
    (h : ¬ st.Touches a) : Store.apply mem st a = mem a := by
  unfold Store.apply
  refine List.getD_eq_default _ _ ?_
  by_contra hlt
  exact h ⟨(a + 2 ^ 32 - st.address % 2 ^ 32) % 2 ^ 32, by omega, by omega⟩

/-- The loop of `bzero` counts with signed words: it ends at once for `n` from `2 ^ 31` on. -/
def bzero (dest n : ℕ) : Store :=
  ⟨dest, List.replicate (if n < 2 ^ 31 then n else 0) 0⟩

/-- The stores up to where the computation returns or stops the kernel. -/
abbrev Writing (α : Type) := List Store × Except Halt α

def Writing.andThen {α β : Type} (w : Writing α) (f : α → Writing β) : Writing β :=
  match w with
  | (stores, .error e) => (stores, .error e)
  | (stores, .ok a) =>
    let (rest, result) := f a
    (stores ++ rest, result)

namespace ELF

def segment (file : File) (phdr : ProgramHeader) : Writing Unit :=
  if phdr.type = 1 then
    let (bytes, result) := file.readAll phdr.offset phdr.filesz
    Writing.andThen ([⟨phdr.vaddr, bytes⟩], result) fun _ =>
      ([bzero ((phdr.vaddr + phdr.filesz) % 2 ^ 32) ((phdr.memsz + 2 ^ 32 - phdr.filesz) % 2 ^ 32)],
        .ok ())
  else ([], .ok ())

def segments (file : File) (phentsize : ℕ) : ℕ → ℕ → Writing Unit
  | 0, _ => ([], .ok ())
  | n + 1, hoff =>
    match file.readThing hoff 32 with
    | .error e => ([], .error e)
    | .ok bits => (segment file ⟨bits⟩).andThen fun _ =>
      segments file phentsize n ((hoff + phentsize) % 2 ^ 32)

def load (file : File) : Writing ℕ :=
  match file.readThing 0 52 with
  | .error e => ([], .error e)
  | .ok bits =>
    let hdr : ElfHeader := ⟨bits⟩
    let (stores, result) := segments file hdr.phentsize hdr.phnum hdr.phoff
    (stores, result.map fun _ => hdr.entry)

end ELF

/-- A string in the kernel's memory: what stands before the first zero, and what is found
behind it. -/
structure CString where
  chars : List UInt8
  nulFree : 0 ∉ chars
  junk : Buffer

namespace CString

def byte (s : CString) (i : ℕ) : UInt8 :=
  if i < s.chars.length then s.chars.getD i 0
  else if i = s.chars.length then 0
  else s.junk i

/-- `strlen` plus one, rounded up, by four where it is a multiple of four already. -/
def size (s : CString) : ℕ :=
  let size := s.chars.length + 1
  size + (4 - size % 4)

/-- What `memcpy(elem, argv[num - 1], size)` copies. -/
def elem (s : CString) : List UInt8 :=
  (List.range s.size).map s.byte

end CString

/-- `sp -= n`, in 32 bits. -/
def down (sp n : ℕ) : ℕ := (sp + 2 ^ 32 - n) % 2 ^ 32

namespace SYS

/-- The loop over the strings, from the last one on: the new `sp`, `addresses` and the stores. -/
def pushStrings : List CString → ℕ → ℕ × List ℕ × List Store
  | [], sp => (sp, [], [])
  | s :: argv, sp =>
    let (sp, addresses, stores) := pushStrings argv sp
    let sp := down sp s.size
    (sp, sp :: addresses, stores ++ [⟨sp, s.elem⟩])

def pushPointers : List ℕ → ℕ → ℕ × List Store
  | [], sp => (sp, [])
  | p :: addresses, sp =>
    let (sp, stores) := pushPointers addresses sp
    let sp := down sp 4
    (sp, stores ++ [⟨sp, word p⟩])

def buildStack (argv : List CString) : ℕ × List Store :=
  let sp := 0xefffe000
  let (sp, addresses, strings) := pushStrings argv sp
  let sp := down sp 4
  let null := bzero sp 4
  let (sp, pointers) := pushPointers addresses sp
  let sp := down sp 4
  let argP : Store := ⟨sp, word ((sp + 4) % 2 ^ 32)⟩
  let sp := down sp 4
  (sp, strings ++ [null] ++ pointers ++ [argP, ⟨sp, word argv.length⟩])

inductive Result
  | returned (code : ℤ)
  | user (entry sp : ℕ)
  | halted (h : Halt)
deriving DecidableEq

/-- `clear_private`: every page that is not special is gone. -/
def clearPrivate (c : Config) (mem : Buffer) : Buffer :=
  fun a => if isSpecial c (a / 4096 * 4096) then mem a else 0

def exec (c : Config) (file : Option File) (argv : List CString) (mem : Buffer) :
    Buffer × Result :=
  match file with
  | none => (mem, .returned (-1))
  | some file =>
    if file.type ≠ 8 then (mem, .returned (-2))
    else
      match file.readThing 0 52 with
      | .error e => (mem, .halted e)
      | .ok bits =>
        match (ElfHeader.mk bits).check with
        | some code => (mem, .returned code)
        | none =>
          let mem := clearPrivate c mem
          let (sp, stores) := buildStack argv
          let mem := stores.foldl Store.apply mem
          let (stores, result) := ELF.load file
          let mem := stores.foldl Store.apply mem
          match result with
          | .error e => (mem, .halted e)
          | .ok e => (mem, .user e sp)

end SYS

end OsShell.Exec
