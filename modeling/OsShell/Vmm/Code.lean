import OsShell.Library.Outcome
import OsShell.PhysMem.Code

/-!
# Address spaces

Directories and tables are frames of 1024 words that the kernel reads and
writes at their physical addresses. Slots below 512 of a directory are the
kernel's and the same in every address space; the others are private. Flushing
of TLB entries is left out.
-/

namespace OsShell.Vmm

open PhysMem Stopping

structure Config where
  memSize : ℕ
  ioAPIC : ℕ
  localAPIC : ℕ

def isSpecial (c : Config) (va : ℕ) : Prop :=
  va < 0x80000000 ∨ va = c.ioAPIC ∨ va = c.localAPIC

instance (c : Config) (va : ℕ) : Decidable (isSpecial c va) :=
  inferInstanceAs (Decidable (_ ∨ _))

/-- Only the kernel may use what these flags are set for. -/
def kernelFlags (c : Config) (va : ℕ) : ℕ :=
  if va = c.ioAPIC ∨ va = c.localAPIC ∨ va < 0x80000000 then 3 else 7

def memcpy (mem : ℕ → ℕ) (dst src n : ℕ) : ℕ → ℕ :=
  fun a => if dst ≤ a ∧ a < dst + n then mem (src + (a - dst)) else mem a

def pageVa (pdi pti : ℕ) : ℕ := (pdi <<< 22) ||| (pti <<< 12)

def map (c : Config) (pd va pa : ℕ) (m : Machine) : Except Halt Machine := do
  let pdi := va >>> 22
  let pti := (va >>> 12) &&& 0x3FF
  let (pde, m) ←
    if m.mem (pd + 4 * pdi) &&& 1 = 0 then do
      let (frame, m) ← allocFrame m
      let pde := frame ||| kernelFlags c va
      .ok (pde, m.store (pd + 4 * pdi) pde)
    else
      .ok (m.mem (pd + 4 * pdi), m)
  let pt := pde &&& 0xFFFFF000
  return m.store (pt + 4 * pti) (pa ||| kernelFlags c va)

def sharedSlots (c : Config) : ℕ :=
  let m4 := 4 * 1024 * 1024
  (c.memSize + m4 - 1) % 2 ^ 32 / m4

def makePd (c : Config) (shared : ℕ) (m : Machine) : Except Halt (ℕ × Machine) := do
  let (pd, m) ← allocFrame m
  let sharedSize := 4 * sharedSlots c
  let m := { m with mem := memcpy m.mem pd shared sharedSize }
  let m ← map c pd c.ioAPIC c.ioAPIC m
  let m ← map c pd c.localAPIC c.localAPIC m
  return (pd, m)

/-- The inner loop of `deletePrivate`; the flag is `contains_special`. -/
def deletePrivatePages (c : Config) (pdi pt : ℕ) (m : Machine) : Except Halt (Bool × Machine) :=
  forRange 0 1024 (fun pti s =>
    if isSpecial c (pageVa pdi pti) then
      .ok (true, s.2)
    else
      let pte := s.2.mem (pt + 4 * pti)
      if pte &&& 1 = 0 then
        .ok s
      else do
        let m ← deallocFrame (s.2.store (pt + 4 * pti) 0) (pte &&& 0xFFFFF000)
        return (s.1, m)) (false, m)

def deletePrivateTable (c : Config) (pd pdi : ℕ) (m : Machine) : Except Halt Machine :=
  let pde := m.mem (pd + 4 * pdi)
  if pde &&& 1 = 0 then
    .ok m
  else do
    let pt := pde &&& 0xFFFFF000
    let (containsSpecial, m) ← deletePrivatePages c pdi pt m
    if containsSpecial then
      return m
    else
      deallocFrame (m.store (pd + 4 * pdi) 0) pt

def deletePrivate (c : Config) (cr3 pd : ℕ) (m : Machine) : Except Halt Machine := do
  assert (pd = cr3) "uint32_t(pd) == getCR3()"
  forRange 512 512 (deletePrivateTable c pd) m

/-- The inner loop of `deletePd`: the table goes away with its entries in it. -/
def deletePages (c : Config) (pdi pt : ℕ) (m : Machine) : Except Halt Machine :=
  forRange 0 1024 (fun pti m =>
    let pte := m.mem (pt + 4 * pti)
    if pte &&& 1 = 0 then
      .ok m
    else if isSpecial c (pageVa pdi pti) then
      .ok m
    else
      deallocFrame m (pte &&& 0xFFFFF000)) m

def deleteTable (c : Config) (pd pdi : ℕ) (m : Machine) : Except Halt Machine :=
  let pde := m.mem (pd + 4 * pdi)
  if pde &&& 1 = 0 then
    .ok m
  else do
    let pt := pde &&& 0xFFFFF000
    let m ← deletePages c pdi pt m
    deallocFrame m pt

def deletePd (c : Config) (cr3 pd : ℕ) (m : Machine) : Except Halt Machine := do
  assert (pd ≠ cr3) "uint32_t(pd) != getCR3()"
  let m ← forRange 512 512 (deleteTable c pd) m
  deallocFrame m pd

/-- `va` runs over the frames from the second one up to `memSize`. -/
def globalInit (c : Config) (m : Machine) : Except Halt (ℕ × Machine) := do
  let (shared, m) ← allocFrame m
  let m ← forRange 1 ((c.memSize - 1) / frameSize) (fun i m =>
    map c shared (frameSize * i) (frameSize * i) m) m
  return (shared, m)

/-- The handler, in a process with directory `pd`; `cr3` and `saved` are the current and the
saved value of the register. -/
def pageFault (c : Config) (cr3 saved pd va : ℕ) (m : Machine) : Except Halt Machine := do
  assert (pd = cr3) "(uint32_t)me->process->pd == getCR3()"
  assert (saved = cr3) "me->saveArea.cr3 == getCR3()"
  let va := framedown va
  if 0x80000000 ≤ va then do
    let (pa, m) ← allocFrame m
    map c pd va pa m
  else
    .error (.exit 1)

/-- One step of the inner loop of `Process::fork`. -/
def copyPage (parentPt childPt pti : ℕ) (m : Machine) : Except Halt Machine :=
  if m.mem (childPt + 4 * pti) &&& 1 = 1 then
    .ok m
  else
    let parentPte := m.mem (parentPt + 4 * pti)
    if parentPte &&& 1 = 0 then
      .ok m
    else do
      let parentFrame := parentPte &&& 0xFFFFF000
      let (childFrame, m) ← allocFrame m
      let m := { m with mem := memcpy m.mem childFrame parentFrame frameSize }
      return m.store (childPt + 4 * pti) (childFrame ||| 7)

def copyTable (parent child pdi : ℕ) (m : Machine) : Except Halt Machine :=
  let parentPde := m.mem (parent + 4 * pdi)
  if parentPde &&& 1 = 0 then
    .ok m
  else do
    let parentPt := parentPde &&& 0xFFFFF000
    let childPde := m.mem (child + 4 * pdi)
    let (childPt, m) ←
      if childPde &&& 1 = 0 then do
        let (frame, m) ← allocFrame m
        .ok (frame, m.store (child + 4 * pdi) (frame ||| 7))
      else
        .ok (childPde &&& 0xFFFFF000, m)
    forRange 0 1024 (copyPage parentPt childPt) m

/-- `Process::fork` copies the private portion of the address space. -/
def copyPrivate (parent child : ℕ) (m : Machine) : Except Halt Machine :=
  forRange 512 512 (copyTable parent child) m

end OsShell.Vmm
