import OsShell.FirstFit.Tags

/-!
# `kernel/heap.cc`

The kernel's allocator over the word array. `Option` is the outcome of a call:
`none` stands for a call that ends in `Debug::panic`, which never returns.
Pointers are addresses; `size_t` arithmetic wraps at `2^32`.
-/

namespace OsShell.KernelHeap

open FirstFit

/-- The number of words `malloc` asks for, header and footer included. -/
def intsFor (bytes : ℕ) : ℤ :=
  let ints : ℤ := ((bytes + 3) % 2 ^ 32 / 4 + 2 : ℕ)
  if ints < 4 then 4 else ints

/-- The search loop of `malloc`: the smallest of the first 20 blocks that fit. -/
def search (h : Heap) (ints : ℤ) : ℕ → ℤ → ℤ × ℤ → ℤ → Option (ℤ × ℤ)
  | 0, _, _, _ => none
  | fuel + 1, countDown, (mx, it), p =>
    if p = 0 then some (mx, it)
    else if isAvail h p = false then none
    else
      let sz := size h p
      if ints ≤ sz then
        let best := if sz < mx then (sz, p) else (mx, it)
        let countDown := countDown - 1
        if countDown = 0 then some best
        else search h ints fuel countDown best (next h p)
      else search h ints fuel countDown (mx, it) (next h p)

/-- `&array[i]`. -/
def address (h : Heap) (i : ℤ) : ℤ := h.base + 4 * i

def malloc (h : Heap) (bytes : ℕ) : Option (Heap × ℤ) :=
  if bytes = 0 then some (h, h.base)
  else
    let ints := intsFor bytes
    -- The list has fewer than `len` nodes, so this fuel is never the reason for `none`.
    match search h ints (h.len.toNat + 1) 20 (0x7FFFFFFF, 0) h.avail with
    | none => none
    | some (mx, it) =>
      if it ≠ 0 then some (carve h it mx ints, address h (it + 1)) else some (h, 0)

def free (h : Heap) (p : ℤ) : Option Heap :=
  if p = 0 then some h
  else if p = h.base then some h
  else
    let idx := (p - h.base) % 2 ^ 32 / 4 - 1
    if isTaken h idx = false then none else some (coalesce h idx)

/-- `sizeof(BlockingLock)`: an 8-byte count, the 8-byte `ISL`, a 12-byte queue and a
reference count. -/
def blockingLockBytes : ℕ := 32

/-- What the constructor of `BlockingLock` stores from word `i` on. Word `i + 6` is the
unused byte of `NoLock` and its padding. -/
def constructLock (h : Heap) (i : ℤ) : Heap :=
  let h := (h.store i 1).store (i + 1) 0
  let h := (h.store (i + 2) 0).store (i + 3) 0
  let h := (h.store (i + 4) 0).store (i + 5) 0
  h.store (i + 7) 0

/-- `new BlockingLock()`; `operator new` panics when `malloc` finds nothing. -/
def newBlockingLock (h : Heap) : Option (Heap × ℤ) :=
  match malloc h blockingLockBytes with
  | none => none
  | some (h, p) => if p = 0 then none else some (constructLock h ((p - h.base) / 4), p)

/-- The array after the three calls of `heapInit` that lay out the blocks. -/
def layOut (base : ℤ) (bytes : ℕ) (memory : ℤ → ℤ) : Heap :=
  let h : Heap := ⟨base, (bytes / 4 : ℕ), 0, memory⟩
  makeTaken (makeAvail (makeTaken h 0 2) 2 (h.len - 4)) (h.len - 2) 2

/-- `heapInit` on a memory with arbitrary contents; the second component is `theLock`. -/
def heapInit (base : ℤ) (bytes : ℕ) (memory : ℤ → ℤ) : Option (Heap × ℤ) :=
  newBlockingLock (layOut base bytes memory)

end OsShell.KernelHeap
