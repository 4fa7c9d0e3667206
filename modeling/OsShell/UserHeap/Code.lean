import OsShell.KernelHeap.Code

/-!
# `sbin/heap.c`

The allocator of the user programs, over the same word array as the kernel's:
`malloc` takes the first block that fits, `free` of a block that is not taken
returns without a word, and there is a `realloc`. `memcpy` is the byte loop of
`machine.S`; the bytes of a word are counted from the low end, and a word that
gets a byte is a signed 32-bit word afterwards. `none` stands for a loop of
`malloc` that does not end.
-/

namespace OsShell.UserHeap

open FirstFit KernelHeap

def INTS : ℤ := 0x100000

/-- The static array is all zeros. -/
def heapInit (base : ℤ) : Heap :=
  let h : Heap := ⟨base, INTS, 0, fun _ => 0⟩
  makeTaken (makeAvail (makeTaken h 0 2) 2 (h.len - 4)) (h.len - 2) 2

/-- `((((long) p) - ((long) array)) / 4) - 1` -/
def index (h : Heap) (p : ℤ) : ℤ := ((p - h.base).bmod (2 ^ 32)).tdiv 4 - 1

def place (h : Heap) (ints : ℤ) : ℕ → ℤ → Option (Heap × ℤ)
  | 0, _ => none
  | fuel + 1, p =>
    if p = 0 then some (h, 0)
    else
      let sz := size h p
      if ints ≤ sz then some (carve h p sz ints, address h (p + 1))
      else place h ints fuel (next h p)

def malloc (h : Heap) (bytes : ℕ) : Option (Heap × ℤ) :=
  if bytes = 0 then some (h, h.base)
  else place h (intsFor bytes) (h.len.toNat + 1) h.avail

def free (h : Heap) (p : ℤ) : Heap :=
  if p = 0 then h
  else if p = h.base then h
  else
    let idx := index h p
    if isTaken h idx = false then h else coalesce h idx

/-- Byte `k` of a word. -/
def lane (w : ℤ) (k : ℕ) : ℤ := w / 256 ^ k % 256

def byteAt (h : Heap) (a : ℤ) : ℤ :=
  lane (h.array ((a - h.base) / 4)) ((a - h.base) % 4).toNat

def setByte (h : Heap) (a v : ℤ) : Heap :=
  let i := (a - h.base) / 4
  let k := ((a - h.base) % 4).toNat
  h.store i ((h.array i + (v - lane (h.array i) k) * 256 ^ k).bmod (2 ^ 32))

def copyBytes (h : Heap) (dest src : ℤ) : ℕ → Heap
  | 0 => h
  | n + 1 =>
    let h := copyBytes h dest src n
    setByte h (dest + n) (byteAt h (src + n))

/-- The loop ends at once for `n` from `2 ^ 31` on. -/
def memcpy (h : Heap) (dest src : ℤ) (n : ℕ) : Heap :=
  copyBytes h dest src (if n < 2 ^ 31 then n else 0)

def realloc (h : Heap) (p : ℤ) (newSize : ℕ) : Option (Heap × ℤ) :=
  if p = 0 then malloc h newSize
  else if newSize = 0 then some (free h p, 0)
  else
    let idx := index h p
    if isTaken h idx = false then some (h, 0)
    else
      let sz := size h idx * 4
      match malloc h newSize with
      | none => none
      | some (h, newPtr) =>
        let h :=
          if newPtr ≠ 0 then memcpy h newPtr p (if newSize > sz then sz.toNat else newSize) else h
        some (free h p, newPtr)

end OsShell.UserHeap
