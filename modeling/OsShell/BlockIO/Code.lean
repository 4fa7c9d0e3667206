import OsShell.Debug
import OsShell.Library.Bytes
import OsShell.Library.Outcome

/-!
# Devices that are read in blocks

`BlockIO::read` returns at most the rest of one block and `read_all` repeats it.
Counts and offsets are 32-bit words. A buffer is passed as its content and the
position where the pointer stands. `new char[..]` and an object on the stack
start with `junk`, whatever the memory held before. Whether the heap has room
for the temporary block is the heap's matter and not modelled here; a block that
has room there is far too short for the count of `memcpy`, a signed word, to be
taken for a negative one.
-/

namespace OsShell

open Bytes Stopping

structure BlockIO where
  blockSize : ℕ
  sizeInBytes : ℕ
  readBlock : ℕ → ℕ → Buffer → Except Halt Buffer

namespace BlockIO

def read (io : BlockIO) (junk : Buffer) (offset desired_n p : ℕ) (buffer : Buffer) :
    Except Halt (ℤ × Buffer) :=
  let sz := io.sizeInBytes
  if offset > sz then .ok (-1, buffer)
  else if offset = sz then .ok (0, buffer)
  else
    let n := min desired_n (sz - offset)
    let blockNumber := offset / io.blockSize
    let offsetInBlock := offset % io.blockSize
    let actual_n := min (io.blockSize - offsetInBlock) n
    do
      assert (actual_n ≤ n) "actual_n <= n"
      assert ((offset + actual_n) % 2 ^ 32 ≤ sz) "offset + actual_n <= sz"
      if actual_n = io.blockSize then
        assert (offsetInBlock = 0) "offset_in_block == 0"
        let buffer ← io.readBlock blockNumber p buffer
        return ((actual_n : ℤ), buffer)
      else
        assert ((offsetInBlock + actual_n) % 2 ^ 32 ≤ io.blockSize)
          "offset_in_block + actual_n <= block_size"
        let temp ← io.readBlock blockNumber 0 junk
        return ((actual_n : ℤ), put p actual_n (fun i => temp (offsetInBlock + i)) buffer)

/-- The loop of `read_all`, after `total` bytes. `n -= cnt` does not wrap around,
because `read` asserts that it returns at most `n`. -/
def readLoop (io : BlockIO) (junk : Buffer) (total : ℤ) (offset n p : ℕ) (buffer : Buffer) :
    Except Halt (ℤ × Buffer) :=
  if _ : n = 0 then .ok (total, buffer)
  else
    match io.read junk offset n p buffer with
    | .error e => .error e
    | .ok (cnt, buffer) =>
      if h₁ : cnt < 0 then .ok (cnt, buffer)
      else if h₂ : cnt = 0 then .ok (total, buffer)
      else io.readLoop junk (total + cnt) ((offset + cnt.toNat) % 2 ^ 32) (n - cnt.toNat)
        (p + cnt.toNat) buffer
termination_by n
decreasing_by omega

def readAll (io : BlockIO) (junk : Buffer) (offset n p : ℕ) (buffer : Buffer) :
    Except Halt (ℤ × Buffer) :=
  io.readLoop junk 0 offset n p buffer

/-- `read(offset, thing)`, where `thing` takes `size` bytes. -/
def readThing (io : BlockIO) (junk : Buffer) (offset size : ℕ) : Except Halt Buffer := do
  let (cnt, thing) ← io.readAll junk offset size 0 junk
  assert (cnt = size) "cnt == sizeof(T)"
  return thing

end BlockIO

end OsShell
