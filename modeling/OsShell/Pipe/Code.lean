import OsShell.Library.Sections

/-!
# The pipe

`write` and `read` take `lock`, move bytes one at a time and release it. The
bodies between the two are programs over the ring and the semaphores `read_sem`
and `write_sem`; a `read` also returns the bytes it has put into `data`.
-/

namespace OsShell.Pipes

open Sections

def MAX_BUFFER_SIZE : ℤ := 1024

inductive Side
  | readSem
  | writeSem
deriving DecidableEq

structure Ring where
  buffer : ℕ → UInt8
  readIndex : ℕ
  writeIndex : ℕ
  count : ℤ

/-- `Pipe()`; the buffer holds whatever the memory held. -/
def Ring.new (buffer : ℕ → UInt8) : Ring :=
  ⟨buffer, 0, 0, 0⟩

def tokens : Side → ℕ
  | .readSem => 0
  | .writeSem => MAX_BUFFER_SIZE.toNat

structure Result where
  count : ℤ
  data : List UInt8
deriving DecidableEq

inductive Call
  | write (data : ℕ → UInt8) (size : ℤ)
  | read (size : ℤ)

def Ring.store (c : UInt8) (pipe : Ring) : Ring :=
  { pipe with
    buffer := Function.update pipe.buffer pipe.writeIndex c
    count := pipe.count + 1
    writeIndex := (pipe.writeIndex + 1) % MAX_BUFFER_SIZE.toNat }

def Ring.load (pipe : Ring) : Ring :=
  { pipe with
    count := pipe.count - 1
    readIndex := (pipe.readIndex + 1) % MAX_BUFFER_SIZE.toNat }

/-- The loop of `write` from `i` on; `n` rounds are left until `i` reaches `size`. -/
def writeLoop (data : ℕ → UInt8) : ℕ → ℕ → ℤ → Prog Side Ring Result
  | 0, _, bytes_written => .ret ⟨bytes_written, []⟩
  | n + 1, i, bytes_written =>
    .act id fun pipe =>
      if pipe.count < MAX_BUFFER_SIZE then
        .down .writeSem <| .act (Ring.store (data i)) fun _ =>
          .up .readSem <| writeLoop data n (i + 1) (bytes_written + 1)
      else .ret ⟨bytes_written, []⟩

/-- The loop of `read`, with the bytes of `data` so far. -/
def readLoop : ℕ → ℤ → List UInt8 → Prog Side Ring Result
  | 0, bytes_read, data => .ret ⟨bytes_read, data⟩
  | n + 1, bytes_read, data =>
    .act id fun pipe =>
      if pipe.count > 0 then
        .down .readSem <| .act Ring.load fun pipe =>
          .up .writeSem <| readLoop n (bytes_read + 1) (data ++ [pipe.buffer pipe.readIndex])
      else .ret ⟨bytes_read, data⟩

/-- What runs between `lock->down()` and `lock->up()`. -/
def body : Call → Prog Side Ring Result
  | .write data size => writeLoop data size.toNat 0 0
  | .read size => readLoop size.toNat 0 []

end OsShell.Pipes
