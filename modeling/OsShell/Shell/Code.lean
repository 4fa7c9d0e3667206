import OsShell.Pipe.Fifo
import OsShell.Process.Handles

/-!
# A two-command line of the shell

The shell runs one process at a time: it makes the pipe, forks the first child
and waits for it, then forks the second and waits again. So the calls on the
pipe follow each other and each finds `lock` free. A computation is given the
number of rounds its loops may take; `none` means that it has not come to an end
within them, or waits for good. The forks and the `exec` that follows each are
taken to succeed, and buffers to lie in user memory, below the end of the
address space.
-/

namespace OsShell.Shell

open Pipes Processes Sections

/-- The object that `pipe()` makes: between calls `lock` has its token. -/
structure Pipe where
  ring : Ring
  tokens : Side → ℕ

def Pipe.new (buffer : ℕ → UInt8) : Pipe :=
  ⟨.new buffer, Pipes.tokens⟩

/-- A call with nobody else at the pipe. -/
def Pipe.call (pipe : Pipe) (c : Call) : Option (Result × Pipe) :=
  ((body c).alone pipe.ring pipe.tokens).map fun (r, ring, tokens) => (r, ⟨ring, tokens⟩)

/-- `PipeFile(pipe, 0)`, `PipeFile(pipe, 1)`, and the console, where the next key is given. -/
inductive File
  | reader
  | writer
  | console (key : UInt8)

/-- A `size_t` that is passed as an `int`. -/
def toInt (n : ℕ) : ℤ := (n : ℤ).bmod (2 ^ 32)

def File.read (file : File) (n : ℕ) (pipe : Pipe) : Option (ℤ × List UInt8 × Pipe) :=
  match file with
  | .reader => (pipe.call (.read (toInt n))).map fun (r, pipe) => (r.count, r.data, pipe)
  | .writer => some (-1, [], pipe)
  | .console key => if n = 0 then some (0, [], pipe) else some (1, [key], pipe)

def File.write (file : File) (data : List UInt8) (pipe : Pipe) : Option (ℤ × Pipe) :=
  match file with
  | .reader => some (-1, pipe)
  | .writer =>
    (pipe.call (.write (fun i => data.getD i 0) (toInt data.length))).map fun (r, pipe) =>
      (r.count, pipe)
  | .console _ => if data.length = 0 then some (0, pipe) else some (1, pipe)

abbrev Proc := Process File Unit Unit

/-- System call 12. -/
def read (p : Proc) (fd : Id) (n : ℕ) (pipe : Pipe) : Option (ℤ × List UInt8 × Pipe) :=
  if fd = 1 then some (-1, [], pipe)
  else
    match p.getFile fd with
    | none => some (-1, [], pipe)
    | some file => file.read n pipe

/-- System call 1. -/
def write (p : Proc) (fd : Id) (data : List UInt8) (pipe : Pipe) : Option (ℤ × Pipe) :=
  match p.getFile fd with
  | none => some (-1, pipe)
  | some file => file.write data pipe

def putchar (p : Proc) (c : UInt8) (pipe : Pipe) : Option (ℤ × Pipe) :=
  write p 1 [c] pipe

/-- `while (n > 0) { m = write(to, ptr, n); .. }`, where `rest` is what `ptr` and `n` are left with.
The text printed when a write fails is left out. -/
def cpWrite (p : Proc) (target : Id) : ℕ → List UInt8 → Pipe → Option Pipe
  | _, [], pipe => some pipe
  | 0, _ :: _, _ => none
  | fuel + 1, c :: rest, pipe => do
    let (m, pipe) ← write p target (c :: rest) pipe
    if m < 0 then some pipe
    else cpWrite p target fuel ((c :: rest).drop m.toNat) pipe

/-- What one `read(from, buf, 100)` of `cp` returns, when it is not the last. -/
structure Chunk where
  data : List UInt8
  pos : 0 < data.length
  le : data.length ≤ 100

/-- `cp(from, to)`, where the reads return the chunks and then 0. -/
def cp (p : Proc) (target : Id) (fuel : ℕ) : List Chunk → Pipe → Option Pipe
  | [], pipe => some pipe
  | chunk :: chunks, pipe => do
    let pipe ← cpWrite p target fuel chunk.data pipe
    cp p target fuel chunks pipe

/-- What the first command does to write: `printf` comes down to `putchar`. -/
inductive Output
  | putchar (c : UInt8)
  | cp (chunks : List Chunk)

def Output.bytes : Output → List UInt8
  | .putchar c => [c]
  | .cp chunks => chunks.flatMap Chunk.data

def Output.run (p : Proc) (fuel : ℕ) (pipe : Pipe) : Output → Option Pipe
  | .putchar c => (Shell.putchar p c pipe).map Prod.snd
  | .cp chunks => Shell.cp p 1 fuel chunks pipe

def produce (p : Proc) (fuel : ℕ) (outputs : List Output) (pipe : Pipe) : Option Pipe :=
  outputs.foldlM (Output.run p fuel) pipe

/-- A size that a reader asks for: positive, and no larger than the user's half of memory. -/
structure Size where
  n : ℕ
  pos : 0 < n
  lt : n < 2 ^ 31

/-- The second command reads until a read returns 0; a failed read ends it without a result. -/
def consume (p : Proc) (size : ℕ → Size) : ℕ → ℕ → List UInt8 → Pipe → Option (List UInt8)
  | 0, _, _, _ => none
  | fuel + 1, i, seen, pipe => do
    let (n, data, pipe) ← read p 0 (size i).n pipe
    if n < 0 then none
    else if n = 0 then some seen
    else consume p size fuel (i + 1) (seen ++ data) pipe

/-- `fork`: the child's descriptors are the parent's. -/
def child (p : Proc) : Proc :=
  { p with children := fun _ => none }

def makePipe (p : Proc) : Option (Id × Id × Proc) :=
  let (readFd, p) := p.setFile .reader
  let (writeFd, p) := p.setFile .writer
  if readFd < 0 ∨ writeFd < 0 then none
  else some (.ofInt 32 readFd, .ofInt 32 writeFd, p)

/-- `close(target); dup2(fd, target); close(fd)` -/
def redirect (p : Proc) (fd target : Id) : Proc :=
  let p := (p.close target).2
  let p := (p.dup2 fd target).2
  (p.close fd).2

/-- What the second command reads. -/
def pipeline (shell : Proc) (buffer : ℕ → UInt8) (outputs : List Output) (size : ℕ → Size)
    (fuel : ℕ) : Option (List UInt8) := do
  let (readFd, writeFd, shell) ← makePipe shell
  let pipe ← produce (redirect (child shell) writeFd 1) fuel outputs (.new buffer)
  consume (redirect (child shell) readFd 0) size fuel 0 [] pipe

end OsShell.Shell
