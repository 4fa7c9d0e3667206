import OsShell.Library.Runs
import OsShell.Process.Handles
import OsShell.Threads.Future

/-!
# Exit and wait

Any number of processes, each with one thread. A process forks children, waits
for them or closes their handles, and exits; between two accesses to a future
the others run. A future is named by the process whose `output` it is. What a
process does with its files and semaphores may be anything. The check of the
pointer that the system call makes before `wait` is not part of this.
-/

namespace OsShell.Processes

open Runs Futures PhysMem Vmm

abbrev Status := BitVec 32

inductive Pc (P : Type)
  | unborn
  | running
  /-- in `get`, called by `wait(id)` for the future of `q` -/
  | waiting (id : Id) (q : P) (stage : Getting)
  /-- `get` has returned to `wait` -/
  | storing (id : Id) (q : P) (v : Status)
  /-- in `set`, called by `exit`, and then in `stop` -/
  | exiting (stage : Setting Status)

structure World (F S P : Type) where
  proc : P → Process F S P
  future : P → Future P Status
  pc : P → Pc P

inductive Exchange (P : Type)
  | fork (p q : P) (id : ℤ)
  /-- `wait` returns, and has stored the status -/
  | wait (p : P) (id : Id) (r : ℤ) (stored : Option Status)
  | close (p : P) (id : Id) (r : ℤ)
  | exit (p : P) (v : Status)
  | ready (p : P)
  | step (p : P)

def setting {P : Type} (p : P) : Setting Status → Exchange P
  | .readying _ => .ready p
  | _ => .step p

variable {F S P : Type}

/-- Processes that run from the start have no children. -/
structure Begin (w : World F S P) : Prop where
  pc : ∀ p, w.pc p = .running ∨ w.pc p = .unborn
  output : ∀ p, w.pc p = .running → (w.proc p).output = p
  children : ∀ p i, (w.proc p).children i = none
  future : ∀ p, w.future p = .new 0

variable [DecidableEq P]

def wakeUp (pc : P → Pc P) : Option P → P → Pc P
  | none => pc
  | some u => Function.update pc u <|
    match pc u with
    | .waiting id q _ => .waiting id q .upping
    | other => other

inductive Move : World F S P → Exchange P → World F S P → Prop
  | fork {w : World F S P} {p q : P} {c : Config} {shared : ℕ} {m : Machine}
      {r : Forked F S P} {child : Process F S P} (hpc : w.pc p = .running) (hnew : w.pc q = .unborn)
      (hcall : fork c shared q (w.proc p) m = .ok r) (hchild : r.child = some child) :
    Move w (.fork p q r.id)
      { proc := Function.update (Function.update w.proc p r.parent) q child
        future := Function.update w.future q (.new 0)
        pc := Function.update w.pc q .running }
  | forkFails {w : World F S P} {p q : P} {c : Config} {shared : ℕ} {m : Machine}
      {r : Forked F S P} (hpc : w.pc p = .running)
      (hcall : fork c shared q (w.proc p) m = .ok r) (hchild : r.child = none) :
    Move w (.step p) { w with proc := Function.update w.proc p r.parent }
  | wait {w : World F S P} {p q : P} {id : Id} (hpc : w.pc p = .running)
      (hcall : ((w.proc p).wait id).2.1 = some q) :
    Move w (.step p) { w with pc := Function.update w.pc p (.waiting id q .testing) }
  | waitFails {w : World F S P} {p : P} {id : Id} (hpc : w.pc p = .running)
      (hcall : ((w.proc p).wait id).2.1 = none) :
    Move w (.wait p id ((w.proc p).wait id).1 none)
      { w with proc := Function.update w.proc p ((w.proc p).wait id).2.2 }
  | get {w : World F S P} {p q : P} {id : Id} {stage stage' : Getting} {f : Future P Status}
      {woken : Option P} (hpc : w.pc p = .waiting id q stage)
      (hget : (w.future q).get p stage = some (f, woken, stage')) :
    Move w (.step p)
      { w with
        future := Function.update w.future q f
        pc := wakeUp (Function.update w.pc p (.waiting id q stage')) woken }
  | gets {w : World F S P} {p q : P} {id : Id} (hpc : w.pc p = .waiting id q .reading) :
    Move w (.step p) { w with pc := Function.update w.pc p (.storing id q (w.future q).t) }
  | waits {w : World F S P} {p q : P} {id : Id} {v : Status} (hpc : w.pc p = .storing id q v) :
    Move w (.wait p id ((w.proc p).wait id).1 (some v))
      { w with
        proc := Function.update w.proc p ((w.proc p).wait id).2.2
        pc := Function.update w.pc p .running }
  | close {w : World F S P} {p : P} {id : Id} (hpc : w.pc p = .running) :
    Move w (.close p id ((w.proc p).close id).1)
      { w with proc := Function.update w.proc p ((w.proc p).close id).2 }
  | tables {w : World F S P} {p : P} {files : Fin 10 → Option F} {sems : Fin 10 → Option S}
      (hpc : w.pc p = .running) :
    Move w (.step p) { w with proc := Function.update w.proc p { w.proc p with files, sems } }
  | exit {w : World F S P} {p : P} {v : Status} (hpc : w.pc p = .running) :
    Move w (.exit p v) { w with pc := Function.update w.pc p (.exiting (.asserting v)) }
  /-- At a kernel address; the store of `wait` may fault as well. -/
  | pageFault {w : World F S P} {p : P}
      (hpc : w.pc p = .running ∨ ∃ id q v, w.pc p = .storing id q v) :
    Move w (.exit p 1) { w with pc := Function.update w.pc p (.exiting (.asserting 1)) }
  | set {w : World F S P} {p : P} {stage stage' : Setting Status} {f : Future P Status}
      {woken : Option P} (hpc : w.pc p = .exiting stage)
      (hset : (w.future (w.proc p).output).set stage = some (f, woken, stage')) :
    Move w (setting p stage)
      { w with
        future := Function.update w.future (w.proc p).output f
        pc := wakeUp (Function.update w.pc p (.exiting stage')) woken }

end OsShell.Processes
