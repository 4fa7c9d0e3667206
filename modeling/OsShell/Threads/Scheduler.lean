import OsShell.Library.Runs
import OsShell.Threads.Queue

/-!
# The scheduler

Any number of cores `K`, of threads `U` and of semaphores `X`. The parts of
`block` are steps of their own, with the other cores running in between: taking
the next thread off `readyQ`, installing it in `activeThreads`, the switch, and
the action for the thread switched away from. So are the two halves of `up`,
of `delete_zombies` and of the creation of a thread: in between, the thread is
known only to the call, which may be preempted there. The timer interrupt comes
wherever interrupts are on, in the middle of `block` as well. An address that a
deleted thread has left may be used for a new one. Left out: what a thread does
with a semaphore's token, and how a core spins for a lock.
-/

namespace OsShell.Scheduler

open Runs Threads

inductive Tcb (K U : Type*)
  | idle (core : K)
  | user (id : U)
deriving DecidableEq

def Tcb.isIdle {K U : Type*} : Tcb K U → Bool
  | .idle _ => true
  | .user _ => false

inductive Action (X : Type*)
  /-- of `yield` -/
  | schedule
  /-- of `stop` -/
  | zombie
  /-- of `down` on the semaphore -/
  | wait (x : X)

inductive BlockOption
  | mustBlock
  | canReturn

inductive Phase (K U X : Type*)
  | running
  /-- about to look into `readyQ` -/
  | blocking (option : BlockOption) (action : Action X)
  | taken (next : Tcb K U) (action : Action X)
  /-- `activeThreads` is written, and `me` is still on the core -/
  | installed (me : Tcb K U) (action : Action X)
  /-- on the stack of the next thread, interrupts off, before the action -/
  | switched (me : Tcb K U) (action : Action X)

inductive Duty
  | schedule
  | delete

structure State (K U X : Type*) where
  activeThreads : K → Tcb K U
  phase : K → Phase K U X
  readyQ : Queue (Tcb K U)
  zombies : Queue (Tcb K U)
  waiting : X → Queue (Tcb K U)
  next : Tcb K U → Option (Tcb K U)
  no_preempt : Tcb K U → Bool
  count : X → ℕ
  locked : X → Bool
  /-- the thread that a call of this thread has taken from where it was -/
  hand : Tcb K U → Option (Duty × Tcb K U)
  live : U → Bool

variable {K U X : Type*} [DecidableEq K] [DecidableEq U] [DecidableEq X]

namespace State

/-- The start of `block`, in `Interrupts::protect`. -/
def block (s : State K U X) (k : K) (option : BlockOption) (action : Action X) : State K U X :=
  { s with
    no_preempt := Function.update s.no_preempt (s.activeThreads k) true
    phase := Function.update s.phase k (.blocking option action) }

/-- `readyQ.remove()` and what follows from it. -/
def take (s : State K U X) (k : K) (option : BlockOption) (action : Action X) : State K U X :=
  let (readyQ, next_tcb) := s.readyQ.remove s.next
  let goto (phase : Phase K U X) : State K U X :=
    { s with readyQ, phase := Function.update s.phase k phase }
  match next_tcb with
  | some next_tcb => goto (.taken next_tcb action)
  | none =>
    match option with
    | .canReturn => goto .running
    | .mustBlock =>
      -- an idle thread goes back to `again`
      if (s.activeThreads k).isIdle then goto (.blocking .mustBlock action)
      else goto (.taken (.idle k) action)

def install (s : State K U X) (k : K) (next_tcb : Tcb K U) (action : Action X) : State K U X :=
  { s with
    no_preempt := Function.update s.no_preempt next_tcb true
    activeThreads := Function.update s.activeThreads k next_tcb
    phase := Function.update s.phase k (.installed (s.activeThreads k) action) }

def contextSwitch (s : State K U X) (k : K) (me : Tcb K U) (action : Action X) : State K U X :=
  { s with
    no_preempt :=
      Function.update (Function.update s.no_preempt me false) (s.activeThreads k) false
    phase := Function.update s.phase k (.switched me action) }

/-- `none` is an assertion that fails, or a write through a null `last`. -/
def schedule (s : State K U X) (tcb : Tcb K U) : Option (State K U X) :=
  if tcb.isIdle then some s
  else (s.readyQ.add s.next tcb).map fun (readyQ, next) => { s with readyQ, next }

def runAction (s : State K U X) (me : Tcb K U) : Action X → Option (State K U X)
  | .schedule => s.schedule me
  | .zombie =>
    if me.isIdle then some s
    else (s.zombies.add s.next me).map fun (zombies, next) => { s with zombies, next }
  | .wait x =>
    if me.isIdle then none
    else ((s.waiting x).add s.next me).map fun (q, next) =>
      { s with
        next
        waiting := Function.update s.waiting x q
        locked := Function.update s.locked x false }

/-- The end of `block`, in the thread that was switched to. -/
def finish (s : State K U X) (k : K) : State K U X :=
  { s with phase := Function.update s.phase k .running }

def down (s : State K U X) (k : K) (x : X) : State K U X :=
  if 0 < s.count x then { s with count := Function.update s.count x (s.count x - 1) }
  else { s with locked := Function.update s.locked x true }.block k .mustBlock (.wait x)

def grasp (s : State K U X) (k : K) (duty : Duty) (tcb : Tcb K U) : State K U X :=
  { s with hand := Function.update s.hand (s.activeThreads k) (some (duty, tcb)) }

def release (s : State K U X) (k : K) : State K U X :=
  { s with hand := Function.update s.hand (s.activeThreads k) none }

def up (s : State K U X) (k : K) (x : X) : State K U X :=
  let (q, next) := (s.waiting x).remove s.next
  let s := { s with waiting := Function.update s.waiting x q }
  match next with
  | none => { s with count := Function.update s.count x (s.count x + 1) }
  | some next => s.grasp k .schedule next

def create (s : State K U X) (k : K) (u : U) : State K U X :=
  { s with
    live := Function.update s.live u true
    no_preempt := Function.update s.no_preempt (.user u) false }.grasp k .schedule (.user u)

def reap (s : State K U X) (k : K) : State K U X :=
  let (zombies, it) := s.zombies.remove s.next
  match it with
  | none => { s with zombies }
  | some it => { s with zombies }.grasp k .delete it

def delete (s : State K U X) (k : K) : Tcb K U → State K U X
  | .idle _ => s.release k
  | .user u => { s with live := Function.update s.live u false }.release k

/-- `apitHandler` on a core that runs the thread, and the `yield` it calls. -/
def apitHandler (s : State K U X) (k : K) : State K U X :=
  if (s.activeThreads k).isIdle || s.no_preempt (s.activeThreads k) then s
  else s.block k .canReturn .schedule

end State

inductive Event (K U X : Type*)
  | yield (k : K)
  | stop (k : K)
  | timer (k : K)
  | take (k : K)
  | install (k : K)
  | contextSwitch (k : K)
  | finish (k : K)
  | down (k : K) (x : X)
  | up (k : K) (x : X)
  | create (k : K) (u : U)
  | reap (k : K)
  | schedule (k : K)
  | delete (k : K)

structure Init (s : State K U X) : Prop where
  activeThreads : ∀ k, s.activeThreads k = .idle k
  phase : ∀ k, s.phase k = .running
  readyQ : s.readyQ = {}
  zombies : s.zombies = {}
  waiting : ∀ x, s.waiting x = {}
  locked : ∀ x, s.locked x = false
  hand : ∀ t, s.hand t = none
  live : ∀ u, s.live u = false

structure Free (s : State K U X) (k : K) : Prop where
  phase : s.phase k = .running
  hand : s.hand (s.activeThreads k) = none

open State

inductive Step : State K U X → Event K U X → State K U X → Prop
  | yield {s : State K U X} {k : K} (hfree : Free s k) :
    Step s (.yield k) (s.block k .canReturn .schedule)
  | stop {s : State K U X} {k : K} (hfree : Free s k) :
    Step s (.stop k) (s.block k .mustBlock .zombie)
  /-- Interrupts are off between the switch and the end of the action. -/
  | timer {s : State K U X} {k : K} (hphase : ∀ me action, s.phase k ≠ .switched me action) :
    Step s (.timer k) (s.apitHandler k)
  | take {s : State K U X} {k : K} {option : BlockOption} {action : Action X}
      (hphase : s.phase k = .blocking option action) :
    Step s (.take k) (s.take k option action)
  | install {s : State K U X} {k : K} {next_tcb : Tcb K U} {action : Action X}
      (hphase : s.phase k = .taken next_tcb action) :
    Step s (.install k) (s.install k next_tcb action)
  | contextSwitch {s : State K U X} {k : K} {me : Tcb K U} {action : Action X}
      (hphase : s.phase k = .installed me action) :
    Step s (.contextSwitch k) (s.contextSwitch k me action)
  | finish {s s' : State K U X} {k : K} {me : Tcb K U} {action : Action X}
      (hphase : s.phase k = .switched me action) (haction : s.runAction me action = some s') :
    Step s (.finish k) (s'.finish k)
  | down {s : State K U X} {k : K} {x : X} (hfree : Free s k) (hlocked : s.locked x = false) :
    Step s (.down k x) (s.down k x)
  | up {s : State K U X} {k : K} {x : X} (hfree : Free s k) (hlocked : s.locked x = false) :
    Step s (.up k x) (s.up k x)
  | create {s : State K U X} {k : K} {u : U} (hfree : Free s k) (hlive : s.live u = false) :
    Step s (.create k u) (s.create k u)
  | reap {s : State K U X} {k : K} (hfree : Free s k) : Step s (.reap k) (s.reap k)
  | schedule {s s' : State K U X} {k : K} {tcb : Tcb K U} (hphase : s.phase k = .running)
      (hhand : s.hand (s.activeThreads k) = some (.schedule, tcb))
      (hcall : s.schedule tcb = some s') : Step s (.schedule k) (s'.release k)
  | delete {s : State K U X} {k : K} {tcb : Tcb K U} (hphase : s.phase k = .running)
      (hhand : s.hand (s.activeThreads k) = some (.delete, tcb)) :
    Step s (.delete k) (s.delete k tcb)

end OsShell.Scheduler
