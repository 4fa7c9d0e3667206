import OsShell.Library.CountingSemaphore
import OsShell.Library.Runs
import OsShell.Threads.Queue

/-!
# The semaphore

One semaphore, the ready queue and any number of threads. A section of `down`
or `up` between `lock.lock()` and `lock.unlock()` is one step; only `down` keeps
the lock beyond it, when it blocks: `lock` is then released by the action that
`block` runs on the stack of another thread. Between steps threads are preempted
and dispatched at any time, through links that both queues share. Left out: the
interrupt flags that `down` and `up` restore, and how a core spins for `lock`.
`count` is 64 bits wide and never above what it started with and the `up` calls
have added, so it does not wrap.
-/

namespace OsShell.Threads

open Runs Tokens

variable {T : Type*} [DecidableEq T]

/-- Where a thread is. One that runs or is ready may still owe a `schedule(next)`, when it
has left the section of `up` and not yet the call. -/
inductive Pc (T : Type*)
  | running (owes : Option T)
  | ready (owes : Option T)
  /-- in `block`, called by `down`: the action has not run, `lock` is held -/
  | blocking
  | waiting
  /-- taken off the queue by an `up` that has not scheduled it yet -/
  | removed
deriving DecidableEq

structure State (T : Type*) where
  count : ℕ
  lock : Option T
  waiting : Queue T
  readyQ : Queue T
  next : T → Option T
  pc : T → Pc T

namespace State

/-- The section of `down` when `count > 0`. -/
def take (s : State T) : State T :=
  { s with count := s.count - 1 }

/-- `down` calls `block` and goes to another thread with the lock held. -/
def block (s : State T) (t : T) : State T :=
  { s with lock := some t, pc := Function.update s.pc t .blocking }

/-- The action: `waiting.add(me); lock.unlock(true)`. -/
def enqueue (s : State T) (t : T) : Option (State T) :=
  (s.waiting.add s.next t).map fun (waiting, next) =>
    { s with waiting, next, lock := none, pc := Function.update s.pc t .waiting }

/-- The section of `up`, and the thread it removed. -/
def up (s : State T) (t : T) : State T × Option T :=
  let (waiting, next) := s.waiting.remove s.next
  let s := { s with waiting, pc := Function.update s.pc t (.running next) }
  match next with
  | none => ({ s with count := s.count + 1 }, none)
  | some u => ({ s with pc := Function.update s.pc u .removed }, some u)

/-- `schedule(next)`; idle threads are never queued. -/
def schedule (idle : T → Prop) [DecidablePred idle] (s : State T) (t u : T) : Option (State T) :=
  (if idle u then some (s.readyQ, s.next) else s.readyQ.add s.next u).map fun (readyQ, next) =>
    { s with
      readyQ, next
      pc := Function.update (Function.update s.pc t (.running none)) u (.ready none) }

/-- `yield` of a thread that may owe a call of `schedule`. -/
def preempt (s : State T) (t : T) (owes : Option T) : Option (State T) :=
  (s.readyQ.add s.next t).map fun (readyQ, next) =>
    { s with readyQ, next, pc := Function.update s.pc t (.ready owes) }

def dispatch (s : State T) (t : T) (owes : Option T) : State T :=
  { s with readyQ := (s.readyQ.remove s.next).1, pc := Function.update s.pc t (.running owes) }

variable {s s' : State T} {t u : T}

theorem enqueue_count (h : s.enqueue t = some s') : s'.count = s.count := by
  obtain ⟨_, -, rfl⟩ := Option.map_eq_some_iff.mp h
  rfl

theorem schedule_count {idle : T → Prop} [DecidablePred idle] (h : s.schedule idle t u = some s') :
    s'.count = s.count := by
  obtain ⟨_, -, rfl⟩ := Option.map_eq_some_iff.mp h
  rfl

theorem preempt_count {owes : Option T} (h : s.preempt t owes = some s') : s'.count = s.count := by
  obtain ⟨_, -, rfl⟩ := Option.map_eq_some_iff.mp h
  rfl

end State

inductive Event (T : Type*)
  | take (t : T)
  | block (t : T)
  | enqueue (t : T)
  | up (t : T) (next : Option T)
  | schedule (t next : T)
  | preempt (t : T)
  | dispatch (t : T)

variable {idle : T → Prop} [DecidablePred idle]

inductive Init (k : ℕ) : State T → Prop
  | start {s : State T} (hcount : s.count = k) (hlock : s.lock = none)
      (hwaiting : s.waiting = {}) (hready : s.readyQ = {}) (hpc : ∀ t, s.pc t = .running none) :
      Init k s

inductive Step (idle : T → Prop) [DecidablePred idle] : State T → Event T → State T → Prop
  | take {s : State T} {t : T} (hpc : s.pc t = .running none) (hlock : s.lock = none)
      (hcount : 0 < s.count) : Step idle s (.take t) s.take
  | block {s : State T} {t : T} (hpc : s.pc t = .running none) (hlock : s.lock = none)
      (hcount : s.count = 0) : Step idle s (.block t) (s.block t)
  | enqueue {s s' : State T} {t : T} (hpc : s.pc t = .blocking) (hidle : ¬ idle t)
      (hcall : s.enqueue t = some s') : Step idle s (.enqueue t) s'
  | up {s : State T} {t : T} (hpc : s.pc t = .running none) (hlock : s.lock = none) :
      Step idle s (.up t (s.up t).2) (s.up t).1
  | schedule {s s' : State T} {t u : T} (hpc : s.pc t = .running (some u))
      (hcall : s.schedule idle t u = some s') : Step idle s (.schedule t u) s'
  | preempt {s s' : State T} {t : T} {owes : Option T} (hpc : s.pc t = .running owes)
      (hidle : ¬ idle t) (hcall : s.preempt t owes = some s') : Step idle s (.preempt t) s'
  | dispatch {s : State T} {t : T} {owes : Option T} (hpc : s.pc t = .ready owes)
      (hfirst : (s.readyQ.remove s.next).2 = some t) :
      Step idle s (.dispatch t) (s.dispatch t owes)

end OsShell.Threads
