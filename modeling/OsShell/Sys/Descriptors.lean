import OsShell.Debug
import OsShell.Process.Tables

/-!
# System calls that take an id

Nine system calls look an object up and call a method of it. What the methods do
is left open: they act on a world, which has the offsets of the files, the counts
of the semaphores, the exit values and the memory. A method call on no object is
a fault of its own.
-/

namespace OsShell.Sys

open Processes

variable {F S U W : Type}

inductive Fault
  | nullDereference
  | halt (h : Halt)

structure Methods (F S U W : Type) where
  size : F → W → ℤ
  seek : F → Id → W → Except Fault (ℤ × W)
  read : F → Id → Id → W → Except Fault (ℤ × W)
  write : F → Id → Id → W → Except Fault (ℤ × W)
  up : S → W → Except Fault W
  down : S → W → Except Fault W
  get : U → W → Except Fault (Id × W)
  store : Id → Id → W → W

structure State (F S U W : Type) where
  process : Process F S U
  world : W

inductive Call
  | write
  | up
  | down
  | close
  | wait
  | len
  | read
  | seek
  | readdir
deriving DecidableEq

/-- The number in `eax`. -/
def Call.number : Call → ℕ
  | .write => 1
  | .up => 4
  | .down => 5
  | .close => 6
  | .wait => 8
  | .len => 11
  | .read => 12
  | .seek => 13
  | .readdir => 16

def refused (address : Id) : Prop :=
  address < 0x80000000 ∨ address = 0xFEC00000 ∨ address = 0xFEE00000

instance (address : Id) : Decidable (refused address) := by
  unfold refused
  infer_instance

section Handlers

variable (m : Methods F S U W) (userEsp : ℕ → Id) (s : State F S U W)

def sysWrite : Except Fault (ℤ × State F S U W) :=
  if refused (userEsp 2) then .ok (-1, s)
  else
    match s.process.getFile (userEsp 1) with
    | none => .ok (-1, s)
    | some file => do
      let (n, world) ← m.write file (userEsp 2) (userEsp 3) s.world
      return (n, { s with world })

/-- `up` and `down`, which look the semaphore up again when they are done. -/
def sysSemaphore (act : S → W → Except Fault W) : Except Fault (ℤ × State F S U W) :=
  match s.process.getSemaphore (userEsp 1) with
  | none => .ok (-1, s)
  | some sem => do
    let world ← act sem s.world
    let s := { s with world }
    return (if (s.process.getSemaphore (userEsp 1)).isNone then -1 else 0, s)

def sysClose : Except Fault (ℤ × State F S U W) :=
  let (r, process) := s.process.close (userEsp 1)
  .ok (r, { s with process })

def sysWait : Except Fault (ℤ × State F S U W) :=
  if userEsp 2 < 0x80000000 then .ok (-1, s)
  else
    match s.process.wait (userEsp 1) with
    | (r, none, _) => .ok (r, s)
    | (r, some e, process) => do
      let (value, world) ← m.get e s.world
      return (r, ⟨process, m.store (userEsp 2) value world⟩)

def sysLen : Except Fault (ℤ × State F S U W) :=
  match s.process.getFile (userEsp 1) with
  | some file => .ok (m.size file s.world, s)
  | none => .ok (-1, s)

def sysRead : Except Fault (ℤ × State F S U W) :=
  if refused (userEsp 2) then .ok (-1, s)
  else if userEsp 1 = 1 then .ok (-1, s)
  else
    match s.process.getFile (userEsp 1) with
    | some fd => do
      let (bytesRead, world) ← m.read fd (userEsp 2) (userEsp 3) s.world
      return (bytesRead, { s with world })
    | none => .ok (-1, s)

def sysSeek : Except Fault (ℤ × State F S U W) :=
  if userEsp 1 = 1 then .ok (-1, s)
  else
    match s.process.getFile (userEsp 1) with
    | some fd => do
      let (r, world) ← m.seek fd (userEsp 2) s.world
      return (r, { s with world })
    | none => .error .nullDereference

def sysReaddir : Except Fault (ℤ × State F S U W) :=
  match s.process.getFile (userEsp 1) with
  | some fd => do
    let (_, world) ← m.seek fd (userEsp 3) s.world
    let (bytes, world) ← m.read fd (userEsp 2) 1024 world
    return (if bytes > 0 then (userEsp 2).toInt else 0, { s with world })
  | none => .error .nullDereference

def sysHandler : Call → Except Fault (ℤ × State F S U W)
  | .write => sysWrite m userEsp s
  | .up => sysSemaphore userEsp s m.up
  | .down => sysSemaphore userEsp s m.down
  | .close => sysClose userEsp s
  | .wait => sysWait m userEsp s
  | .len => sysLen m userEsp s
  | .read => sysRead m userEsp s
  | .seek => sysSeek m userEsp s
  | .readdir => sysReaddir m userEsp s

end Handlers

def Call.Unbound (p : Process F S U) (id : Id) : Call → Prop
  | .up | .down => (lookup p id).bind Obj.sem? = none
  | .close => lookup p id = none
  | .wait => (lookup p id).bind Obj.child? = none
  | .write | .len | .read | .seek | .readdir => (lookup p id).bind Obj.file? = none

def Refused (m : Methods F S U W) (userEsp : ℕ → Id) (s : State F S U W) (call : Call) : Prop :=
  ∃ r, sysHandler m userEsp s call = .ok (r, s) ∧ r < 0

section Unbound

variable {p : Process F S U} {id : Id}

theorem getFile_eq_none (h : (lookup p id).bind Obj.file? = none) : p.getFile id = none :=
  (getFile_eq p id).trans h

theorem getSemaphore_eq_none (h : (lookup p id).bind Obj.sem? = none) :
    p.getSemaphore id = none :=
  (getSemaphore_eq p id).trans h

theorem lookup_eq_none {k : Kind} {i : Fin 10} (hid : id = handle k i) (h : lookup p id = none) :
    p.slot k i = none := by
  rwa [hid, lookup_handle] at h

theorem close_unbound (h : lookup p id = none) : p.close id = (-1, p) := by
  unfold Process.close
  cases hsem : getSemaphoreIndex id with
  | some i =>
    have hslot := lookup_eq_none (getSemaphoreIndex_eq_some.mp hsem) h
    have hnone : p.sems i = none := by simpa [Process.slot] using hslot
    simp [hnone]
  | none =>
    cases hchild : getChildIndex id with
    | some i =>
      have hslot := lookup_eq_none (getChildIndex_eq_some.mp hchild) h
      have hnone : p.children i = none := by simpa [Process.slot] using hslot
      simp [hnone]
    | none =>
      cases hfile : getFileIndex id with
      | some i =>
        have hslot := lookup_eq_none (getFileIndex_eq_some.mp hfile) h
        have hnone : p.files i = none := by simpa [Process.slot] using hslot
        simp [hnone]
      | none => rfl

theorem wait_unbound (h : (lookup p id).bind Obj.child? = none) :
    ∃ p', p.wait id = (-1, none, p') := by
  obtain ⟨hr, he, -⟩ := wait_eq p id
  rw [h] at hr he
  exact ⟨(p.wait id).2.2, Prod.ext hr (Prod.ext he rfl)⟩

end Unbound

variable {m : Methods F S U W} {userEsp : ℕ → Id} {s : State F S U W}

theorem refused_of_ok {call : Call} (h : sysHandler m userEsp s call = .ok (-1, s)) :
    Refused m userEsp s call :=
  ⟨-1, h, by decide⟩

theorem not_refused_of_fault {call : Call} {e : Fault}
    (h : sysHandler m userEsp s call = .error e) : ¬ Refused m userEsp s call := by
  rintro ⟨r, hr, -⟩
  rw [h] at hr
  nomatch hr

theorem unbound_refused_iff (m : Methods F S U W) (userEsp : ℕ → Id) (s : State F S U W)
    (call : Call) (h : call.Unbound s.process (userEsp 1)) :
    Refused m userEsp s call ↔ call ≠ .readdir ∧ (call = .seek → userEsp 1 = 1) := by
  cases call with
  | write =>
    refine iff_of_true (refused_of_ok ?_) (by simp)
    simp only [sysHandler, sysWrite, getFile_eq_none h, ite_self]
  | up =>
    refine iff_of_true (refused_of_ok ?_) (by simp)
    simp only [sysHandler, sysSemaphore, getSemaphore_eq_none h]
  | down =>
    refine iff_of_true (refused_of_ok ?_) (by simp)
    simp only [sysHandler, sysSemaphore, getSemaphore_eq_none h]
  | close =>
    refine iff_of_true (refused_of_ok ?_) (by simp)
    simp only [sysHandler, sysClose, close_unbound h]
  | wait =>
    obtain ⟨p', hwait⟩ := wait_unbound h
    refine iff_of_true (refused_of_ok ?_) (by simp)
    simp only [sysHandler, sysWait, hwait, ite_self]
  | len =>
    refine iff_of_true (refused_of_ok ?_) (by simp)
    simp only [sysHandler, sysLen, getFile_eq_none h]
  | read =>
    refine iff_of_true (refused_of_ok ?_) (by simp)
    simp only [sysHandler, sysRead, getFile_eq_none h, ite_self]
  | seek =>
    by_cases hone : userEsp 1 = 1
    · refine iff_of_true (refused_of_ok ?_) ⟨by simp, fun _ => hone⟩
      simp only [sysHandler, sysSeek, if_pos hone]
    · refine iff_of_false (not_refused_of_fault (e := .nullDereference) ?_) fun hall => ?_
      · simp only [sysHandler, sysSeek, if_neg hone, getFile_eq_none h]
      · exact hone (hall.2 rfl)
  | readdir =>
    refine iff_of_false (not_refused_of_fault (e := .nullDereference) ?_) fun hall => hall.1 rfl
    simp only [sysHandler, sysReaddir, getFile_eq_none h]

def inert : Methods Unit Unit Unit Unit where
  size _ _ := 0
  seek _ offset w := .ok (offset.toInt, w)
  read _ _ _ w := .ok (0, w)
  write _ _ _ w := .ok (-1, w)
  up _ w := .ok w
  down _ w := .ok w
  get _ w := .ok (0, w)
  store _ _ w := w

def bare : State Unit Unit Unit Unit :=
  ⟨⟨fun _ => none, fun _ => none, fun _ => none, (), 0⟩, ()⟩

theorem bare_close_refused : Refused inert (fun _ => 5) bare .close :=
  (unbound_refused_iff inert (fun _ => 5) bare .close rfl).mpr
    ⟨by decide, fun h => nomatch h⟩

/-- `seek(5, 5)` and `readdir(5, ..)` where nothing is open. -/
theorem bare_seek_faults : (Call.seek.Unbound bare.process 5 ∧
      ¬ Refused inert (fun _ => 5) bare .seek) ∧
    Call.readdir.Unbound bare.process 5 ∧ ¬ Refused inert (fun _ => 5) bare .readdir :=
  ⟨⟨rfl, not_refused_of_fault (e := .nullDereference) rfl⟩, rfl,
    not_refused_of_fault (e := .nullDereference) rfl⟩

end OsShell.Sys
