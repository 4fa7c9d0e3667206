import OsShell.Vmm.Code

/-!
# Processes

A process has three tables of ten handles each, the future its exit value goes
to, and a page directory. What the handles refer to is left open. `mutex`,
which `fork` holds throughout, and the working directory are left out.
-/

namespace OsShell.Processes

open PhysMem Vmm Stopping

variable {F S U : Type}

structure Process (F S U : Type) where
  files : Fin 10 → Option F
  sems : Fin 10 → Option S
  children : Fin 10 → Option U
  output : U
  pd : ℕ

/-- `Shared<Process>::make(false)`: a new object whose `output` is the given new future. -/
def make (c : Config) (shared : ℕ) (output : U) (m : Machine) :
    Except Halt (Process F S U × Machine) := do
  let (pd, m) ← makePd c shared m
  return ({ files := fun _ => none, sems := fun _ => none, children := fun _ => none,
            output, pd }, m)

def PROC : ℕ := 0x10000000

/-- What `fork` gives back: the id it stores, the child it returns, and the parent after it. -/
structure Forked (F S U : Type) where
  id : ℤ
  child : Option (Process F S U)
  parent : Process F S U
  machine : Machine

def fork (c : Config) (shared : ℕ) (output : U) (p : Process F S U) (m : Machine) :
    Except Halt (Forked F S U) :=
  match (List.finRange 10).find? fun i => (p.children i).isNone with
  | none => .ok ⟨-1, none, p, m⟩
  | some index => do
    let (child, m) ← (make c shared output m : Except Halt (Process F S U × Machine))
    let m ← copyPrivate p.pd child.pd m
    let child := { child with
      sems := fun i => if (p.sems i).isSome then p.sems i else child.sems i
      files := fun i => p.files i }
    let parent := { p with children := Function.update p.children index (some child.output) }
    return ⟨((PROC ||| index.val : ℕ) : ℤ), some child, parent, m⟩

end OsShell.Processes
