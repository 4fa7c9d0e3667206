import OsShell.Process.Code

/-!
# Handles

A handle is a 32-bit id: four bits for the kind and 28 for the index into one of
the three tables. File descriptors have kind 0, so a descriptor is its index.
What a table operation returns is an `int`; a handle is given as the id it is.
-/

namespace OsShell.Processes

variable {F S U : Type}

abbrev Id := BitVec 32

def FL : ℕ := 0x00000000
def SEM : ℕ := 0x20000000
def INDEX_MASK : ℕ := 0x0FFFFFFF

def kindOf (id : Id) : ℕ := id.toNat &&& 0xF0000000

def indexOf (id : Id) : ℕ := id.toNat &&& INDEX_MASK

/-- The index of an id of the given kind; `none` is the `-1` of the source. -/
def tableIndex (kind : ℕ) (id : Id) : Option (Fin 10) :=
  if kindOf id ≠ kind then none
  else if h : indexOf id < 10 then some ⟨indexOf id, h⟩
  else none

def getSemaphoreIndex (id : Id) : Option (Fin 10) := tableIndex SEM id
def getChildIndex (id : Id) : Option (Fin 10) := tableIndex PROC id
def getFileIndex (id : Id) : Option (Fin 10) := tableIndex FL id

def firstFree {O : Type} (table : Fin 10 → Option O) : Option (Fin 10) :=
  (List.finRange 10).find? fun i => (table i).isNone

namespace Process

/-- `Shared<Semaphore>::make(init)` is the new object `sem`. -/
def newSemaphore (p : Process F S U) (sem : S) : ℤ × Process F S U :=
  match firstFree p.sems with
  | none => (-1, p)
  | some i => ((SEM ||| (i.val &&& INDEX_MASK) : ℕ),
      { p with sems := Function.update p.sems i (some sem) })

def getSemaphore (p : Process F S U) (id : Id) : Option S :=
  if h : indexOf id ≥ 10 ∨ kindOf id ≠ SEM then none
  else p.sems ⟨indexOf id, by omega⟩

/-- The table is indexed with the id itself. -/
def getFile (p : Process F S U) (fd : Id) : Option F :=
  match getFileIndex fd with
  | none => none
  | some _ => if h : fd.toNat < 10 then p.files ⟨fd.toNat, h⟩ else none

def setFile (p : Process F S U) (file : F) : ℤ × Process F S U :=
  match firstFree p.files with
  | none => (-1, p)
  | some i => (i.val, { p with files := Function.update p.files i (some file) })

def close (p : Process F S U) (id : Id) : ℤ × Process F S U :=
  match getSemaphoreIndex id with
  | some i =>
    if (p.sems i).isNone then (-1, p)
    else (0, { p with sems := Function.update p.sems i none })
  | none =>
    match getChildIndex id with
    | some i =>
      if (p.children i).isNone then (-1, p)
      else (0, { p with children := Function.update p.children i none })
    | none =>
      match getFileIndex id with
      | some i =>
        if (p.files i).isNone then (-1, p)
        else (0, { p with files := Function.update p.files i none })
      | none => (-1, p)

/-- The second part is the future whose value is stored through the pointer, once `get` returns. -/
def wait (p : Process F S U) (id : Id) : ℤ × Option U × Process F S U :=
  match getChildIndex id with
  | none => (-1, none, p)
  | some i =>
    match p.children i with
    | none => (-1, none, p)
    | some e => (0, some e, { p with children := Function.update p.children i none })

def dup2 (p : Process F S U) (oldfd newfd : Id) : ℤ × Process F S U :=
  if oldfd = newfd then (newfd.toInt, p)
  else if hold : oldfd.toInt < 0 ∨ oldfd.toInt ≥ 10 then (-1, p)
  else
    let old : Fin 10 := ⟨oldfd.toInt.toNat, by omega⟩
    if (p.files old).isNone then (-1, p)
    else if hnew : newfd.toInt < 0 ∨ newfd.toInt ≥ 10 then (-1, p)
    else
      let new : Fin 10 := ⟨newfd.toInt.toNat, by omega⟩
      let p := (p.close newfd).2
      (newfd.toInt, { p with files := Function.update p.files new (p.files old) })

end Process

end OsShell.Processes
