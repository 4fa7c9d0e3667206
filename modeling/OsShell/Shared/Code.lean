import OsShell.Library.Runs

/-!
# Shared handles

A handle stands in a word of memory, be it a variable or a member of an object;
`L` are the words. An object is known by the number of its creation, so that a
new one is not taken for an old one at the same address. `none` stands for what
the language does not define: the access to a handle or to the count of an object
that does not exist. What an object holds besides handles is left out.
-/

namespace OsShell.Shared

open Runs

variable {L : Type} [DecidableEq L]

structure Object (L : Type) where
  refCount : ℕ
  members : List L

/-- `ptr l` is what the handle at `l` points to, where there is a handle. Objects from `next` on
have not been created; the code keeps no list of the destroyed ones. -/
structure Memory (L : Type) where
  ptr : L → Option (Option ℕ)
  objects : ℕ → Option (Object L)
  next : ℕ
  destroyed : List ℕ

/-- The operand of `add_fetch(-1)`. -/
def minusOne : ℕ := 2 ^ 32 - 1

namespace Memory

def setCount (s : Memory L) (o : ℕ) (x : Object L) (count : ℕ) : Memory L :=
  { s with objects := Function.update s.objects o (some { x with refCount := count }) }

def addFetch (s : Memory L) (o inc : ℕ) : Option (ℕ × Memory L) :=
  match s.objects o with
  | none => none
  | some x =>
    let count := (x.refCount + inc) % 2 ^ 32
    some (count, s.setCount o x count)

/-- `ptr = p` -/
def store (s : Memory L) (l : L) (p : Option ℕ) : Option (Memory L) :=
  if (s.ptr l).isSome then some { s with ptr := Function.update s.ptr l (some p) } else none

/-- The handle at `l` comes into being or, with `none`, ceases to be. -/
def put (s : Memory L) (l : L) (h : Option (Option ℕ)) : Memory L :=
  { s with ptr := Function.update s.ptr l h }

/-- The destructor of an object begins, which ends its life. -/
def finish (s : Memory L) (o : ℕ) : Memory L :=
  { s with objects := Function.update s.objects o none, destroyed := s.destroyed ++ [o] }

def members (s : Memory L) (o : ℕ) : List L :=
  match s.objects o with
  | none => []
  | some x => x.members

/-- `new T`: the handles in it begin as null. -/
def create (s : Memory L) (members : List L) : ℕ × Memory L :=
  (s.next,
    { s with
      ptr := fun r => if r ∈ members then some none else s.ptr r
      objects := Function.update s.objects s.next (some ⟨0, members⟩)
      next := s.next + 1 })

/-- `delete` runs the destructors of the members, the last one first; the first argument bounds how
deep the deletions nest. -/
def drop : ℕ → L → Memory L → Option (Memory L)
  | 0, _, _ => none
  | depth + 1, l, s =>
    match s.ptr l with
    | none => none
    | some none => some s
    | some (some o) =>
      match s.addFetch o minusOne with
      | none => none
      | some (newCount, s) =>
        if newCount = 0 then do
          let s ← (s.members o).reverse.foldlM
            (fun s m => do
              let s ← drop depth m s
              return s.put m none) (s.finish o)
          s.store l none
        else some s

/-- `drop()`; no deletion is nested deeper than there are objects. -/
def dropAt (s : Memory L) (l : L) : Option (Memory L) :=
  drop (s.next + 1) l s

def add (s : Memory L) (l : L) : Option (Memory L) :=
  match s.ptr l with
  | none => none
  | some none => some s
  | some (some o) =>
    match s.addFetch o 1 with
    | none => none
    | some (_, s) => some s

/-- `explicit Shared(T* it)` -/
def construct (s : Memory L) (l : L) (it : Option ℕ) : Option (Memory L) :=
  (s.put l (some it)).add l

/-- `Shared(const Shared& rhs)` -/
def copy (s : Memory L) (l rhs : L) : Option (Memory L) :=
  match s.ptr rhs with
  | none => none
  | some p => (s.put l (some p)).add l

/-- `Shared(Shared&& rhs)` -/
def move (s : Memory L) (l rhs : L) : Option (Memory L) :=
  match s.ptr rhs with
  | none => none
  | some p => (s.put l (some p)).store rhs none

/-- `~Shared()` -/
def destruct (s : Memory L) (l : L) : Option (Memory L) := do
  let s ← s.dropAt l
  return s.put l none

/-- `operator=(T* rhs)` -/
def assignRaw (s : Memory L) (l : L) (rhs : Option ℕ) : Option (Memory L) :=
  if s.ptr l ≠ some rhs then do
    let s ← s.dropAt l
    let s ← s.store l rhs
    s.add l
  else some s

/-- `operator=(const Shared<T>& rhs)` -/
def assign (s : Memory L) (l rhs : L) : Option (Memory L) :=
  match s.ptr rhs with
  | none => none
  | some otherPtr =>
    if s.ptr l ≠ some otherPtr then do
      let s ← s.dropAt l
      let s ← s.store l otherPtr
      s.add l
    else some s

/-- `operator=(Shared<T>&& rhs)` -/
def moveAssign (s : Memory L) (l rhs : L) : Option (Memory L) := do
  let s ← s.dropAt l
  match s.ptr rhs with
  | none => none
  | some p => do
    let s ← s.store l p
    s.store rhs none

end Memory

/-- What a program does with a handle; `members` are those of a new object. -/
inductive Op (L : Type)
  | default (l : L)
  | construct (l : L) (members : List L)
  | copy (l rhs : L)
  | move (l rhs : L)
  | assignRaw (l : L) (rhs : Option ℕ)
  | assignNew (l : L) (members : List L)
  | assign (l rhs : L)
  | moveAssign (l rhs : L)
  | destruct (l : L)

def Op.exec (s : Memory L) : Op L → Option (Memory L)
  | .default l => some (s.put l (some none))
  | .construct l members =>
    let (o, s) := s.create members
    s.construct l (some o)
  | .copy l rhs => s.copy l rhs
  | .move l rhs => s.move l rhs
  | .assignRaw l rhs => s.assignRaw l rhs
  | .assignNew l members =>
    let (o, s) := s.create members
    s.assignRaw l (some o)
  | .assign l rhs => s.assign l rhs
  | .moveAssign l rhs => s.moveAssign l rhs
  | .destruct l => s.destruct l

namespace Memory

def Member (s : Memory L) (l : L) (o : ℕ) : Prop :=
  ∃ x, s.objects o = some x ∧ l ∈ x.members

def Room (s : Memory L) (members : List L) : Prop :=
  members.Nodup ∧ ∀ m ∈ members, s.ptr m = none

end Memory

/-- A program constructs a handle where none is and uses those that are; a raw pointer is null or to
an object, and a member is destructed with its object only. -/
def Op.Legal (s : Memory L) : Op L → Prop
  | .default l => s.ptr l = none
  | .construct l members => s.Room (l :: members)
  | .copy l rhs => s.ptr l = none ∧ s.ptr rhs ≠ none
  | .move l rhs => s.ptr l = none ∧ s.ptr rhs ≠ none
  | .assignRaw l rhs => s.ptr l ≠ none ∧ ∀ o, rhs = some o → s.objects o ≠ none
  | .assignNew l members => s.ptr l ≠ none ∧ s.Room members
  | .assign l rhs => s.ptr l ≠ none ∧ s.ptr rhs ≠ none
  | .moveAssign l rhs => s.ptr l ≠ none ∧ s.ptr rhs ≠ none
  | .destruct l => s.ptr l ≠ none ∧ ∀ o, ¬ s.Member l o

inductive Init : Option (Memory L) → Prop
  | boot : Init (some ⟨fun _ => none, fun _ => none, 0, []⟩)

/-- An event is what a program does, and the memory it does it in. -/
inductive Step : Option (Memory L) → Memory L × Op L → Option (Memory L) → Prop
  | op {s : Memory L} (op : Op L) (hlegal : op.Legal s) : Step (some s) (s, op) (op.exec s)

end OsShell.Shared
