import OsShell.Debug

/-!
# Physical frames

`mem a` is the 32-bit word at the word-aligned physical address `a`. Free
frames that were used before are chained through their first words, starting
at `firstFree`; the frames from `avail` up to `limit` were never used. The lock
that every operation holds from its first to its last line is left out.
-/

namespace OsShell.PhysMem

def frameSize : ℕ := 2 ^ 12

def offset (pa : ℕ) : ℕ := pa &&& 0xFFF

def framedown (pa : ℕ) : ℕ := pa / frameSize * frameSize

structure Machine where
  mem : ℕ → ℕ
  firstFree : ℕ
  avail : ℕ
  limit : ℕ

def Machine.store (m : Machine) (a v : ℕ) : Machine := { m with mem := Function.update m.mem a v }

def bzero (mem : ℕ → ℕ) (p n : ℕ) : ℕ → ℕ := fun a => if p ≤ a ∧ a < p + n then 0 else mem a

def allocFrame (m : Machine) : Except Halt (ℕ × Machine) := do
  let (p, m) ←
    if m.firstFree ≠ 0 then
      .ok (m.firstFree, { m with firstFree := m.mem m.firstFree })
    else if m.avail = m.limit then
      .error (.panic "no more frames")
    else
      .ok (m.avail, { m with avail := (m.avail + frameSize) % 2 ^ 32 })
  assert (offset p = 0) "offset(p) == 0"
  return (p, { m with mem := bzero m.mem p frameSize })

def deallocFrame (m : Machine) (p : ℕ) : Except Halt Machine := do
  assert (offset p = 0) "offset(p) == 0"
  return { m.store p m.firstFree with firstFree := p }

/-- The static `firstFree` is null before the call. -/
def init (mem : ℕ → ℕ) (start size : ℕ) : Except Halt Machine := do
  assert (offset start = 0) "offset(start) == 0"
  assert (offset size = 0) "offset(size) == 0"
  return { mem, firstFree := 0, avail := start, limit := (start + size) % 2 ^ 32 }

theorem offset_eq (pa : ℕ) : offset pa = pa % frameSize :=
  Nat.and_two_pow_sub_one_eq_mod pa 12

@[simp] theorem store_mem (m : Machine) (a v : ℕ) :
    (m.store a v).mem = Function.update m.mem a v := rfl

@[simp] theorem store_avail (m : Machine) (a v : ℕ) : (m.store a v).avail = m.avail := rfl

end OsShell.PhysMem
