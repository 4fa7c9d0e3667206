import OsShell.Library.Tiling
import OsShell.Library.LinkedList

/-!
# The word array of a first-fit heap

`kernel/heap.cc` and `sbin/heap.c` share one block format in an array of
words. A block of `n` words carries `n` (free) or `-n` (taken) in its first
and in its last word; a free block keeps the indices of the next and the
previous free block in its second and third word, with index `0` for none.
-/

namespace OsShell.FirstFit

/-- The statics of the heap: `array` starts at address `base` and has `len` words. -/
structure Heap where
  base : ℤ
  len : ℤ
  avail : ℤ
  array : ℤ → ℤ

def Heap.store (h : Heap) (i v : ℤ) : Heap := { h with array := Function.update h.array i v }

section Helpers
variable (h : Heap)

def size (i : ℤ) : ℤ := |h.array i|

def headerFromFooter (i : ℤ) : ℤ := i - size h i + 1

def footerFromHeader (i : ℤ) : ℤ := i + size h i - 1

-- `sanity` hands its argument back on every path; its checks only panic when `safe` is set,
-- and `safe` is 0 in the kernel and has its panics commented out in user space.
def sanity (i : ℤ) : ℤ := i

def left (i : ℤ) : ℤ := sanity (headerFromFooter h (i - 1))

def right (i : ℤ) : ℤ := sanity (i + size h i)

def next (i : ℤ) : ℤ := sanity (h.array (i + 1))

def prev (i : ℤ) : ℤ := sanity (h.array (i + 2))

def setNext (i x : ℤ) : Heap := h.store (i + 1) x

def setPrev (i x : ℤ) : Heap := h.store (i + 2) x

def remove (i : ℤ) : Heap :=
  let prevIndex := prev h i
  let nextIndex := next h i
  let h := if prevIndex = 0 then { h with avail := nextIndex } else setNext h prevIndex nextIndex
  if nextIndex ≠ 0 then setPrev h nextIndex prevIndex else h

def makeAvail (i ints : ℤ) : Heap :=
  let h := h.store i ints
  let h := h.store (footerFromHeader h i) ints
  let h := setNext h i h.avail
  let h := setPrev h i 0
  let h := if h.avail ≠ 0 then setPrev h h.avail i else h
  { h with avail := i }

def makeTaken (i ints : ℤ) : Heap :=
  let h := h.store i (-ints)
  h.store (footerFromHeader h i) (-ints)

def isAvail (i : ℤ) : Bool := 0 < h.array i

def isTaken (i : ℤ) : Bool := h.array i < 0

/-- What `malloc` does with the block it has chosen: `mx` words at `it`, of which `ints` are
wanted. -/
def carve (it mx ints : ℤ) : Heap :=
  let h := remove h it
  let extra := mx - ints
  if 4 ≤ extra then makeAvail (makeTaken h it ints) (it + ints) extra
  else makeTaken h it mx

/-- What `free` does with the taken block at `idx`: its free neighbours join it. -/
def coalesce (idx : ℤ) : Heap :=
  let sz := size h idx
  let leftIndex := left h idx
  let rightIndex := right h idx
  let (h, idx, sz) :=
    if isAvail h leftIndex then
      let h := remove h leftIndex
      (h, leftIndex, sz + size h leftIndex)
    else (h, idx, sz)
  let (h, sz) :=
    if isAvail h rightIndex then
      let h := remove h rightIndex
      (h, sz + size h rightIndex)
    else (h, sz)
  makeAvail h idx sz

end Helpers

@[simp] theorem Heap.store_base (h : Heap) (i v : ℤ) : (h.store i v).base = h.base := rfl
@[simp] theorem Heap.store_len (h : Heap) (i v : ℤ) : (h.store i v).len = h.len := rfl
@[simp] theorem Heap.store_avail (h : Heap) (i v : ℤ) : (h.store i v).avail = h.avail := rfl

theorem Heap.store_array (h : Heap) (i v j : ℤ) :
    (h.store i v).array j = if j = i then v else h.array j := by
  simp [Heap.store, Function.update_apply]

theorem Heap.store_self (h : Heap) (i v : ℤ) : (h.store i v).array i = v := by
  simp [Heap.store_array]

theorem Heap.store_of_ne (h : Heap) {i j : ℤ} (v : ℤ) (hij : j ≠ i) :
    (h.store i v).array j = h.array j := by
  simp [Heap.store_array, hij]

theorem remove_eq (h : Heap) (i : ℤ) : (remove h i).base = h.base ∧ (remove h i).len = h.len ∧
    (remove h i).avail = (if prev h i = 0 then next h i else h.avail) ∧
    ∀ j, (remove h i).array j =
      if next h i ≠ 0 ∧ j = next h i + 2 then prev h i
      else if prev h i ≠ 0 ∧ j = prev h i + 1 then next h i else h.array j := by
  unfold remove setNext setPrev
  by_cases hp : prev h i = 0 <;> by_cases hn : next h i = 0 <;>
    simp [hp, hn, Heap.store_array]

theorem makeTaken_eq (h : Heap) (i : ℤ) {ints : ℤ} (hi : 0 < ints) :
    (makeTaken h i ints).base = h.base ∧ (makeTaken h i ints).len = h.len ∧
    (makeTaken h i ints).avail = h.avail ∧
    ∀ j, (makeTaken h i ints).array j =
      if j = i ∨ j = i + ints - 1 then -ints else h.array j := by
  have hf : footerFromHeader (h.store i (-ints)) i = i + ints - 1 := by
    simp [footerFromHeader, size, Heap.store_self, abs_of_pos hi]
  refine ⟨rfl, rfl, rfl, fun j => ?_⟩
  simp only [makeTaken, hf, Heap.store_array]
  split_ifs <;> first | rfl | omega

theorem makeAvail_eq (h : Heap) (i : ℤ) {ints : ℤ} (hi : 4 ≤ ints) :
    (makeAvail h i ints).base = h.base ∧ (makeAvail h i ints).len = h.len ∧
    (makeAvail h i ints).avail = i ∧
    ∀ j, (makeAvail h i ints).array j =
      if h.avail ≠ 0 ∧ j = h.avail + 2 then i
      else if j = i + 2 then 0 else if j = i + 1 then h.avail
      else if j = i ∨ j = i + ints - 1 then ints else h.array j := by
  have hf : footerFromHeader (h.store i ints) i = i + ints - 1 := by
    simp [footerFromHeader, size, Heap.store_self, abs_of_nonneg (by omega : 0 ≤ ints)]
  unfold makeAvail
  simp only [hf, setNext, setPrev, Heap.store_avail]
  by_cases ha : h.avail = 0
  · simp only [ha, ne_eq, not_true_eq_false, if_false, false_and, Heap.store_array,
      Heap.store_base, Heap.store_len, true_and]
    intro j
    split_ifs <;> first | rfl | omega
  · simp only [ha, ne_eq, not_false_eq_true, if_true, true_and, Heap.store_array,
      Heap.store_base, Heap.store_len]
    intro j
    split_ifs <;> first | rfl | omega

end OsShell.FirstFit
