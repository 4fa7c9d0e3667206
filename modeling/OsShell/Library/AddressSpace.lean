import Mathlib

/-!
# A 32-bit address space

Memory is a byte for each of the `2 ^ 32` addresses, and addresses wrap around. A
range of addresses is given by its first one and a length; what a store may change
and what a load depends on are such ranges, and two of them are disjoint when each
begins behind the end of the other.
-/

namespace OsShell.AddressSpace

abbrev Word := BitVec 32

abbrev Memory := Word → UInt8

def span (a : Word) (n : ℕ) : Set Word := {x | (x - a).toNat < n}

def byte (v : Word) (i : ℕ) : UInt8 := .ofNat (v.toNat / 2 ^ (8 * i))

/-- The word at an address, low byte first. -/
def load (m : Memory) (a : Word) : Word :=
  .ofNat 32 ((m a).toNat + 2 ^ 8 * (m (a + 1)).toNat + 2 ^ 16 * (m (a + 2)).toNat +
    2 ^ 24 * (m (a + 3)).toNat)

def store (m : Memory) (a v : Word) : Memory :=
  fun x => if (x - a).toNat < 4 then byte v (x - a).toNat else m x

def storeByte (m : Memory) (a : Word) (v : UInt8) : Memory := Function.update m a v

variable {m m' : Memory} {a b x : Word} {n k : ℕ}

theorem mem_span : x ∈ span a n ↔ (x - a).toNat < n := Iff.rfl

theorem mem_span_add {i : ℕ} (hi : i < n) (hn : n ≤ 2 ^ 32) : a + .ofNat 32 i ∈ span a n := by
  rw [mem_span, add_sub_cancel_left, BitVec.toNat_ofNat, Nat.mod_eq_of_lt (by omega)]
  exact hi

theorem disjoint_span (hab : n ≤ (b - a).toNat) (hba : k ≤ (a - b).toNat) :
    Disjoint (span a n) (span b k) := by
  refine Set.disjoint_left.mpr fun x hxa hxb => ?_
  rw [mem_span] at hxa hxb
  bv_omega

theorem load_congr (h : ∀ x ∈ span a 4, m' x = m x) : load m' a = load m a := by
  have h0 := h a (by rw [mem_span, BitVec.sub_self]; decide)
  have h1 := h (a + 1) (mem_span_add (i := 1) (by omega) (by omega))
  have h2 := h (a + 2) (mem_span_add (i := 2) (by omega) (by omega))
  have h3 := h (a + 3) (mem_span_add (i := 3) (by omega) (by omega))
  rw [load, load, h0, h1, h2, h3]

theorem store_of_notMem {v : Word} (hx : x ∉ span a 4) : store m a v x = m x :=
  if_neg hx

@[simp] theorem load_store (m : Memory) (a v : Word) : load (store m a v) a = v := by
  have h0 : (a - a).toNat = 0 := by rw [sub_self]; rfl
  have h1 : (a + 1 - a).toNat = 1 := by rw [add_sub_cancel_left]; rfl
  have h2 : (a + 2 - a).toNat = 2 := by rw [add_sub_cancel_left]; rfl
  have h3 : (a + 3 - a).toNat = 3 := by rw [add_sub_cancel_left]; rfl
  have hv := v.isLt
  refine BitVec.eq_of_toNat_eq ?_
  simp only [load, store, h0, h1, h2, h3, BitVec.toNat_ofNat, byte, UInt8.toNat_ofNat',
    Nat.reducePow, Nat.reduceLT, if_true, Nat.reduceMul]
  omega

theorem load_store_of_disjoint {v : Word} (h : Disjoint (span a 4) (span b 4)) :
    load (store m b v) a = load m a :=
  load_congr fun _ hx => store_of_notMem (Set.disjoint_left.mp h hx)

theorem load_store_offset {v i j : Word} (hij : 4 ≤ (j - i).toNat) (hji : 4 ≤ (i - j).toNat) :
    load (store m (a + j) v) (a + i) = load m (a + i) := by
  refine load_store_of_disjoint (disjoint_span ?_ ?_)
  · rwa [show a + j - (a + i) = j - i by ring]
  · rwa [show a + i - (a + j) = i - j by ring]

theorem load_store_first {v i : Word} (hi : 4 ≤ i.toNat) (hwrap : 4 ≤ (-i).toNat) :
    load (store m a v) (a + i) = load m (a + i) := by
  refine load_store_of_disjoint (disjoint_span ?_ ?_)
  · rwa [show a - (a + i) = -i by ring]
  · rwa [add_sub_cancel_left]

theorem span_subset {i : Word} (hi : i.toNat + k ≤ n) :
    span (a + i) k ⊆ span a n := by
  intro x hx
  rw [mem_span] at hx ⊢
  bv_omega

theorem span_subset_sub {j : Word} (hj : j.toNat + k ≤ n) : span a k ⊆ span (a - j) n := by
  nth_rewrite 1 [show a = a - j + j by ring]
  exact span_subset hj

theorem span_sub_subset {i j : Word} (hij : i.toNat ≤ j.toNat) (hj : j.toNat - i.toNat + k ≤ n) :
    span (a - i) k ⊆ span (a - j) n := by
  rw [show a - i = a - j + (j - i) by ring]
  exact span_subset (by rwa [BitVec.toNat_sub_of_le hij])

theorem span_mono (h : n ≤ k) : span a n ⊆ span a k := fun _ hx => lt_of_lt_of_le hx h

theorem load_store_apart {v i j : Word} (h : Disjoint (span a n) (span b k))
    (hi : i.toNat + 4 ≤ n) (hj : j.toNat + 4 ≤ k) :
    load (store m (b + j) v) (a + i) = load m (a + i) :=
  load_store_of_disjoint (h.mono (span_subset hi) (span_subset hj))

theorem load_store_apart_first {v i : Word} (h : Disjoint (span a n) (span b k))
    (hi : i.toNat + 4 ≤ n) (hk : 4 ≤ k) : load (store m b v) (a + i) = load m (a + i) :=
  load_store_of_disjoint (h.mono (span_subset hi) (span_mono hk))

end OsShell.AddressSpace
