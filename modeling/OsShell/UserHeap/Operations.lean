import OsShell.FirstFit.Owners
import OsShell.KernelHeap.Operations
import OsShell.UserHeap.Code

/-!
# The calls of the user heap, one at a time

`malloc` looks for the first block on the free list that fits, and `realloc` is a
`malloc`, a copy and a `free`. The copy reads beyond the old payload, but its bytes
all go to the payload of the new block.
-/

namespace OsShell.UserHeap

open FirstFit KernelHeap Tiling LinkedList

section Bytes

variable {h : Heap} {dest src a v : ℤ} {n : ℕ}

@[simp] theorem setByte_base (h : Heap) (a v : ℤ) : (setByte h a v).base = h.base := rfl

@[simp] theorem setByte_len (h : Heap) (a v : ℤ) : (setByte h a v).len = h.len := rfl

theorem lane_congr {w w' : ℤ} {k : ℕ} (hk : k < 4) (hw : w % 2 ^ 32 = w' % 2 ^ 32) :
    lane w k = lane w' k := by
  unfold lane
  match k, hk with
  | 0, _ => omega
  | 1, _ => omega
  | 2, _ => omega
  | 3, _ => omega

theorem lane_range (w : ℤ) (k : ℕ) : 0 ≤ lane w k ∧ lane w k < 256 :=
  ⟨Int.emod_nonneg _ (by decide), Int.emod_lt_of_pos _ (by decide)⟩

theorem lane_put {w : ℤ} {k k' : ℕ} (hk : k < 4) (hk' : k' < 4) (hv : 0 ≤ v ∧ v < 256) :
    lane ((w + (v - lane w k) * 256 ^ k).bmod (2 ^ 32)) k' = if k' = k then v else lane w k' := by
  have hwrap : (w + (v - lane w k) * 256 ^ k).bmod (2 ^ 32) % 2 ^ 32 =
      (w + (v - lane w k) * 256 ^ k) % 2 ^ 32 := Int.bmod_emod
  rw [lane_congr hk' hwrap]
  unfold lane
  match k, hk, k', hk' with
  | 0, _, 0, _ | 1, _, 1, _ | 2, _, 2, _ | 3, _, 3, _ => simp only [if_true]; omega
  | 0, _, 1, _ | 0, _, 2, _ | 0, _, 3, _ | 1, _, 0, _ | 1, _, 2, _ | 1, _, 3, _
  | 2, _, 0, _ | 2, _, 1, _ | 2, _, 3, _ | 3, _, 0, _ | 3, _, 1, _ | 3, _, 2, _ =>
    simp only [Nat.reduceEqDiff, if_false]
    omega

theorem byteAt_setByte (hv : 0 ≤ v ∧ v < 256) (b : ℤ) :
    byteAt (setByte h a v) b = if b = a then v else byteAt h b := by
  unfold byteAt
  rw [setByte_base]
  by_cases hword : (b - h.base) / 4 = (a - h.base) / 4
  · rw [hword, setByte, Heap.store_self, lane_put (by omega) (by omega) hv]
    by_cases hb : b = a
    · rw [if_pos (by rw [hb]), if_pos hb]
    · rw [if_neg (by omega), if_neg hb]
  · rw [setByte, Heap.store_of_ne _ _ hword, if_neg (by rintro rfl; exact hword rfl)]

@[simp] theorem copyBytes_base (h : Heap) (dest src : ℤ) (n : ℕ) :
    (copyBytes h dest src n).base = h.base := by
  induction n with
  | zero => rfl
  | succ n ih => rw [copyBytes, setByte_base, ih]

@[simp] theorem copyBytes_len (h : Heap) (dest src : ℤ) (n : ℕ) :
    (copyBytes h dest src n).len = h.len := by
  induction n with
  | zero => rfl
  | succ n ih => rw [copyBytes, setByte_len, ih]

theorem byteAt_congr {h' : Heap} (hbase : h'.base = h.base)
    (harray : h'.array ((a - h.base) / 4) = h.array ((a - h.base) / 4)) :
    byteAt h' a = byteAt h a := by
  rw [byteAt, byteAt, hbase, harray]

theorem byteAt_range (h : Heap) (a : ℤ) : 0 ≤ byteAt h a ∧ byteAt h a < 256 :=
  lane_range _ _

theorem byteAt_copyBytes_of_ne (ha : ∀ i < n, a ≠ dest + i) :
    byteAt (copyBytes h dest src n) a = byteAt h a := by
  induction n with
  | zero => rfl
  | succ n ih =>
    rw [copyBytes, byteAt_setByte (byteAt_range _ _), if_neg (ha n (Nat.lt_succ_self n)),
      ih fun i hi => ha i (by omega)]

theorem byteAt_copyBytes (hap : ∀ i < n, ∀ j < n, src + i ≠ dest + j) {i : ℕ} (hi : i < n) :
    byteAt (copyBytes h dest src n) (dest + i) = byteAt h (src + i) := by
  induction n with
  | zero => exact absurd hi (Nat.not_lt_zero i)
  | succ n ih =>
    have hap' : ∀ i < n, ∀ j < n, src + i ≠ dest + j := fun i hi j hj =>
      hap i (by omega) j (by omega)
    rw [copyBytes, byteAt_setByte (byteAt_range _ _)]
    by_cases hin : i = n
    · subst hin
      rw [if_pos rfl, byteAt_copyBytes_of_ne fun j hj => hap i hi j (by omega)]
    · rw [if_neg (by omega), ih hap' (by omega)]

theorem copyBytes_array {j : ℤ} (hj : ∀ i < n, (dest + i - h.base) / 4 ≠ j) :
    (copyBytes h dest src n).array j = h.array j := by
  induction n with
  | zero => rfl
  | succ n ih =>
    rw [copyBytes, setByte, copyBytes_base, Heap.store_of_ne _ _ (hj n (Nat.lt_succ_self n)).symm,
      ih fun i hi => hj i (by omega)]

theorem owned_copyBytes {ps : List ℤ} {bs : List Block} {fl : List ℤ} {t : Block}
    (O : Owned h ps bs fl) (ht : t ∈ bs) (hf : t.free = false)
    (hdest : ∀ i < n, Payload t ((dest + i - h.base) / 4)) :
    Owned (copyBytes h dest src n) ps bs fl := by
  induction n with
  | zero => exact O
  | succ n ih =>
    refine (ih fun i hi => hdest i (by omega)).write ht hf ?_ _
    rw [copyBytes_base]
    exact hdest n (Nat.lt_succ_self n)

end Bytes

def placed (h : Heap) (ints : ℤ) : Option ℤ → Heap × ℤ
  | none => (h, 0)
  | some i => (carve h i (size h i) ints, address h (i + 1))

theorem place_eq {h : Heap} (ints : ℤ) {l : List ℤ} {before p : ℤ}
    (hlink : Linked (next h) (prev h) 0 before p l) {fuel : ℕ} (hfuel : l.length < fuel) :
    place h ints fuel p = some (placed h ints (l.find? fun i => ints ≤ size h i)) := by
  induction l generalizing fuel before p with
  | nil =>
    obtain ⟨fuel, rfl⟩ := Nat.exists_eq_succ_of_ne_zero (by omega : fuel ≠ 0)
    obtain rfl : p = 0 := hlink
    rfl
  | cons i l ih =>
    obtain ⟨rfl, hi, -, ht⟩ := hlink
    obtain ⟨fuel, rfl⟩ := Nat.exists_eq_succ_of_ne_zero (by omega : fuel ≠ 0)
    have hrest := ih ht (show l.length < fuel by simpa using hfuel)
    rw [place, if_neg hi]
    by_cases hfit : ints ≤ size h p
    · rw [if_pos hfit, List.find?_cons_of_pos (by simpa using hfit)]
      rfl
    · rw [if_neg hfit, List.find?_cons_of_neg (by simpa using hfit), hrest]

variable {h : Heap} {bs : List Block} {fl ps : List ℤ} {b : Block}

theorem malloc_eq (W : WellFormed h bs fl) {bytes : ℕ} (hbytes : bytes ≠ 0) :
    malloc h bytes =
      some (placed h (intsFor bytes) (fl.find? fun i => intsFor bytes ≤ size h i)) := by
  rw [malloc, if_neg hbytes]
  exact place_eq _ W.threaded.linked (Nat.lt_succ_of_le (length_le W))

theorem malloc_spec (W : WellFormed h bs fl) {bytes : ℕ} (hbytes : bytes ≠ 0) :
    ((∀ b ∈ bs, b.free = true → b.size < intsFor bytes) ∧ malloc h bytes = some (h, 0)) ∨
    ∃ b ∈ bs, b.free = true ∧ ∃ t h' bs' fl',
      malloc h bytes = some (h', address h (b.start + 1)) ∧
      Taken h bs fl b (intsFor bytes) h' bs' fl' t := by
  rw [malloc_eq W hbytes]
  cases hfind : fl.find? fun i => intsFor bytes ≤ size h i with
  | none =>
    refine Or.inl ⟨fun b hb hf => ?_, rfl⟩
    have := List.find?_eq_none.mp hfind b.start (W.complete b hb hf)
    rw [W.threaded.size_start hb] at this
    simpa using this
  | some i =>
    obtain ⟨b, hb, hf, rfl⟩ := W.threaded.listed i (List.mem_of_find?_eq_some hfind)
    have hle : intsFor bytes ≤ b.size := by
      simpa [W.threaded.size_start hb] using List.find?_some hfind
    obtain ⟨t, bs', fl', ht⟩ := W.carve hb hf (intsFor_ge bytes) hle
    exact Or.inr ⟨b, hb, hf, t, _, bs', fl', by rw [placed, W.threaded.size_start hb], ht⟩

theorem index_address (O : Owned h ps bs fl) (hlen : h.len = INTS) (hb : b ∈ bs)
    (hi : Interior h b) : index h (address h (b.start + 1)) = b.start := by
  obtain ⟨h₁, h₂, h₃⟩ := O.wf.inner_bounds hb hi
  rw [hlen, INTS, Block.stop] at h₃
  have hoff : address h (b.start + 1) - h.base = 4 * (b.start + 1) := by
    simp only [address]
    omega
  rw [index, hoff, Int.bmod_eq_of_le (by omega) (by omega),
    Int.mul_tdiv_cancel_left _ (by decide)]
  omega

theorem free_spec (O : Owned h ps bs fl) (hlen : h.len = INTS) (hb : b ∈ bs) (hf : b.free = false)
    (hi : Interior h b) :
    ∃ m bs' fl', Released h bs b (free h (address h (b.start + 1))) bs' fl' m := by
  obtain ⟨m, bs', fl', hR⟩ := O.wf.coalesce hb hf hi
  have h₁ := (O.wf.inner_bounds hb hi).1
  have hbase := O.base
  have hne : address h (b.start + 1) ≠ 0 ∧ address h (b.start + 1) ≠ h.base := by
    simp only [address]
    omega
  refine ⟨m, bs', fl', ?_⟩
  simp only [free, if_neg hne.1, if_neg hne.2, index_address O hlen hb hi, O.wf.threaded.isTaken_start hb,
    hf, Bool.not_false, Bool.true_eq_false, if_false]
  exact hR

/-- How many bytes `realloc` copies: all of the old block's words count. -/
def copied (b : Block) (newSize : ℕ) : ℕ := min newSize (4 * b.size).toNat

theorem realloc_spec (O : Owned h ps bs fl) (hlen : h.len = INTS) (hb : b ∈ bs)
    (hf : b.free = false) (hi : Interior h b) {newSize : ℕ} (hsize : newSize ≠ 0) :
    ((∀ c ∈ bs, c.free = true → c.size < intsFor newSize) ∧
      realloc h (address h (b.start + 1)) newSize =
        some (free h (address h (b.start + 1)), 0)) ∨
    ∃ c ∈ bs, c.free = true ∧ ∃ t h' bs' fl', Taken h bs fl c (intsFor newSize) h' bs' fl' t ∧
      realloc h (address h (b.start + 1)) newSize =
        some (free (copyBytes h' (address h (c.start + 1)) (address h (b.start + 1))
          (copied b newSize)) (address h (b.start + 1)), address h (c.start + 1)) := by
  have hbounds := O.wf.inner_bounds hb hi
  have hbase := O.base
  have hne : address h (b.start + 1) ≠ 0 := by
    simp only [address]
    omega
  rw [realloc, if_neg hne, if_neg hsize]
  simp only [index_address O hlen hb hi, O.wf.threaded.isTaken_start hb, hf, Bool.not_false,
    Bool.true_eq_false, if_false, O.wf.threaded.size_start hb]
  rcases malloc_spec O.wf hsize with ⟨hno, hm⟩ | ⟨c, hc, hcf, t, h', bs', fl', hm, ht⟩
  · refine Or.inl ⟨hno, ?_⟩
    simp only [hm, ne_eq, not_true_eq_false, if_false]
  · have hcbounds := O.wf.inner_bounds hc (O.wf.inner_of_free hc hcf)
    have hq : address h (c.start + 1) ≠ 0 := by
      simp only [address]
      omega
    have hcount : (if (newSize : ℤ) > b.size * 4 then (b.size * 4).toNat else newSize) =
        copied b newSize := by
      rw [copied]
      split_ifs <;> omega
    have hsmall : copied b newSize < 2 ^ 31 := by
      rw [hlen, INTS, Block.stop] at hbounds
      rw [copied]
      omega
    refine Or.inr ⟨c, hc, hcf, t, h', bs', fl', ht, ?_⟩
    simp only [hm, ne_eq, hq, not_false_eq_true, if_true, hcount, memcpy, if_pos hsmall]

end OsShell.UserHeap
