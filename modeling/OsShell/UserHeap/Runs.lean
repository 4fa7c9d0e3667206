import OsShell.KernelHeap.Guarantees
import OsShell.UserHeap.Operations

/-!
# Runs of the user heap

A run starts where `heap_init` returns and is any sequence of `malloc`, `free` and
`realloc` of live pointers and writes into payloads. Sizes are 32-bit words, and
those for `realloc` are small enough not to wrap. A `realloc` that finds no block
has freed its pointer all the same, so that pointer is not live afterwards.
-/

namespace OsShell.UserHeap

open FirstFit KernelHeap Tiling LinkedList Runs

structure State where
  heap : Heap
  live : List ℤ

inductive Init : State → Prop
  | heapInit {base : ℤ} (hbase : 0 ≤ base) (hfits : base + 4 * INTS ≤ 2 ^ 32) :
      Init ⟨heapInit base, []⟩

inductive Call
  | malloc (bytes : ℕ)
  | free (p : ℤ)
  | realloc (p : ℤ) (newSize : ℕ)
  | write (p j v : ℤ)

/-- The pointer that a call is about; 0 is none. -/
def Call.target : Call → ℤ
  | .malloc _ => 0
  | .free p => p
  | .realloc p _ => p
  | .write p _ _ => p

inductive Step : State → Call → State → Prop
  | malloc {s : State} {h' : Heap} {p : ℤ} (bytes : ℕ) (hsize : bytes < 2 ^ 32)
      (hcall : malloc s.heap bytes = some (h', p)) :
      Step s (.malloc bytes) ⟨h', if bytes = 0 ∨ p = 0 then s.live else p :: s.live⟩
  | free {s : State} (p : ℤ) (hp : p ∈ s.live) :
      Step s (.free p) ⟨free s.heap p, s.live.erase p⟩
  | freeNothing {s : State} (p : ℤ) (hp : p = 0 ∨ p = s.heap.base) :
      Step s (.free p) ⟨free s.heap p, s.live⟩
  | reallocNull {s : State} {h' : Heap} {q : ℤ} (newSize : ℕ) (hsize : newSize ≤ 0xFFFFFFFC)
      (hcall : realloc s.heap 0 newSize = some (h', q)) :
      Step s (.realloc 0 newSize) ⟨h', if newSize = 0 ∨ q = 0 then s.live else q :: s.live⟩
  | realloc {s : State} {h' : Heap} {q : ℤ} (p : ℤ) (hp : p ∈ s.live) (newSize : ℕ)
      (hsize : newSize ≤ 0xFFFFFFFC) (hcall : realloc s.heap p newSize = some (h', q)) :
      Step s (.realloc p newSize) ⟨h', if q = 0 then s.live.erase p else q :: s.live.erase p⟩
  | write {s : State} (p : ℤ) (hp : p ∈ s.live) (j v : ℤ) (hj : j ∈ payload s.heap p) :
      Step s (.write p j v) ⟨s.heap.store j v, s.live⟩

structure Inv (s : State) (bs : List Block) (fl : List ℤ) : Prop where
  owned : Owned s.heap s.live bs fl
  len : s.heap.len = INTS

section Moved

variable {h h' : Heap} {ps : List ℤ} {bs bs' : List Block} {fl fl' : List ℤ} {b c t : Block}
  {newSize : ℕ}

theorem copied_payload (ht : Taken h bs fl c (intsFor newSize) h' bs' fl' t)
    (hsize : newSize ≤ 0xFFFFFFFC) :
    ∀ i < copied b newSize, Payload t ((address h (c.start + 1) + i - h'.base) / 4) := by
  intro i hi
  have hroom := intsFor_room hsize
  have hbig := ht.size_bounds.1
  have hlt : i < newSize := lt_of_lt_of_le hi (Nat.min_le_left _ _)
  rw [ht.base, ← ht.start]
  simp only [Payload, Block.stop, address]
  omega

theorem copied_apart (O : Owned h ps bs fl) (hb : b ∈ bs) (hf : b.free = false)
    (hc : c ∈ bs) (hcf : c.free = true) (ht : Taken h bs fl c (intsFor newSize) h' bs' fl' t)
    (hsize : newSize ≤ 0xFFFFFFFC) : ∀ i < copied b newSize, ∀ j < copied b newSize,
      address h (b.start + 1) + (i : ℤ) ≠ address h (c.start + 1) + j := by
  intro i hi j hj
  have hpay := copied_payload ht hsize j hj
  have hib : i < (4 * b.size).toNat := lt_of_lt_of_le hi (Nat.min_le_right _ _)
  have hcb : b ≠ c := by
    rintro rfl
    simp [hf] at hcf
  have hap := (O.wf.tiles.apart hb hc).resolve_left hcb
  have hle : t.size ≤ c.size := by
    have := ht.fits
    rw [ht.size]
    split_ifs <;> omega
  rw [ht.base] at hpay
  simp only [Payload, Block.stop, Block.Apart, address, ht.start] at hpay hap ⊢
  omega

/-- The payload of the block at `b` has moved to the pointer `q`, and `b` is free. -/
structure Moved (h : Heap) (ps : List ℤ) (b : Block) (newSize : ℕ) (h' : Heap) (q : ℤ)
    (bs' : List Block) (fl' : List ℤ) : Prop where
  owned : Owned h' (q :: ps.erase (address h (b.start + 1))) bs' fl'
  base : h'.base = h.base
  len : h'.len = h.len
  notNull : q ≠ 0
  room : ∃ t ∈ bs', t.free = false ∧ q = address h (t.start + 1) ∧
    (newSize : ℤ) ≤ 4 * (t.size - 2)
  gone : ∃ m ∈ bs', m.free = true ∧ m.start ≤ b.start ∧ b.stop ≤ m.stop
  bytes : ∀ i < newSize, (i : ℤ) < 4 * (b.size - 2) →
    byteAt h' (q + i) = byteAt h (address h (b.start + 1) + i)
  kept : ∀ p ∈ ps, p ≠ address h (b.start + 1) → Kept h h' p

theorem kept_of_copyBytes (O : Owned h ps bs fl) (ht : t ∈ bs) (hf : t.free = false)
    {dest src : ℤ} {n : ℕ} (hdest : ∀ i < n, Payload t ((dest + i - h.base) / 4)) :
    ∀ p ∈ ps, p ≠ address h (t.start + 1) → Kept h (copyBytes h dest src n) p := by
  intro p hp hne
  obtain ⟨c, hc, -, -, rfl, -⟩ := owned_block O hp
  have hct : c ≠ t := by
    rintro rfl
    exact hne rfl
  have hap := (O.wf.tiles.apart hc ht).resolve_left hct
  refine kept_of_frame O.wf (owned_copyBytes O ht hf hdest).wf (copyBytes_base ..) hc hc
    fun j h₁ h₂ => copyBytes_array fun i hi heq => ?_
  obtain ⟨h₃, h₄⟩ := hdest i hi
  rw [heq] at h₃ h₄
  simp only [Block.Apart] at hap
  omega

theorem moved (O : Owned h ps bs fl) (hlen : h.len = INTS) (hb : b ∈ bs) (hf : b.free = false)
    (hi : Interior h b) (hc : c ∈ bs) (hcf : c.free = true)
    (ht : Taken h bs fl c (intsFor newSize) h' bs' fl' t) (hsize : newSize ≤ 0xFFFFFFFC) :
    ∃ bs₃ fl₃, Moved h ps b newSize (free (copyBytes h' (address h (c.start + 1))
      (address h (b.start + 1)) (copied b newSize)) (address h (b.start + 1)))
      (address h (c.start + 1)) bs₃ fl₃ := by
  have hdest := copied_payload (b := b) ht hsize
  have hap := copied_apart O hb hf hc hcf ht hsize
  have hbc : b ≠ c := by
    rintro rfl
    simp [hf] at hcf
  have htb : t ∈ bs' := (ht.blocks t).mpr (Or.inl rfl)
  have hb' : b ∈ bs' := (ht.blocks b).mpr (Or.inr (Or.inr ⟨hb, hbc⟩))
  have hbt : b ≠ t := by
    rintro rfl
    exact hbc (O.wf.tiles.eq_of_start hb hc ht.start)
  have O₁ := O.taken hc hcf ht
  have O₂ : Owned (copyBytes h' (address h (c.start + 1)) (address h (b.start + 1))
      (copied b newSize)) _ _ _ :=
    owned_copyBytes O₁ htb ht.free hdest
  set h₂ := copyBytes h' (address h (c.start + 1)) (address h (b.start + 1)) (copied b newSize)
    with hh₂
  have hbase₂ : h₂.base = h.base := (copyBytes_base ..).trans ht.base
  have hlen₂ : h₂.len = h.len := (copyBytes_len ..).trans ht.len
  have haddr : ∀ i, address h₂ i = address h i := fun i => by rw [address, address, hbase₂]
  have hi₂ : Interior h₂ b := by
    rw [Interior, hlen₂]
    exact hi
  obtain ⟨m, bs₃, fl₃, hR⟩ := free_spec O₂ (hlen₂.trans hlen) hb' hf hi₂
  have hne : address h (c.start + 1) ≠ address h (b.start + 1) := fun heq =>
    hbc (O.block_unique hb hc heq.symm)
  have hbounds := O.wf.inner_bounds hb hi
  have hcbounds := O.wf.inner_bounds hc (O.wf.inner_of_free hc hcf)
  have hbase := O.base
  have O₃ := O₂.released hb' hf hi₂ hR
  rw [hbase₂, List.erase_cons_tail (by simpa [address] using hne)] at O₃
  rw [haddr] at O₃ hR
  have htaken : t ∈ bs₃ := (O₂.taken_iff hb' hi₂ hR ht.free).mpr ⟨htb, hbt.symm⟩
  refine ⟨bs₃, fl₃, O₃, hR.base.trans hbase₂, hR.len.trans hlen₂, ?_, ⟨t, htaken, ht.free, ?_, ?_⟩,
    ⟨m, (hR.blocks m).mpr (Or.inl rfl), hR.free, hR.covers⟩, fun i hi hib => ?_, fun p hp hpb => ?_⟩
  · simp only [address]
    omega
  · rw [ht.start]
  · have := intsFor_room hsize
    have := ht.size_bounds.1
    omega
  · have hcopied : i < copied b newSize := lt_min hi (by omega)
    have hpay := hdest i hcopied
    rw [ht.base] at hpay
    calc byteAt _ (address h (c.start + 1) + i)
        = byteAt h₂ (address h (c.start + 1) + i) := by
          refine byteAt_congr hR.base (hR.frame t htb ht.free hbt.symm _ ?_ ?_) <;>
            rw [hbase₂]
          · exact hpay.1.le
          · exact hpay.2.trans (by omega)
      _ = byteAt h' (address h (b.start + 1) + i) := byteAt_copyBytes hap hcopied
      _ = byteAt h (address h (b.start + 1) + i) := by
          refine byteAt_congr ht.base (ht.frame b hb hf _ ?_ ?_) <;>
            simp only [address, Block.stop] <;> omega
  · have hpq : p ≠ address h' (t.start + 1) := by
      rintro rfl
      obtain ⟨d, hd, hdf, -, heq⟩ := (O.owners _).mp hp
      rw [address, ht.base, ht.start] at heq
      have hdc := O.block_unique hd hc heq.symm
      rw [hdc, hcf] at hdf
      cases hdf
    refine (kept_of_taken O hcf ht p hp).trans (Kept.trans (?_ : Kept h' h₂ p) ?_)
    · exact kept_of_copyBytes O₁ htb ht.free hdest p (List.mem_cons_of_mem _ hp) hpq
    · exact kept_of_released O₂ hb' hi₂ hR p (List.mem_cons_of_mem _ hp) (by rwa [haddr])

end Moved

theorem heapInit_eq (base : ℤ) : heapInit base = layOut base 0x400000 fun _ => 0 := by
  simp only [heapInit, layOut, INTS]
  norm_num

theorem inv_of_init {s : State} (h : Init s) : ∃ bs fl, Inv s bs fl := by
  cases h with
  | @heapInit base hbase hfits =>
    obtain ⟨hb, hl, W⟩ := layOut_wellFormed base (fun _ => 0)
      (show 8 ≤ 0x400000 / 4 by norm_num)
    rw [← heapInit_eq] at hb hl W
    have hlen : (heapInit base).len = INTS := by
      rw [hl, INTS]
      norm_num
    refine ⟨_, _, ⟨⟨by rw [hb]; exact hbase, by rw [hb, hlen]; exact hfits, W, ?_, fun p => ?_,
      List.nodup_nil⟩, hlen⟩⟩
    · simp only [Merged, Block.stop, List.mem_cons, List.not_mem_nil, or_false]
      rintro c (rfl | rfl | rfl) d (rfl | rfl | rfl) hcd <;> simp at hcd ⊢
    · refine iff_of_false List.not_mem_nil ?_
      rintro ⟨c, hc, hcf, hci, -⟩
      simp only [List.mem_cons, List.not_mem_nil, or_false] at hc
      rcases hc with rfl | rfl | rfl
      · exact hci.1 rfl
      · cases hcf
      · exact hci.2 (by rw [hl])

section Calls

variable {s : State} {bs : List Block} {fl : List ℤ}

theorem malloc_inv (I : Inv s bs fl) (bytes : ℕ) : ∃ h' p, malloc s.heap bytes = some (h', p) ∧
    (∃ bs' fl', Inv ⟨h', if bytes = 0 ∨ p = 0 then s.live else p :: s.live⟩ bs' fl') ∧
    ∀ r ∈ s.live, Kept s.heap h' r := by
  have O := I.owned
  by_cases hbytes : bytes = 0
  · refine ⟨s.heap, s.heap.base, by rw [malloc, if_pos hbytes], ⟨bs, fl, ?_⟩,
      fun _ _ => ⟨rfl, fun _ _ => rfl⟩⟩
    rw [if_pos (Or.inl hbytes)]
    exact I
  · rcases malloc_spec O.wf hbytes with ⟨-, hm⟩ | ⟨b, hb, hf, t, h', bs', fl', hm, ht⟩
    · refine ⟨s.heap, 0, hm, ⟨bs, fl, ?_⟩, fun _ _ => ⟨rfl, fun _ _ => rfl⟩⟩
      rw [if_pos (Or.inr rfl)]
      exact I
    · have hpos := (O.wf.inner_bounds hb (O.wf.inner_of_free hb hf)).1
      have hbase := O.base
      have hne : address s.heap (b.start + 1) ≠ 0 := by
        simp only [address]
        omega
      refine ⟨h', _, hm, ⟨bs', fl', ?_⟩, kept_of_taken O hf ht⟩
      rw [if_neg (not_or.mpr ⟨hbytes, hne⟩)]
      exact ⟨O.taken hb hf ht, ht.len.trans I.len⟩

theorem free_inv (I : Inv s bs fl) {p : ℤ} (hp : p ∈ s.live) :
    (∃ bs' fl', Inv ⟨free s.heap p, s.live.erase p⟩ bs' fl') ∧
      ∀ r ∈ s.live, r ≠ p → Kept s.heap (free s.heap p) r := by
  obtain ⟨b, hb, hf, hi, rfl, -⟩ := owned_block I.owned hp
  obtain ⟨m, bs', fl', hR⟩ := free_spec I.owned I.len hb hf hi
  exact ⟨⟨bs', fl', I.owned.released hb hf hi hR, hR.len.trans I.len⟩,
    kept_of_released I.owned hb hi hR⟩

theorem free_nothing {p : ℤ} (hp : p = 0 ∨ p = s.heap.base) : free s.heap p = s.heap := by
  rcases hp with rfl | rfl <;> simp [free]

theorem realloc_cases (I : Inv s bs fl) {p : ℤ} (hp : p ∈ s.live) {newSize : ℕ}
    (hsize : newSize ≤ 0xFFFFFFFC) :
    realloc s.heap p newSize = some (free s.heap p, 0) ∨
    ∃ h' q b bs' fl', b ∈ bs ∧ p = address s.heap (b.start + 1) ∧
      realloc s.heap p newSize = some (h', q) ∧ Moved s.heap s.live b newSize h' q bs' fl' := by
  obtain ⟨b, hb, hf, hi, rfl, -⟩ := owned_block I.owned hp
  by_cases hzero : newSize = 0
  · left
    have hbounds := I.owned.wf.inner_bounds hb hi
    have hbase := I.owned.base
    rw [realloc, if_neg (by simp only [address]; omega), if_pos hzero]
  · rcases realloc_spec I.owned I.len hb hf hi hzero with
      ⟨-, hr⟩ | ⟨c, hc, hcf, t, h', bs', fl', ht, hr⟩
    · exact Or.inl hr
    · obtain ⟨bs₃, fl₃, M⟩ := moved I.owned I.len hb hf hi hc hcf ht hsize
      exact Or.inr ⟨_, _, b, bs₃, fl₃, hb, rfl, hr, M⟩

theorem step_spec {c : Call} {t : State} (I : Inv s bs fl) (h : Step s c t) :
    (∃ bs' fl', Inv t bs' fl') ∧ ∀ p ∈ s.live, p ≠ c.target → p ∈ t.live ∧ Kept s.heap t.heap p := by
  cases h with
  | @malloc h' p bytes hsize hcall =>
    obtain ⟨h'', q, hm, hI, hkept⟩ := malloc_inv I bytes
    obtain ⟨rfl, rfl⟩ : h' = h'' ∧ p = q := by simpa [hm, eq_comm] using hcall
    refine ⟨hI, fun r hr _ => ⟨?_, hkept r hr⟩⟩
    dsimp only
    split_ifs
    exacts [hr, List.mem_cons_of_mem _ hr]
  | free p hp =>
    obtain ⟨hI, hkept⟩ := free_inv I hp
    exact ⟨hI, fun r hr hne => ⟨(List.mem_erase_of_ne hne).mpr hr, hkept r hr hne⟩⟩
  | freeNothing p hp =>
    rw [free_nothing hp]
    exact ⟨⟨bs, fl, I⟩, fun r hr _ => ⟨hr, rfl, fun _ _ => rfl⟩⟩
  | @reallocNull h' q newSize hsize hcall =>
    obtain ⟨h'', q', hm, hI, hkept⟩ := malloc_inv I newSize
    rw [realloc, if_pos rfl] at hcall
    obtain ⟨rfl, rfl⟩ : h' = h'' ∧ q = q' := by simpa [hm, eq_comm] using hcall
    refine ⟨hI, fun r hr _ => ⟨?_, hkept r hr⟩⟩
    dsimp only
    split_ifs
    exacts [hr, List.mem_cons_of_mem _ hr]
  | @realloc h' q p hp newSize hsize hcall =>
    rcases realloc_cases I hp hsize with hr | ⟨h'', q', b, bs', fl', hb, rfl, hr, M⟩
    · obtain ⟨rfl, rfl⟩ : h' = free s.heap p ∧ q = 0 := by simpa [hr, eq_comm] using hcall
      obtain ⟨hI, hkept⟩ := free_inv I hp
      refine ⟨?_, fun r hr hne => ⟨?_, hkept r hr hne⟩⟩
      · rw [if_pos rfl]
        exact hI
      · dsimp only
        rw [if_pos rfl]
        exact (List.mem_erase_of_ne hne).mpr hr
    · obtain ⟨rfl, rfl⟩ : h' = h'' ∧ q = q' := by simpa [hr, eq_comm] using hcall
      refine ⟨⟨bs', fl', ?_⟩, fun r hr hne => ⟨?_, M.kept r hr hne⟩⟩
      · rw [if_neg M.notNull]
        exact ⟨M.owned, M.len.trans I.len⟩
      · dsimp only
        rw [if_neg M.notNull]
        exact List.mem_cons_of_mem _ ((List.mem_erase_of_ne hne).mpr hr)
  | write p hp j v hj =>
    obtain ⟨b, hb, hf, -, rfl, hpay⟩ := owned_block I.owned hp
    have hj' : Payload b j := by rw [hpay] at hj; exact hj
    exact ⟨⟨bs, fl, I.owned.write hb hf hj' v, I.len⟩,
      fun r hr hne => ⟨hr, kept_of_write I.owned hp hj v r hr hne⟩⟩

end Calls

theorem inv_of_trace {es : List Call} {s : State} (h : Trace Init Step es s) :
    ∃ bs fl, Inv s bs fl :=
  h.invariant (I := fun _ s => ∃ bs fl, Inv s bs fl) (fun _ => inv_of_init)
    fun _ _ _ _ ⟨_, _, I⟩ hst => (step_spec I hst).1

end OsShell.UserHeap
