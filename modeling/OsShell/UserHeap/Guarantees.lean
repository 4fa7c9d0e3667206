import OsShell.UserHeap.Runs

/-!
# What the user heap guarantees, and what `realloc` does

Over every run the array is well formed, payloads are apart, and no call changes a
payload that it is not about. A `realloc` that succeeds has moved the content; one
that fails has freed the old block, so it leaves the heap as it was in no case.
-/

namespace OsShell.UserHeap

open FirstFit KernelHeap Tiling LinkedList Runs

/-- The heap keeps its representation over whole runs, and every call returns. -/
theorem trace_keeps {es : List Call} {s : State} (h : Trace Init Step es s) :
    (∃ bs fl, WellFormed s.heap bs fl ∧ Merged bs ∧ ∀ p, p ∈ s.live ↔
      ∃ b ∈ bs, b.free = false ∧ Interior s.heap b ∧ p = address s.heap (b.start + 1)) ∧
    s.live.Nodup ∧
    (∀ p ∈ s.live, ∀ q ∈ s.live, p ≠ q → Disjoint (payload s.heap p) (payload s.heap q)) ∧
    (∀ c t, Step s c t → ∀ p ∈ s.live, p ≠ c.target → p ∈ t.live ∧ Kept s.heap t.heap p) ∧
    (∀ bytes, ∃ r, malloc s.heap bytes = some r) ∧
    (∀ p, p = 0 ∨ p ∈ s.live → ∀ newSize ≤ 0xFFFFFFFC, ∃ r, realloc s.heap p newSize = some r) := by
  obtain ⟨bs, fl, I⟩ := inv_of_trace h
  have hmalloc : ∀ bytes, ∃ r, malloc s.heap bytes = some r := fun bytes => by
    obtain ⟨h', p, hm, -⟩ := malloc_inv I bytes
    exact ⟨_, hm⟩
  refine ⟨⟨bs, fl, I.owned.wf, I.owned.merged, I.owned.owners⟩, I.owned.nodup,
    fun p hp q hq => disjoint_of_owned I.owned hp hq, fun c t hst => (step_spec I hst).2, hmalloc,
    fun p hp newSize hsize => ?_⟩
  rcases hp with rfl | hp
  · rw [realloc, if_pos rfl]
    exact hmalloc newSize
  · rcases realloc_cases I hp hsize with hr | ⟨h', q, -, -, -, -, -, hr, -⟩
    · exact ⟨_, hr⟩
    · exact ⟨_, hr⟩

theorem eightBytes : ∃ h₁, malloc (heapInit 0x80100000) 8 = some (h₁, 0x8010000C) ∧
    Trace Init Step [.malloc 8] ⟨h₁, [0x8010000C]⟩ := by
  have hp : ((malloc (heapInit 0x80100000) 8).map fun r => r.2) = some 0x8010000C := by
    decide +kernel
  obtain ⟨⟨h₁, p⟩, hm, rfl⟩ := Option.map_eq_some_iff.mp hp
  have h0 : Trace Init Step [] ⟨heapInit 0x80100000, []⟩ :=
    .start (.heapInit (by decide) (by decide))
  have h1 := h0.step (.malloc 8 (by decide) hm)
  rw [if_neg (by decide)] at h1
  exact ⟨h₁, hm, h1⟩

theorem grown {h₁ : Heap} (hm : malloc (heapInit 0x80100000) 8 = some (h₁, 0x8010000C)) :
    ∃ h₂, realloc h₁ 0x8010000C 20 = some (h₂, 0x8010001C) := by
  have hr : ((malloc (heapInit 0x80100000) 8).bind fun r => (realloc r.1 0x8010000C 20).map
      fun r' => r'.2) = some 0x8010001C := by
    decide +kernel
  rw [hm, Option.bind_some, Option.map_eq_some_iff] at hr
  obtain ⟨⟨h₂, q⟩, hr, rfl⟩ := hr
  exact ⟨h₂, hr⟩

theorem grown_keeps : ∃ s : State, s.live = [0x8010001C] ∧ s.live.Nodup ∧
    ∃ bs fl, WellFormed s.heap bs fl ∧ Merged bs := by
  obtain ⟨h₁, hm, hs⟩ := eightBytes
  obtain ⟨h₂, hr⟩ := grown hm
  have hs' := hs.step (.realloc 0x8010000C (by simp) 20 (by decide) hr)
  obtain ⟨⟨bs, fl, W, hM, -⟩, hnd, -⟩ := trace_keeps hs'
  exact ⟨_, by simp, hnd, bs, fl, W, hM⟩

def payloadBytes (h : Heap) (p : ℤ) : ℤ := 4 * (size h ((p - h.base) / 4 - 1) - 2)

theorem payloadBytes_eq {h h' : Heap} {bs : List Block} {fl : List ℤ} (W : WellFormed h' bs fl)
    (hbase : h'.base = h.base) {b : Block} (hb : b ∈ bs) :
    payloadBytes h' (address h (b.start + 1)) = 4 * (b.size - 2) := by
  have hidx : (address h (b.start + 1) - h'.base) / 4 - 1 = b.start := by
    simp only [address]
    omega
  rw [payloadBytes, hidx, W.threaded.size_start hb]

/-- A `realloc` that succeeds has moved the content and freed the old block. -/
theorem realloc_moves {es : List Call} {s : State} (h : Trace Init Step es s) {p : ℤ}
    (hp : p ∈ s.live) {newSize : ℕ} (hsize : newSize ≤ 0xFFFFFFFC) {h' : Heap}
    {q : ℤ} (hcall : realloc s.heap p newSize = some (h', q)) (hq : q ≠ 0) :
    newSize ≤ payloadBytes h' q ∧
    (∀ i : ℕ, i < newSize → (i : ℤ) < payloadBytes s.heap p →
      byteAt h' (q + i) = byteAt s.heap (p + i)) ∧
    (∃ bs fl, Owned h' (q :: s.live.erase p) bs fl ∧ ∃ m ∈ bs, m.free = true ∧
      (p - s.heap.base) / 4 - 1 ≥ m.start ∧
      (p - s.heap.base) / 4 - 1 + size s.heap ((p - s.heap.base) / 4 - 1) ≤ m.stop) ∧
    ∀ r ∈ s.live, r ≠ p → Kept s.heap h' r := by
  obtain ⟨bs, fl, I⟩ := inv_of_trace h
  rcases realloc_cases I hp hsize with hr | ⟨h'', q', b, bs', fl', hb, rfl, hr, M⟩
  · obtain ⟨-, rfl⟩ : h' = free s.heap p ∧ q = 0 := by simpa [hr, eq_comm] using hcall
    exact absurd rfl hq
  · obtain ⟨rfl, rfl⟩ : h' = h'' ∧ q = q' := by simpa [hr, eq_comm] using hcall
    obtain ⟨t, ht, -, rfl, hroom⟩ := M.room
    obtain ⟨m, hm, hmf, hlow, hhigh⟩ := M.gone
    have hidx : (address s.heap (b.start + 1) - s.heap.base) / 4 - 1 = b.start := by
      simp only [address]
      omega
    refine ⟨?_, fun i hi hib => M.bytes i hi ?_, ⟨bs', fl', M.owned, m, hm, hmf, ?_, ?_⟩, M.kept⟩
    · rw [payloadBytes_eq M.owned.wf M.base ht]
      exact hroom
    · rwa [payloadBytes_eq I.owned.wf rfl hb] at hib
    · rw [hidx]
      exact hlow
    · rw [hidx, I.owned.wf.threaded.size_start hb]
      exact hhigh

/-- The eight bytes are in the larger block afterwards. -/
theorem grown_moves : ∃ h₁ h₂ : Heap, realloc h₁ 0x8010000C 20 = some (h₂, 0x8010001C) ∧
    (20 : ℕ) ≤ payloadBytes h₂ 0x8010001C ∧
    ∀ i : ℕ, i < 20 → (i : ℤ) < payloadBytes h₁ 0x8010000C →
      byteAt h₂ (0x8010001C + i) = byteAt h₁ (0x8010000C + i) := by
  obtain ⟨h₁, hm, hs⟩ := eightBytes
  obtain ⟨h₂, hr⟩ := grown hm
  obtain ⟨hroom, hbytes, -⟩ := realloc_moves hs (p := 0x8010000C) (by simp) (by decide) hr
    (by decide)
  exact ⟨h₁, h₂, hr, hroom, hbytes⟩

section Failure

variable {h h' : Heap} {bs bs' : List Block} {fl fl' : List ℤ} {b m : Block}

theorem malloc_null_iff (W : WellFormed h bs fl) (hbase : 0 ≤ h.base) {bytes : ℕ}
    (hbytes : bytes ≠ 0) : (∃ h', malloc h bytes = some (h', 0)) ↔
      ∀ b ∈ bs, b.free = true → b.size < intsFor bytes := by
  rcases malloc_spec W hbytes with ⟨hno, hm⟩ | ⟨c, hc, hcf, t, h', bs', fl', hm, ht⟩
  · exact iff_of_true ⟨h, hm⟩ hno
  · refine iff_of_false ?_ fun hno => absurd ht.fits (not_le.mpr (hno c hc hcf))
    rintro ⟨h'', hnull⟩
    have hpos := (W.inner_bounds hc (W.inner_of_free hc hcf)).1
    rw [hm, Option.some.injEq, Prod.mk.injEq, address] at hnull
    omega

theorem released_ne (W : WellFormed h bs fl) (hb : b ∈ bs) (hf : b.free = false)
    (hi : Interior h b) (hR : Released h bs b h' bs' fl' m) : h' ≠ h := by
  rintro rfl
  have hm := (hR.blocks m).mpr (Or.inl rfl)
  have hfl : fl' = fl := hR.wf.threaded.linked.unique W.threaded.linked
  obtain ⟨c, hc, hcf, hcm⟩ := W.threaded.listed m.start (hfl ▸ hR.wf.complete m hm hR.free)
  -- the same header, so the same size, and `b` lies inside
  have hsize : c.size = m.size := by
    rw [← W.threaded.size_start hc, hcm, hR.wf.threaded.size_start hm]
  have hbounds := (W.inner_bounds hb hi).2.1
  have hcov := hR.covers
  rcases W.tiles.apart hb hc with rfl | hap
  · rw [hf] at hcf
    nomatch hcf
  · simp only [Block.Apart, Block.stop] at hap hcov
    omega

end Failure

/-- A `realloc` that fails loses nothing if and only if it does not fail: some free block is large
enough. -/
theorem realloc_loses_nothing_iff {es : List Call} {s : State} (h : Trace Init Step es s) {p : ℤ}
    (hp : p ∈ s.live) {newSize : ℕ} (hpos : 0 < newSize) :
    (∀ h', realloc s.heap p newSize = some (h', 0) → h' = s.heap) ↔
      ∃ bs fl, WellFormed s.heap bs fl ∧ ∃ b ∈ bs, b.free = true ∧ intsFor newSize ≤ b.size := by
  obtain ⟨bs, fl, I⟩ := inv_of_trace h
  have W := I.owned.wf
  have hbase := I.owned.base
  obtain ⟨b, hb, hf, hi, rfl, -⟩ := owned_block I.owned hp
  rcases realloc_spec I.owned I.len hb hf hi (by omega : newSize ≠ 0) with
    ⟨hno, hr⟩ | ⟨c, hc, hcf, t, h₁, bs₁, fl₁, ht, hr⟩
  · obtain ⟨m, bs', fl', hR⟩ := free_spec I.owned I.len hb hf hi
    refine iff_of_false (fun hkeep => released_ne W hb hf hi hR (hkeep _ hr)) ?_
    rintro ⟨bs₂, fl₂, W₂, c, hc, hcf, hfit⟩
    have hnull := (malloc_null_iff W hbase (by omega)).mpr hno
    have := (malloc_null_iff W₂ hbase (by omega)).mp hnull c hc hcf
    omega
  · refine iff_of_true (fun h' hnull => ?_) ⟨bs, fl, W, c, hc, hcf, ht.fits⟩
    have hpos := (W.inner_bounds hc (W.inner_of_free hc hcf)).1
    rw [hr, Option.some.injEq, Prod.mk.injEq, address] at hnull
    omega

/-- A request for more than the whole array frees the eight bytes. -/
theorem oversized_frees : ∃ es s p newSize h', Trace Init Step es s ∧ p ∈ s.live ∧ 0 < newSize ∧
    realloc s.heap p newSize = some (h', 0) ∧ h' ≠ s.heap := by
  obtain ⟨h₁, hm, hs⟩ := eightBytes
  have havail : ((malloc (heapInit 0x80100000) 8).map fun r => r.1.avail) = some 6 := by
    decide +kernel
  have hr : ((malloc (heapInit 0x80100000) 8).bind fun r => (realloc r.1 0x8010000C 0x400000).map
      fun r' => (r'.2, r'.1.avail)) = some (0, 2) := by
    decide +kernel
  rw [hm] at havail hr
  rw [Option.bind_some, Option.map_eq_some_iff] at hr
  obtain ⟨⟨h₂, q⟩, hr, hq⟩ := hr
  obtain ⟨rfl, havail'⟩ := Prod.mk.inj hq
  refine ⟨_, _, 0x8010000C, 0x400000, h₂, hs, by simp, by decide, hr, fun heq => ?_⟩
  have h6 : h₁.avail = 6 := Option.some.inj havail
  have h2 : h₂.avail = 2 := havail'
  rw [heq, h6] at h2
  nomatch h2

/-- Twenty bytes fit, so nothing is lost. -/
theorem fitting_realloc : ∃ h₁ : Heap, malloc (heapInit 0x80100000) 8 = some (h₁, 0x8010000C) ∧
    ∃ bs fl, WellFormed h₁ bs fl ∧ ∃ b ∈ bs, b.free = true ∧ intsFor 20 ≤ b.size := by
  obtain ⟨h₁, hm, hs⟩ := eightBytes
  obtain ⟨h₂, hr⟩ := grown hm
  refine ⟨h₁, hm, (realloc_loses_nothing_iff hs (p := 0x8010000C) (by simp) (by decide)).mp ?_⟩
  rintro h' hnull
  rw [show realloc h₁ 0x8010000C 20 = _ from hr] at hnull
  simp at hnull

end OsShell.UserHeap
