import OsShell.KernelHeap.Runs

/-!
# What the kernel heap guarantees in every run

Well-formedness, the allocator the heap implements, and the shape the heap has
whenever nothing is allocated from it.
-/

namespace OsShell.KernelHeap

open FirstFit Tiling LinkedList Runs

theorem small_run : ∃ s, Reachable Init Step s ∧ s.heap.base = 0x100000 ∧ s.heap.len = 40 ∧
    s.live = [0x100044, 0x100034] := by
  obtain ⟨⟨h₀, lock⟩, hr₀⟩ := Option.isSome_iff_exists.mp
    (show (heapInit 0x100000 160 fun _ => 0).isSome = true by decide)
  have h₁ : ((heapInit 0x100000 160 fun _ => 0).bind fun r => (malloc r.1 8).bind fun r₁ =>
      (malloc r₁.1 20).map fun r₂ => (r₁.2, r₂.2, r₂.1.base, r₂.1.len)) =
      some (0x100034, 0x100044, 0x100000, 40) := by decide
  rw [hr₀, Option.bind_some, Option.bind_eq_some_iff] at h₁
  obtain ⟨⟨m₁, p₁⟩, hm₁, h₁⟩ := h₁
  rw [Option.map_eq_some_iff] at h₁
  obtain ⟨⟨m₂, p₂⟩, hm₂, h₁⟩ := h₁
  simp only [Prod.mk.injEq] at h₁
  obtain ⟨rfl, rfl, hb, hl⟩ := h₁
  have hr : Reachable Init Step ⟨h₀, lock, []⟩ :=
    .init (.heapInit (by norm_num) (by norm_num) (by norm_num) hr₀)
  have hr := hr.step (.malloc 8 (by norm_num) hm₁)
  exact ⟨_, hr.step (.malloc 20 (by norm_num) hm₂), hb, hl, by simp⟩

/-- Every state of every run is a well-formed heap. -/
theorem reachable_wellFormed {s : State} (h : Reachable Init Step s) :
    ∃ bs fl, WellFormed s.heap bs fl := by
  obtain ⟨bs, fl, I⟩ := inv_of_reachable h
  exact ⟨bs, fl, I.wf⟩

theorem small_run_wellFormed : ∃ s : State, s.heap.len = 40 ∧ s.live = [0x100044, 0x100034] ∧
    ∃ bs fl, WellFormed s.heap bs fl := by
  obtain ⟨s, hs, -, hl, hlive⟩ := small_run
  exact ⟨s, hl, hlive, reachable_wellFormed hs⟩

/-- The heap as an allocator: live pointers, the lock's among them, own their payloads. -/
def view (s : State) : Allocator.State ℤ ℤ ℤ :=
  ⟨{p | p ∈ s.theLock :: s.live}, payload s.heap, s.heap.array⟩

def Kept (h h' : Heap) (p : ℤ) : Prop :=
  payload h' p = payload h p ∧ ∀ j ∈ payload h p, h'.array j = h.array j

theorem Kept.trans {h h' h'' : Heap} {p : ℤ} (hk : Kept h h' p) (hk' : Kept h' h'' p) :
    Kept h h'' p :=
  ⟨hk'.1.trans hk.1, fun j hj => (hk'.2 j (hk.1 ▸ hj)).trans (hk.2 j hj)⟩

section Owners

variable {h h' : Heap} {ps : List ℤ} {bs bs' : List Block} {fl fl' : List ℤ} {b t m : Block}

theorem kept_of_frame (W : WellFormed h bs fl) (W' : WellFormed h' bs' fl')
    (hbase : h'.base = h.base) (hb : b ∈ bs) (hb' : b ∈ bs')
    (hframe : ∀ j, b.start ≤ j → j < b.stop → h'.array j = h.array j) :
    Kept h h' (address h (b.start + 1)) := by
  have haddr : address h (b.start + 1) = address h' (b.start + 1) := by simp [address, hbase]
  have hpay := payload_block W hb
  refine ⟨?_, fun j hj => ?_⟩
  · rw [hpay, haddr, payload_block W' hb']
  · rw [hpay] at hj
    exact hframe j hj.1.le (hj.2.trans (by omega))

theorem kept_of_taken (O : Owned h ps bs fl) {ints : ℤ} (hf : b.free = true)
    (ht : Taken h bs fl b ints h' bs' fl' t) : ∀ p ∈ ps, Kept h h' p := by
  intro p hp
  obtain ⟨c, hc, hcf, -, rfl, -⟩ := owned_block O hp
  have hc' : c ∈ bs' := (ht.blocks c).mpr
    (Or.inr (Or.inr ⟨hc, by rintro rfl; simp [hf] at hcf⟩))
  exact kept_of_frame O.wf ht.wf ht.base hc hc' (ht.frame c hc hcf)

theorem kept_of_released (O : Owned h ps bs fl) (hb : b ∈ bs) (hi : Interior h b)
    (hR : Released h bs b h' bs' fl' m) :
    ∀ p ∈ ps, p ≠ address h (b.start + 1) → Kept h h' p := by
  intro p hp hne
  obtain ⟨c, hc, hcf, -, rfl, -⟩ := owned_block O hp
  have hcb : c ≠ b := by rintro rfl; exact hne rfl
  exact kept_of_frame O.wf hR.wf hR.base hc ((O.taken_iff hb hi hR hcf).mpr ⟨hc, hcb⟩)
    (hR.frame c hc hcf hcb)

theorem disjoint_of_owned (O : Owned h ps bs fl) {p q : ℤ} (hp : p ∈ ps) (hq : q ∈ ps)
    (hne : p ≠ q) : Disjoint (payload h p) (payload h q) := by
  obtain ⟨b, hb, -, -, rfl, hpb⟩ := owned_block O hp
  obtain ⟨c, hc, -, -, rfl, hpc⟩ := owned_block O hq
  rw [hpb, hpc, Set.disjoint_left]
  rintro j ⟨h₁, h₂⟩ ⟨h₃, h₄⟩
  rcases O.wf.tiles.apart hb hc with rfl | hap
  · exact hne rfl
  · simp only [Block.Apart] at hap
    omega

theorem kept_of_write (O : Owned h ps bs fl) {p j : ℤ} (hp : p ∈ ps) (hj : j ∈ payload h p)
    (v : ℤ) : ∀ q ∈ ps, q ≠ p → Kept h (h.store j v) q := by
  intro q hq hne
  obtain ⟨b, hb, hf, -, rfl, hpay⟩ := owned_block O hp
  obtain ⟨c, hc, -, -, rfl, hpc⟩ := owned_block O hq
  have hj' : Payload b j := by rw [hpay] at hj; exact hj
  refine ⟨?_, fun i hi => h.store_of_ne v ?_⟩
  · rw [hpc]
    exact payload_block (O.wf.write hb hf hj' v) hc
  · rintro rfl
    exact Set.disjoint_left.mp (disjoint_of_owned O hq hp hne) hi hj

end Owners

theorem malloc_kept {s : State} {bs : List Block} {fl : List ℤ} (I : Inv s bs fl) (bytes : ℕ) :
    ∃ h' r, malloc s.heap bytes = some (h', r) ∧ ∀ p ∈ s.theLock :: s.live, Kept s.heap h' p := by
  by_cases hbytes : bytes = 0
  · exact ⟨s.heap, s.heap.base, by simp [malloc, hbytes], fun p _ => ⟨rfl, fun _ _ => rfl⟩⟩
  · rcases malloc_spec I.wf I.len_le hbytes with ⟨-, hm⟩ | ⟨b, hb, hf, t, h', bs', fl', hm, ht⟩
    · exact ⟨s.heap, 0, hm, fun p _ => ⟨rfl, fun _ _ => rfl⟩⟩
    · exact ⟨h', _, hm, kept_of_taken I.owned hf ht⟩

theorem free_kept {s : State} {bs : List Block} {fl : List ℤ} (I : Inv s bs fl) {q : ℤ}
    (hq : q ∈ s.live) :
    ∃ h', free s.heap q = some h' ∧ ∀ p ∈ s.theLock :: s.live, p ≠ q → Kept s.heap h' p := by
  obtain ⟨b, hb, hf, hi, rfl, -⟩ := I.block (List.mem_cons_of_mem _ hq)
  obtain ⟨m, h', bs', fl', hm, hR⟩ := free_spec I.wf I.base I.fits hb hf hi
  exact ⟨h', hm, kept_of_released I.owned hb hi hR⟩

theorem disjoint_payloads {s : State} {bs : List Block} {fl : List ℤ} (I : Inv s bs fl) {p q : ℤ}
    (hp : p ∈ s.theLock :: s.live) (hq : q ∈ s.theLock :: s.live) (hne : p ≠ q) :
    Disjoint (payload s.heap p) (payload s.heap q) :=
  disjoint_of_owned I.owned hp hq hne

theorem step_refines {s t : State} {bs : List Block} {fl : List ℤ} (I : Inv s bs fl)
    (h : Step s t) : Allocator.Step (view s) (view t) := by
  obtain ⟨bs', fl', I'⟩ := inv_of_step ⟨bs, fl, I⟩ h
  cases h with
  | @malloc h' p bytes hsize hcall =>
    obtain ⟨h'', r, hm, hkept⟩ := malloc_kept I bytes
    obtain ⟨rfl, rfl⟩ : h' = h'' ∧ p = r := by simpa [hm, eq_comm] using hcall
    by_cases hnone : bytes = 0 ∨ p = 0
    · rw [if_pos hnone]
      exact .skip rfl fun q hq => hkept q hq
    · rw [if_neg hnone] at I' ⊢
      have hperm : (s.theLock :: p :: s.live).Perm (p :: s.theLock :: s.live) :=
        List.Perm.swap _ _ _
      have hfresh := (List.nodup_cons.mp (hperm.nodup_iff.mp I'.nodup)).1
      refine .alloc p hfresh (fun q hq => ?_) (Set.ext fun q => hperm.mem_iff.trans List.mem_cons)
        fun q hq => hkept q hq
      have hd := disjoint_payloads I' (p := p) (q := q) (by simp)
        (hperm.mem_iff.mpr (List.mem_cons_of_mem _ hq)) (by rintro rfl; exact hfresh hq)
      change Disjoint (payload h' p) (payload s.heap q)
      rw [← (hkept q hq).1]
      exact hd
  | @free h' q hq hcall =>
    obtain ⟨h'', hm, hkept⟩ := free_kept I hq
    obtain rfl : h' = h'' := by simpa [hm, eq_comm] using hcall
    obtain ⟨hlock, hnd⟩ := List.nodup_cons.mp I.nodup
    refine .release q (List.mem_cons_of_mem _ hq) (Set.ext fun p => ?_) fun p hp => hkept p hp.1 hp.2
    simp only [view, Set.mem_sdiff, Set.mem_singleton_iff, Set.mem_ofPred_eq, List.mem_cons,
      hnd.mem_erase_iff]
    constructor
    · rintro (rfl | ⟨hne, hp⟩)
      exacts [⟨Or.inl rfl, by rintro rfl; exact hlock hq⟩, ⟨Or.inr hp, hne⟩]
    · rintro ⟨rfl | hp, hne⟩
      exacts [Or.inl rfl, Or.inr ⟨hne, hp⟩]
  | @freeNothing h' p hp hcall =>
    have hsame : free s.heap p = some s.heap := by
      rcases hp with rfl | rfl <;> simp [free]
    obtain rfl : s.heap = h' := by simpa [hsame] using hcall
    exact .skip rfl fun q _ => ⟨rfl, fun _ _ => rfl⟩
  | write p hp j v hj =>
    obtain ⟨b, hb, hf, hi, rfl, hpay⟩ := I.block hp
    have hkept : ∀ q ∈ s.theLock :: s.live, payload (s.heap.store j v) q = payload s.heap q := by
      intro q hq
      obtain ⟨c, hc, -, -, rfl, hpc⟩ := I.block hq
      rw [hpc]
      exact payload_block (I.wf.write hb hf (by rw [hpay] at hj; exact hj) v) hc
    exact .write _ hp rfl hkept fun q hq => kept_of_write I.owned hp hj v q hq.1 hq.2

theorem separated_of_init {s : State} (h : Init s) : Allocator.Separated (view s) := by
  cases h with
  | heapInit hbase hfits hwords hinit =>
    intro p hp q hq hne
    obtain rfl := List.mem_singleton.mp hp
    obtain rfl := List.mem_singleton.mp hq
    exact absurd rfl hne

theorem separated_of_reachable {s : State} (h : Reachable Init Step s) :
    Allocator.Separated (view s) := by
  have hinv := h.invariant (I := fun s => (∃ bs fl, Inv s bs fl) ∧ Allocator.Separated (view s))
    (fun t ht => ⟨inv_of_init ht, separated_of_init ht⟩) fun t u hI htu => ⟨inv_of_step hI.1 htu, ?_⟩
  · exact hinv.2
  · obtain ⟨⟨bs, fl, I⟩, hseparated⟩ := hI
    exact (step_refines I htu).separated hseparated

/-- The heap is the allocator it is meant to be: it refines one, payloads are apart, inside the
heap and clear of its own words, and no call touches a payload it is not about. -/
theorem reachable_payloads {s : State} (h : Reachable Init Step s) :
    (∀ t, Step s t → Allocator.Step (view s) (view t)) ∧
    s.live.Nodup ∧
    (∀ p ∈ s.live, ∀ q ∈ s.live, p ≠ q → Disjoint (payload s.heap p) (payload s.heap q)) ∧
    (∃ bs fl, WellFormed s.heap bs fl ∧ ∀ p ∈ s.live, ∀ j ∈ payload s.heap p,
      (0 ≤ j ∧ j < s.heap.len) ∧ (∀ b ∈ bs, j ≠ b.start ∧ j ≠ b.stop - 1) ∧
        ¬ IsLink {b | b ∈ bs} j) ∧
    (∀ bytes, bytes < 2 ^ 32 →
      ∃ h' r, malloc s.heap bytes = some (h', r) ∧ ∀ p ∈ s.live, Kept s.heap h' p) ∧
    (∀ q ∈ s.live, ∃ h', free s.heap q = some h' ∧ ∀ p ∈ s.live, p ≠ q → Kept s.heap h' p) := by
  obtain ⟨bs, fl, I⟩ := inv_of_reachable h
  have hmem : ∀ p ∈ s.live, p ∈ s.theLock :: s.live := fun p => List.mem_cons_of_mem _
  refine ⟨fun t => step_refines I, (List.nodup_cons.mp I.nodup).2,
    fun p hp q hq => separated_of_reachable h p (hmem p hp) q (hmem q hq),
    ⟨bs, fl, I.wf, fun p hp j hj => ?_⟩, fun bytes _ => ?_, fun q hq => ?_⟩
  · obtain ⟨b, hb, hf, hi, rfl, hpay⟩ := I.block (hmem p hp)
    rw [hpay] at hj
    obtain ⟨h₁, h₂⟩ := hj
    have hbounds := I.wf.tiles.bounds hb
    refine ⟨by omega, fun c hc => ?_, I.wf.not_isLink hb hf h₁.le (by omega)⟩
    have hcp := (I.wf.tiles.bounds hc).2.1
    rcases I.wf.tiles.apart hb hc with rfl | hap
    · omega
    · simp only [Block.Apart, Block.stop] at *
      omega
  · obtain ⟨h', r, hm, hkept⟩ := malloc_kept I bytes
    exact ⟨h', r, hm, fun p hp => hkept p (hmem p hp)⟩
  · obtain ⟨h', hm, hkept⟩ := free_kept I hq
    exact ⟨h', hm, fun p hp => hkept p (hmem p hp)⟩

theorem small_run_payloads : ∃ s : State, s.live = [0x100044, 0x100034] ∧
    Disjoint (payload s.heap 0x100044) (payload s.heap 0x100034) ∧
    ∃ h', free s.heap 0x100034 = some h' ∧ Kept s.heap h' 0x100044 := by
  obtain ⟨s, hs, -, -, hlive⟩ := small_run
  obtain ⟨-, -, hd, -, -, hfree⟩ := reachable_payloads hs
  obtain ⟨h', hm, hkept⟩ := hfree 0x100034 (by simp [hlive])
  exact ⟨s, hlive, hd _ (by simp [hlive]) _ (by simp [hlive]) (by norm_num), h', hm,
    hkept _ (by simp [hlive]) (by norm_num)⟩

structure SoleFree (h : Heap) (i n : ℤ) : Prop where
  avail : h.avail = i
  header : h.array i = n
  footer : h.array (i + n - 1) = n
  next : next h i = 0
  prev : prev h i = 0

theorem soleFree_of_wellFormed {h : Heap} {bs : List Block} {i n : ℤ}
    (W : WellFormed h bs [i]) (hb : ⟨i, n, true⟩ ∈ bs) : SoleFree h i n := by
  have hl := W.threaded.linked
  exact ⟨hl.1, W.threaded.header _ hb, W.threaded.footer _ hb, hl.1 ▸ hl.2.2.2, hl.2.2.1⟩

theorem malloc_succeeds {s : State} {bs : List Block} {fl : List ℤ} (I : Inv s bs fl) {b : Block}
    (hb : b ∈ bs) (hf : b.free = true) {bytes : ℕ} (hle : (bytes : ℤ) ≤ (b.size - 2) * 4) :
    ∃ h' p, malloc s.heap bytes = some (h', p) ∧ (bytes ≠ 0 → p ≠ 0) := by
  by_cases hbytes : bytes = 0
  · exact ⟨s.heap, s.heap.base, by simp [malloc, hbytes], fun h => absurd hbytes h⟩
  have hstop := (I.wf.tiles.bounds hb).2.2
  have hstart := (I.wf.tiles.bounds hb).1
  have hroom := (I.wf.threaded.room b hb hf).1
  have hlen := I.len_le
  simp only [Block.stop] at hstop
  have hints : intsFor bytes ≤ b.size := by
    have hmod : (bytes + 3) % 2 ^ 32 = bytes + 3 := Nat.mod_eq_of_lt (by omega)
    simp only [intsFor, hmod]
    split_ifs <;> omega
  rcases malloc_spec I.wf hlen hbytes with ⟨hno, -⟩ | ⟨c, hc, hcf, t, h', bs', fl', hm, ht⟩
  · have := hno b hb hf
    omega
  · refine ⟨h', _, hm, fun _ => ?_⟩
    have hpos := (I.wf.inner_bounds hc (I.wf.inner_of_free hc hcf)).1
    have hbase := I.base
    simp only [address]
    omega

/-- Free blocks never touch, and a heap that nothing but its lock is allocated from has the shape
`heapInit` left: the lock's ten words and one free block of all the rest. -/
theorem reachable_merged {s : State} (h : Reachable Init Step s) :
    (∃ bs fl, WellFormed s.heap bs fl ∧ Merged bs) ∧
    (s.live = [] → 18 ≤ s.heap.len →
      WellFormed s.heap [⟨0, 2, false⟩, ⟨2, 10, false⟩, ⟨12, s.heap.len - 14, true⟩,
        ⟨s.heap.len - 2, 2, false⟩] [12] ∧
      SoleFree s.heap 12 (s.heap.len - 14) ∧
      ∀ bytes : ℕ, (bytes : ℤ) ≤ (s.heap.len - 16) * 4 →
        ∃ h' p, malloc s.heap bytes = some (h', p) ∧ (bytes ≠ 0 → p ≠ 0)) ∧
    (s.live = [] → s.heap.len < 18 →
      WellFormed s.heap [⟨0, 2, false⟩, ⟨2, s.heap.len - 4, false⟩, ⟨s.heap.len - 2, 2, false⟩]
        []) := by
  obtain ⟨bs, fl, I⟩ := inv_of_reachable h
  refine ⟨⟨bs, fl, I.wf, I.merged⟩, fun hlive h18 => ?_, fun hlive h18 => ?_⟩
  · have hbs := blocks_of_idle I hlive
    rw [if_pos h18, lockWords, if_pos h18] at hbs
    have hfl : fl = [12] := by
      refine List.perm_singleton.mp ((List.perm_ext_iff_of_nodup I.wf.threaded.nodup
        (List.nodup_singleton _)).mpr fun i => ⟨fun hi => ?_, fun hi => ?_⟩)
      · obtain ⟨b, hb, hf, rfl⟩ := I.wf.threaded.listed i hi
        simp only [hbs, Set.mem_ofPred_eq, List.cons_append, List.nil_append, List.mem_cons,
          List.not_mem_nil, or_false] at hb
        rcases hb with rfl | rfl | rfl | rfl <;> simp at hf ⊢
      · obtain rfl := List.mem_singleton.mp hi
        exact I.wf.complete ⟨12, s.heap.len - 14, true⟩ (by simp [hbs]) rfl
    subst hbs hfl
    have hb : (⟨12, s.heap.len - 14, true⟩ : Block) ∈ (⟨0, 2, false⟩ :: ⟨2, 10, false⟩ ::
        [⟨12, s.heap.len - 14, true⟩] ++ [⟨s.heap.len - 2, 2, false⟩] : List Block) := by simp
    exact ⟨I.wf, soleFree_of_wellFormed I.wf hb, fun bytes hle =>
      malloc_succeeds I hb rfl (by simp only; omega)⟩
  · have hbs := blocks_of_idle I hlive
    rw [if_neg (by omega), lockWords, if_neg (by omega)] at hbs
    have hfl : fl = [] := List.eq_nil_iff_forall_not_mem.mpr fun i hi => by
      obtain ⟨b, hb, hf, rfl⟩ := I.wf.threaded.listed i hi
      simp only [hbs, Set.mem_ofPred_eq, List.cons_append, List.nil_append, List.mem_cons,
        List.not_mem_nil, or_false] at hb
      rcases hb with rfl | rfl | rfl <;> simp at hf
    subst hbs hfl
    exact I.wf

/-- Two blocks are taken and freed in the same order: the second is merged with both its neighbours. -/
theorem freed_heap_merged : ∃ h₀ lock h₁ p h₂ q h₃ h₄,
    heapInit 0x100000 160 (fun _ => 0) = some (h₀, lock) ∧ malloc h₀ 8 = some (h₁, p) ∧
      malloc h₁ 20 = some (h₂, q) ∧ free h₂ p = some h₃ ∧ free h₃ q = some h₄ ∧
      p ≠ 0 ∧ q ≠ 0 ∧ SoleFree h₄ 12 26 := by
  have hrun : ((heapInit 0x100000 160 fun _ => 0).bind fun r => (malloc r.1 8).bind fun r₁ =>
      (malloc r₁.1 20).bind fun r₂ => (free r₂.1 r₁.2).bind fun h₃ => (free h₃ r₂.2).map fun h₄ =>
        (r₁.2, r₂.2, h₄.len)) = some (0x100034, 0x100044, 40) := by
    decide
  obtain ⟨⟨h₀, lock⟩, hinit, hrun⟩ := Option.bind_eq_some_iff.mp hrun
  obtain ⟨⟨h₁, p⟩, hfirst, hrun⟩ := Option.bind_eq_some_iff.mp hrun
  obtain ⟨⟨h₂, q⟩, hsecond, hrun⟩ := Option.bind_eq_some_iff.mp hrun
  obtain ⟨h₃, hfree, hrun⟩ := Option.bind_eq_some_iff.mp hrun
  obtain ⟨h₄, hlast, hrun⟩ := Option.map_eq_some_iff.mp hrun
  simp only [Prod.mk.injEq] at hrun hfirst hsecond hfree hlast
  obtain ⟨rfl, rfl, hlen⟩ := hrun
  have hs₀ : Reachable Init Step ⟨h₀, lock, []⟩ :=
    .init (.heapInit (by norm_num) (by norm_num) (by norm_num) hinit)
  have hs₁ : Reachable Init Step ⟨h₁, lock, [0x100034]⟩ := by
    simpa using hs₀.step (.malloc 8 (by norm_num) hfirst)
  have hs₂ : Reachable Init Step ⟨h₂, lock, [0x100044, 0x100034]⟩ := by
    simpa using hs₁.step (.malloc 20 (by norm_num) hsecond)
  have hs₃ : Reachable Init Step ⟨h₃, lock, [0x100044]⟩ := by
    simpa using hs₂.step (.free 0x100034 (by simp) hfree)
  have hs₄ : Reachable Init Step ⟨h₄, lock, []⟩ := by
    simpa using hs₃.step (.free 0x100044 (by simp) hlast)
  have hsole := ((reachable_merged hs₄).2.1 rfl (by simp [hlen])).2.1
  simp only [hlen] at hsole
  exact ⟨h₀, lock, h₁, _, h₂, _, h₃, h₄, hinit, hfirst, hsecond, hfree, hlast, by decide, by decide,
    hsole⟩

/-- The lock is never freed, so the heap never again has the shape it had before the lock. -/
theorem fresh_heap_not_bare : ¬ ∀ s : State, Reachable Init Step s →
    (∃ bs fl, WellFormed s.heap bs fl ∧ Merged bs) ∧
    (s.live = [] → SoleFree s.heap 2 (s.heap.len - 4) ∧
      ∀ bytes : ℕ, (bytes : ℤ) ≤ (s.heap.len - 6) * 4 →
        ∃ h' p, malloc s.heap bytes = some (h', p) ∧ (bytes ≠ 0 → p ≠ 0)) := by
  intro hall
  obtain ⟨⟨h, lock⟩, hr⟩ := Option.isSome_iff_exists.mp
    (show (heapInit 0x100000 80 fun _ => 0).isSome = true by decide)
  have havail : ((heapInit 0x100000 80 fun _ => 0).map fun r => r.1.avail) = some 12 := by decide
  simp only [hr, Option.map_some, Option.some.injEq] at havail
  have hbare := ((hall _ (Reachable.init
    (Init.heapInit (by norm_num) (by norm_num) (by norm_num) hr))).2 rfl).1.avail
  simp [havail] at hbare

end OsShell.KernelHeap
