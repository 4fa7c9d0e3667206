import OsShell.FirstFit.Owners
import OsShell.KernelHeap.Operations
import OsShell.Library.Allocator
import OsShell.Library.Runs

/-!
# Runs of the kernel heap

A run starts where `heapInit` returns and is any sequence of `malloc`, `free`
of live pointers and writes into payloads. `theLock` is a block of this heap
too: `heapInit` allocates it, and its owner, the lock, writes into its payload
whenever a call takes or releases it.
-/

namespace OsShell.KernelHeap

open FirstFit Tiling LinkedList Runs

structure State where
  heap : Heap
  theLock : ℤ
  live : List ℤ

/-- The words strictly between the header and the footer of the block malloc returned as `p`. -/
def payload (h : Heap) (p : ℤ) : Set ℤ :=
  let i := (p - h.base) / 4 - 1
  {j | i < j ∧ j < footerFromHeader h i}

inductive Init : State → Prop
  | heapInit {base : ℤ} {bytes : ℕ} {memory : ℤ → ℤ} {h : Heap} {lock : ℤ} (hbase : 0 ≤ base)
      (hfits : base + bytes ≤ 2 ^ 32) (hwords : 8 ≤ bytes / 4)
      (hinit : heapInit base bytes memory = some (h, lock)) : Init ⟨h, lock, []⟩

inductive Step : State → State → Prop
  | malloc {s : State} {h' : Heap} {p : ℤ} (bytes : ℕ) (hsize : bytes < 2 ^ 32)
      (hcall : malloc s.heap bytes = some (h', p)) :
      Step s ⟨h', s.theLock, if bytes = 0 ∨ p = 0 then s.live else p :: s.live⟩
  | free {s : State} {h' : Heap} (p : ℤ) (hp : p ∈ s.live) (hcall : free s.heap p = some h') :
      Step s ⟨h', s.theLock, s.live.erase p⟩
  -- what `malloc` returns when it fails, and for a request of no bytes, may be freed too
  | freeNothing {s : State} {h' : Heap} (p : ℤ) (hp : p = 0 ∨ p = s.heap.base)
      (hcall : free s.heap p = some h') : Step s ⟨h', s.theLock, s.live⟩
  | write {s : State} (p : ℤ) (hp : p ∈ s.theLock :: s.live) (j v : ℤ)
      (hj : j ∈ payload s.heap p) : Step s ⟨s.heap.store j v, s.theLock, s.live⟩

/-- The words of the block that holds `theLock`: the whole heap, if what is left over is too
small for a block. -/
def lockWords (len : ℤ) : ℤ := if 18 ≤ len then 10 else len - 4

/-- The taken blocks between the sentinels are exactly those of the live pointers and the lock. -/
structure Inv (s : State) (bs : List Block) (fl : List ℤ) : Prop where
  base : 0 ≤ s.heap.base
  fits : s.heap.base + 4 * s.heap.len ≤ 2 ^ 32
  wf : WellFormed s.heap bs fl
  merged : Merged bs
  owners : ∀ p, p ∈ s.theLock :: s.live ↔
    ∃ b ∈ bs, b.free = false ∧ Interior s.heap b ∧ p = address s.heap (b.start + 1)
  nodup : (s.theLock :: s.live).Nodup
  lock : s.theLock = address s.heap 3 ∧ ⟨2, lockWords s.heap.len, false⟩ ∈ bs

theorem payload_block {h : Heap} {bs : List Block} {fl : List ℤ} {b : Block}
    (W : WellFormed h bs fl) (hb : b ∈ bs) :
    payload h (address h (b.start + 1)) = {j | Payload b j} := by
  have hidx : (address h (b.start + 1) - h.base) / 4 - 1 = b.start := by
    simp only [address]
    omega
  ext j
  simp only [payload, hidx, footerFromHeader, W.threaded.size_start hb, Payload, Block.stop]

theorem owned_block {h : Heap} {ps : List ℤ} {bs : List Block} {fl : List ℤ} (O : Owned h ps bs fl)
    {p : ℤ} (hp : p ∈ ps) : ∃ b ∈ bs, b.free = false ∧ Interior h b ∧
      p = address h (b.start + 1) ∧ payload h p = {j | Payload b j} := by
  obtain ⟨b, hb, hf, hi, rfl⟩ := (O.owners p).mp hp
  exact ⟨b, hb, hf, hi, rfl, payload_block O.wf hb⟩

namespace Inv

variable {s : State} {bs : List Block} {fl : List ℤ}

theorem owned (I : Inv s bs fl) : Owned s.heap (s.theLock :: s.live) bs fl :=
  ⟨I.base, I.fits, I.wf, I.merged, I.owners, I.nodup⟩

theorem len_le (I : Inv s bs fl) : s.heap.len ≤ 2 ^ 30 := I.owned.len_le

theorem block (I : Inv s bs fl) {p : ℤ} (hp : p ∈ s.theLock :: s.live) :
    ∃ b ∈ bs, b.free = false ∧ Interior s.heap b ∧ p = address s.heap (b.start + 1) ∧
      payload s.heap p = {j | Payload b j} :=
  owned_block I.owned hp

theorem taken (I : Inv s bs fl) {b t : Block} {ints : ℤ} {h' : Heap} {bs' : List Block}
    {fl' : List ℤ} (hb : b ∈ bs) (hf : b.free = true)
    (ht : Taken s.heap bs fl b ints h' bs' fl' t) :
    Inv ⟨h', s.theLock, address s.heap (b.start + 1) :: s.live⟩ bs' fl' := by
  have O := (I.owned.taken hb hf ht).perm (List.Perm.swap _ _ _)
  have hkept : (⟨2, lockWords s.heap.len, false⟩ : Block) ≠ b := by
    rintro rfl
    cases hf
  refine ⟨O.base, O.fits, O.wf, O.merged, O.owners, O.nodup, ?_, ?_⟩
  · rw [I.lock.1, address, address, ht.base]
  · rw [ht.len]
    exact (ht.blocks _).mpr (Or.inr (Or.inr ⟨I.lock.2, hkept⟩))

theorem released (I : Inv s bs fl) {b m : Block} {h' : Heap} {bs' : List Block} {fl' : List ℤ}
    (hb : b ∈ bs) (hf : b.free = false) (hi : Interior s.heap b)
    (hl : address s.heap (b.start + 1) ∈ s.live) (hR : Released s.heap bs b h' bs' fl' m) :
    Inv ⟨h', s.theLock, s.live.erase (address s.heap (b.start + 1))⟩ bs' fl' := by
  have hne : s.theLock ≠ address s.heap (b.start + 1) := fun heq =>
    (List.nodup_cons.mp I.nodup).1 (heq ▸ hl)
  have O := I.owned.released hb hf hi hR
  rw [List.erase_cons_tail (by simpa [address] using hne)] at O
  refine ⟨O.base, O.fits, O.wf, O.merged, O.owners, O.nodup, ?_, ?_⟩
  · rw [I.lock.1, address, address, hR.base]
  · rw [hR.len]
    refine (I.owned.taken_iff hb hi hR rfl).mpr ⟨I.lock.2, ?_⟩
    rintro rfl
    exact hne I.lock.1

theorem write (I : Inv s bs fl) {p j : ℤ} (hp : p ∈ s.theLock :: s.live)
    (hj : j ∈ payload s.heap p) (v : ℤ) : Inv ⟨s.heap.store j v, s.theLock, s.live⟩ bs fl := by
  obtain ⟨b, hb, hf, hi, -, hpay⟩ := I.block hp
  rw [hpay] at hj
  exact ⟨I.base, I.fits, I.wf.write hb hf hj v, I.merged, I.owners, I.nodup, I.lock⟩

end Inv

theorem constructLock_wellFormed {h : Heap} {bs : List Block} {fl : List ℤ} {t : Block}
    (W : WellFormed h bs fl) (ht : t ∈ bs) (hf : t.free = false) (hsize : 10 ≤ t.size) :
    WellFormed (constructLock h (t.start + 1)) bs fl := by
  have hp : ∀ k, 1 ≤ k → k ≤ 8 → Payload t (t.start + k) := fun k h₁ h₂ => by
    simp only [Payload, Block.stop]
    omega
  have hp' : ∀ k, 0 ≤ k → k ≤ 7 → Payload t (t.start + 1 + k) := fun k h₁ h₂ => by
    rw [add_assoc]
    exact hp _ (by omega) (by omega)
  have W₁ := (W.write ht hf (hp 1 (by omega) (by omega)) 1).write ht hf
    (hp' 1 (by omega) (by omega)) 0
  have W₂ := (W₁.write ht hf (hp' 2 (by omega) (by omega)) 0).write ht hf
    (hp' 3 (by omega) (by omega)) 0
  have W₃ := (W₂.write ht hf (hp' 4 (by omega) (by omega)) 0).write ht hf
    (hp' 5 (by omega) (by omega)) 0
  exact W₃.write ht hf (hp' 7 (by omega) (by omega)) 0

/-- The lock is the first block of the fresh heap; a heap too small for it panics. -/
theorem inv_of_init {s : State} (h : Init s) : ∃ bs fl, Inv s bs fl := by
  cases h with
  | @heapInit base bytes memory h lock hbase hfits hwords hinit =>
    obtain ⟨hb₀, hl₀, W⟩ := layOut_wellFormed base memory hwords
    set h₀ := layOut base bytes memory with hh₀
    rw [heapInit, newBlockingLock, blockingLockBytes, ← hh₀] at hinit
    rcases malloc_spec W (by omega) (show (32 : ℕ) ≠ 0 by norm_num) with
      ⟨-, hm⟩ | ⟨b, hb, hf, t, h', bs', fl', hm, ht⟩
    · simp [hm] at hinit
    obtain rfl : b = ⟨2, ((bytes / 4 : ℕ) : ℤ) - 4, true⟩ := by
      simp only [List.mem_cons, List.not_mem_nil, or_false] at hb
      rcases hb with rfl | rfl | rfl
      exacts [absurd hf (by simp), rfl, absurd hf (by simp)]
    have hints : intsFor 32 = 10 := by decide
    rw [hints] at ht
    have hstart : t.start = 2 := ht.start
    have hidx : (address h₀ (2 + 1) - h'.base) / 4 = t.start + 1 := by
      rw [ht.base, hstart]
      simp only [address]
      omega
    have hne : address h₀ (2 + 1) ≠ 0 := by
      simp only [address]
      omega
    rw [hm] at hinit
    simp only [if_neg hne, hidx, Option.some.injEq, Prod.mk.injEq] at hinit
    obtain ⟨rfl, rfl⟩ := hinit
    have htb : t ∈ bs' := (ht.blocks t).mpr (Or.inl rfl)
    have W' := constructLock_wellFormed ht.wf htb ht.free ht.size_bounds.1
    have hbase' : (constructLock h' (t.start + 1)).base = base := ht.base.trans hb₀
    have hlen' : (constructLock h' (t.start + 1)).len = (bytes / 4 : ℕ) := ht.len.trans hl₀
    have hmerged : Merged [⟨0, 2, false⟩, ⟨2, ((bytes / 4 : ℕ) : ℤ) - 4, true⟩,
        ⟨((bytes / 4 : ℕ) : ℤ) - 2, 2, false⟩] := by
      simp only [Merged, Block.stop, List.mem_cons, List.not_mem_nil, or_false]
      rintro c (rfl | rfl | rfl) d (rfl | rfl | rfl) hcd <;> simp at hcd ⊢
      omega
    have hinner : Interior (constructLock h' (t.start + 1)) t :=
      ⟨by omega, by rw [hlen', hstart]; omega⟩
    have haddr : address (constructLock h' (t.start + 1)) (t.start + 1) = address h₀ (2 + 1) := by
      unfold address
      rw [hbase', hb₀, hstart]
    refine ⟨bs', fl', ⟨by rw [hbase']; exact hbase, by rw [hbase', hlen']; omega, W',
      ht.merged hmerged, fun p => ?_, by simp, ?_, ?_⟩⟩
    · simp only [List.mem_singleton]
      constructor
      · rintro rfl
        exact ⟨t, htb, ht.free, hinner, haddr.symm⟩
      · rintro ⟨c, hc, hcf, hci, rfl⟩
        rcases (ht.blocks c).mp hc with rfl | ⟨-, rfl⟩ | ⟨hc, hcb⟩
        · exact haddr
        · cases hcf
        · simp only [List.mem_cons, List.not_mem_nil, or_false] at hc
          rcases hc with rfl | rfl | rfl
          · exact absurd rfl hci.1
          · exact absurd rfl hcb
          · exact absurd (by rw [hlen']) hci.2
    · simp only [address, hbase', hb₀]
      norm_num
    · have hsize : t.size = lockWords (bytes / 4 : ℕ) := by
        simp only [ht.size, lockWords]
        split_ifs <;> omega
      have ht' : t = ⟨2, lockWords (bytes / 4 : ℕ), false⟩ := by
        rw [← hsize, ← hstart, ← ht.free]
      rw [hlen', ← ht']
      exact htb

theorem inv_of_step {s t : State} (hI : ∃ bs fl, Inv s bs fl) (h : Step s t) :
    ∃ bs fl, Inv t bs fl := by
  obtain ⟨bs, fl, I⟩ := hI
  cases h with
  | malloc bytes hsize hcall =>
    by_cases hbytes : bytes = 0
    · simp only [malloc, if_pos hbytes, Option.some.injEq, Prod.mk.injEq] at hcall
      obtain ⟨rfl, -⟩ := hcall
      simpa only [hbytes, true_or, if_true] using ⟨bs, fl, I⟩
    · rcases malloc_spec I.wf I.len_le hbytes with ⟨-, hm⟩ | ⟨b, hb, hf, t, h', bs', fl', hm, ht⟩
      · obtain ⟨rfl, rfl⟩ : s.heap = _ ∧ (0 : ℤ) = _ := by simpa [hm] using hcall
        simpa only [or_true, if_true] using ⟨bs, fl, I⟩
      · obtain ⟨rfl, rfl⟩ : h' = _ ∧ address s.heap (b.start + 1) = _ := by
          simpa [hm] using hcall
        have hpos := (I.wf.inner_bounds hb (I.wf.inner_of_free hb hf)).1
        have hbase := I.base
        have hne : address s.heap (b.start + 1) ≠ 0 := by
          simp only [address]
          omega
        simpa only [hbytes, hne, or_self, if_false] using ⟨bs', fl', I.taken hb hf ht⟩
  | free p hp hcall =>
    obtain ⟨b, hb, hf, hi, rfl, -⟩ := I.block (List.mem_cons_of_mem _ hp)
    obtain ⟨m, h', bs', fl', hm, hR⟩ := free_spec I.wf I.base I.fits hb hf hi
    obtain rfl : h' = _ := by simpa [hm] using hcall
    exact ⟨bs', fl', I.released hb hf hi hp hR⟩
  | freeNothing p hp hcall =>
    have hsame : free s.heap p = some s.heap := by
      rcases hp with rfl | rfl <;> simp [free]
    obtain rfl : s.heap = _ := by simpa [hsame] using hcall
    exact ⟨bs, fl, I⟩
  | write p hp j v hj => exact ⟨bs, fl, I.write hp hj v⟩

theorem inv_of_reachable {s : State} (h : Reachable Init Step s) : ∃ bs fl, Inv s bs fl :=
  h.invariant (I := fun s => ∃ bs fl, Inv s bs fl) (fun _ => inv_of_init) fun _ _ => inv_of_step

theorem blocks_of_idle {s : State} {bs : List Block} {fl : List ℤ} (I : Inv s bs fl)
    (hlive : s.live = []) :
    bs = ⟨0, 2, false⟩ :: ⟨2, lockWords s.heap.len, false⟩ ::
      (if 18 ≤ s.heap.len then [⟨12, s.heap.len - 14, true⟩] else []) ++
        [⟨s.heap.len - 2, 2, false⟩] := by
  have W := I.wf
  have hlong := W.long
  have hlock := I.lock.2
  have hlockb := W.inner_bounds hlock ⟨by simp, by
    have := (W.tiles.bounds hlock).2
    simp only [Block.stop] at this ⊢
    omega⟩
  -- a taken block is a sentinel or the lock's
  have htaken : ∀ b ∈ bs, b.free = false → b.start = 0 ∨ b.start = 2 ∨ b.start = s.heap.len - 2 := by
    intro b hb hf
    by_cases hi : Interior s.heap b
    · have hp := (I.owners _).mpr ⟨b, hb, hf, hi, rfl⟩
      rw [hlive, List.mem_singleton, I.lock.1] at hp
      simp only [address] at hp
      omega
    · simp only [Interior, not_and_or, not_not] at hi
      omega
  obtain ⟨b₀, bs₁, rfl, hb₀, ht₁⟩ := W.tiles.uncons (by omega)
  obtain rfl := W.tiles.eq_of_start (by simp) W.first hb₀
  obtain ⟨b₁, bs₂, rfl, hb₁, ht₂⟩ := ht₁.uncons (by simp only [Block.stop]; omega)
  obtain rfl := W.tiles.eq_of_start (by simp) hlock hb₁
  simp only [Block.stop] at ht₂ hlockb
  by_cases h18 : 18 ≤ s.heap.len
  · have hw : lockWords s.heap.len = 10 := if_pos h18
    rw [hw] at ht₂
    obtain ⟨b₂, bs₃, rfl, hb₂, ht₃⟩ := ht₂.uncons (by omega)
    have hm₂ : b₂ ∈ (⟨0, 2, false⟩ :: ⟨2, lockWords s.heap.len, false⟩ :: b₂ :: bs₃ :
        List Block) := by simp
    have hf₂ : b₂.free = true := by
      by_contra hf
      have := htaken b₂ hm₂ (by simpa using hf)
      omega
    have hin₂ := W.inner_bounds hm₂ (W.inner_of_free hm₂ hf₂)
    obtain ⟨b₃, bs₄, rfl, hb₃, ht₄⟩ := ht₃.uncons (by omega)
    have hm₃ : b₃ ∈ (⟨0, 2, false⟩ :: ⟨2, lockWords s.heap.len, false⟩ :: b₂ :: b₃ :: bs₄ :
        List Block) := by simp
    have hf₃ := (I.merged b₂ hm₂ b₃ hm₃ hb₃.symm).resolve_left (by simp [hf₂])
    have hb₃' : b₃.start = s.heap.len - 2 := by
      have := htaken b₃ hm₃ hf₃
      simp only [Block.stop] at hb₃ hin₂
      omega
    obtain rfl := W.tiles.eq_of_start hm₃ W.last hb₃'
    simp only [Block.stop, sub_add_cancel] at ht₄ hb₃
    obtain rfl := ht₄.eq_nil
    have hb : b₂ = ⟨12, s.heap.len - 14, true⟩ := by
      obtain ⟨st, sz, fr⟩ := b₂
      simp only at hb₂ hb₃ hf₂
      simp only [Block.mk.injEq]
      exact ⟨by omega, by omega, hf₂⟩
    simp [hb, h18]
  · have hw : lockWords s.heap.len = s.heap.len - 4 := if_neg h18
    rw [hw] at ht₂
    obtain ⟨b₂, bs₃, rfl, hb₂, ht₃⟩ := ht₂.uncons (by omega)
    obtain rfl := W.tiles.eq_of_start (by simp) W.last (show b₂.start = s.heap.len - 2 by omega)
    simp only [Block.stop, sub_add_cancel] at ht₃
    obtain rfl := ht₃.eq_nil
    simp [h18]

end OsShell.KernelHeap
