import OsShell.KernelHeap.Guarantees

/-!
# Freeing twice

`free` takes the word in front of its pointer for a header. After a pointer has been
freed that word may lie anywhere in a free block and still be negative, and then a
second `free` is not caught. A history keeps, next to the state of the heap, the
pointers that have been freed, each with its old payload, until `malloc` hands out a
payload that meets it.
-/

namespace OsShell.KernelHeap

open FirstFit Tiling LinkedList Runs

section Words

variable {h : Heap} {bs : List Block} {fl : List ℤ} {b l r : Block} {ints i j : ℤ}

theorem makeAvail_nonneg {B : Set Block} (T : Threaded h B fl) (hpos : ∀ i ∈ fl, 0 ≤ i)
    (hi : 0 ≤ i) (h4 : 4 ≤ ints) (hj : 0 ≤ h.array j) : 0 ≤ (makeAvail h i ints).array j := by
  rw [(makeAvail_eq h i h4).2.2.2 j]
  split_ifs
  · exact hi
  · exact le_rfl
  · by_cases h0 : h.avail = 0
    · exact h0.ge
    · exact hpos _ (T.linked.head_mem h0)
  · omega
  · exact hj

/-- The last word of the block that `carve` takes from `b`. -/
def lastTaken (b : Block) (ints : ℤ) : ℤ :=
  b.start + (if 4 ≤ b.size - ints then ints else b.size) - 1

theorem carve_nonneg (W : WellFormed h bs fl) (hb : b ∈ bs) (hf : b.free = true) (h4 : 4 ≤ ints)
    (hj : 0 ≤ h.array j) (hstart : j ≠ b.start) (hlast : j ≠ lastTaken b ints) :
    0 ≤ (carve h b.start b.size ints).array j := by
  have hpos := W.nonneg_of_mem
  have hm := W.complete b hb hf
  have hi := W.inner_bounds hb (W.inner_of_free hb hf)
  have hr := W.threaded.remove_nonneg hpos hm hj
  by_cases hrest : 4 ≤ b.size - ints
  · rw [lastTaken, if_pos hrest] at hlast
    have ht := (makeTaken_eq (remove h b.start) b.start (show 0 < ints by omega)).2.2.2 j
    rw [if_neg (by omega)] at ht
    simp only [carve, if_pos hrest]
    have hav : 0 ≤ (makeTaken (remove h b.start) b.start ints).avail := by
      rw [(makeTaken_eq (remove h b.start) b.start (show 0 < ints by omega)).2.2.1]
      by_cases h0 : (remove h b.start).avail = 0
      · exact h0.ge
      · exact hpos _ (List.mem_of_mem_erase ((W.threaded.remove hm).linked.head_mem h0))
    rw [(makeAvail_eq _ _ hrest).2.2.2 j, ht]
    split_ifs <;> omega
  · rw [lastTaken, if_neg hrest] at hlast
    simp only [carve, if_neg hrest]
    rw [(makeTaken_eq _ _ (show 0 < b.size by omega)).2.2.2 j, if_neg (by omega)]
    exact hr

theorem coalesce_nonneg (W : WellFormed h bs fl) (hb : b ∈ bs) (hi : Interior h b)
    (hj : 0 ≤ h.array j) : 0 ≤ (coalesce h b.start).array j := by
  obtain ⟨l, hl, r, hr, hls, hrs⟩ := W.neighbours hb hi
  obtain ⟨h', fl', heq, T', -, -, hfl, -, hsign⟩ := W.coalesce_eq hb hl hr hls hrs
  have hlp := W.tiles.bounds hl
  have hrp := W.tiles.bounds hr
  have hbounds := W.inner_bounds hb hi
  rw [heq]
  refine makeAvail_nonneg T' (fun i hi => W.nonneg_of_mem i ((hfl i).mp hi).1) ?_ ?_ (hsign j hj)
  · split_ifs <;> omega
  · split_ifs <;> omega

theorem coalesce_stale (W : WellFormed h bs fl) (hb : b ∈ bs) (hf : b.free = false)
    (hi : Interior h b) (hl : l ∈ bs) (hls : l.stop = b.start) (hlf : l.free = true) :
    (coalesce h b.start).array b.start = h.array b.start := by
  obtain ⟨-, -, r, hr, -, hrs⟩ := W.neighbours hb hi
  obtain ⟨h', fl', heq, T', -, -, -, hframe, -⟩ := W.coalesce_eq hb hl hr hls hrs
  have hbounds := W.inner_bounds hb hi
  have hroom := (W.threaded.room l hl hlf).1
  have hrp := (W.tiles.bounds hr).2.1
  have hlink : ¬ IsLink {c | c ∈ bs} b.start :=
    W.not_isLink hb hf le_rfl (by simp only [Block.stop]; omega)
  have hav : ¬ (h'.avail ≠ 0 ∧ b.start = h'.avail + 2) := by
    rintro ⟨h0, hlinked⟩
    obtain ⟨c, hc, hcf, hcs⟩ := T'.avail_cases.resolve_left h0
    exact hlink ⟨c, hc, hcf, Or.inr (by rw [hcs, hlinked])⟩
  have hstop : l.start + l.size = b.start := hls
  rw [heq, hlf, if_pos rfl, if_pos rfl, (makeAvail_eq _ _ (by split_ifs <;> omega)).2.2.2,
    if_neg hav, if_neg (by omega), if_neg (by omega), if_neg (by split_ifs <;> omega)]
  exact hframe _ hlink

end Words

/-- Pointers that have been freed, with the payloads that they had. -/
structure History where
  state : State
  freed : Set (ℤ × Set ℤ)

inductive Event
  | malloc (bytes : ℕ) (p : ℤ)
  | free (p : ℤ)
  | write (p j v : ℤ)

inductive HistoryStep : History → Event → History → Prop
  | malloc {s : History} {h' : Heap} {p : ℤ} (bytes : ℕ) (hsize : bytes < 2 ^ 32)
      (hcall : malloc s.state.heap bytes = some (h', p)) :
      HistoryStep s (.malloc bytes p)
        ⟨⟨h', s.state.theLock, if bytes = 0 ∨ p = 0 then s.state.live else p :: s.state.live⟩,
          if bytes = 0 ∨ p = 0 then s.freed else {e ∈ s.freed | Disjoint e.2 (payload h' p)}⟩
  | free {s : History} {h' : Heap} (p : ℤ) (hp : p ∈ s.state.live)
      (hcall : free s.state.heap p = some h') :
      HistoryStep s (.free p) ⟨⟨h', s.state.theLock, s.state.live.erase p⟩,
        insert (p, payload s.state.heap p) s.freed⟩
  | freeNothing {s : History} {h' : Heap} (p : ℤ) (hp : p = 0 ∨ p = s.state.heap.base)
      (hcall : free s.state.heap p = some h') :
      HistoryStep s (.free p) ⟨⟨h', s.state.theLock, s.state.live⟩, s.freed⟩
  | write {s : History} (p : ℤ) (hp : p ∈ s.state.theLock :: s.state.live) (j v : ℤ)
      (hj : j ∈ payload s.state.heap p) : HistoryStep s (.write p j v)
        ⟨⟨s.state.heap.store j v, s.state.theLock, s.state.live⟩, s.freed⟩

theorem HistoryStep.step {s t : History} {e : Event} (h : HistoryStep s e t) :
    Step s.state t.state := by
  cases h with
  | malloc bytes hsize hcall => exact .malloc bytes hsize hcall
  | free p hp hcall => exact .free p hp hcall
  | freeNothing p hp hcall => exact .freeNothing p hp hcall
  | write p hp j v hj => exact .write p hp j v hj

inductive HistoryInit : History → Prop
  | heapInit {s : State} (hinit : Init s) : HistoryInit ⟨s, ∅⟩

/-- The word that `free` takes for the header of `p`. -/
def header (h : Heap) (p : ℤ) : ℤ := (p - h.base) / 4 - 1

def Caught (s : History) : Prop := ∀ e ∈ s.freed, free s.state.heap e.1 = none

/-- A `free` while the block in front is taken, a `malloc` whose block does not end on the header
of a freed pointer, and a write that puts no negative word there. -/
def Event.Harmless (s t : History) : Event → Prop
  | .malloc bytes p => bytes ≠ 0 → p ≠ 0 → ∀ e ∈ t.freed,
      header t.state.heap e.1 ≠ footerFromHeader t.state.heap (header t.state.heap p)
  | .free p => p ∈ s.state.live →
      isAvail s.state.heap (left s.state.heap (header s.state.heap p)) = false
  | .write _ j v => ∀ e ∈ s.freed, j = header s.state.heap e.1 → 0 ≤ v

def Recorded (h : Heap) (e : ℤ × Set ℤ) : Prop :=
  ∃ b : Block, (2 ≤ b.start ∧ 4 ≤ b.size ∧ b.stop ≤ h.len - 2) ∧
    e = (address h (b.start + 1), {j | Payload b j})

structure HistoryInv (s : History) (bs : List Block) (fl : List ℤ) : Prop where
  inv : Inv s.state bs fl
  recorded : ∀ e ∈ s.freed, Recorded s.state.heap e

section Steps

variable {s t : History} {bs : List Block} {fl : List ℤ}

theorem header_address (h : Heap) (i : ℤ) : header h (address h (i + 1)) = i := by
  simp only [header, address]
  omega

theorem free_eq_none_iff {h : Heap} (hbase : 0 ≤ h.base) (hfits : h.base + 4 * h.len ≤ 2 ^ 32)
    {i : ℤ} (hi : 2 ≤ i ∧ i + 1 < h.len) : free h (address h (i + 1)) = none ↔ 0 ≤ h.array i := by
  have hidx : (address h (i + 1) - h.base) % 2 ^ 32 / 4 - 1 = i := by
    simp only [address]
    omega
  have hne : address h (i + 1) ≠ 0 ∧ address h (i + 1) ≠ h.base := by
    simp only [address]
    omega
  simp only [free, if_neg hne.1, if_neg hne.2, hidx, isTaken]
  by_cases hneg : h.array i < 0
  · simp [hneg]
  · simp [hneg, not_lt.mp hneg]

theorem caught_iff (I : HistoryInv s bs fl) :
    Caught s ↔ ∀ e ∈ s.freed, 0 ≤ s.state.heap.array (header s.state.heap e.1) := by
  refine forall₂_congr fun e he => ?_
  obtain ⟨b, ⟨h₁, h₂, h₃⟩, rfl⟩ := I.recorded e he
  rw [header_address]
  simp only [Block.stop] at h₃
  exact free_eq_none_iff I.inv.base I.inv.fits ⟨h₁, by omega⟩

theorem Recorded.mono {h h' : Heap} {e : ℤ × Set ℤ} (hr : Recorded h e) (hbase : h'.base = h.base)
    (hlen : h'.len = h.len) : Recorded h' e := by
  obtain ⟨b, hb, rfl⟩ := hr
  exact ⟨b, by rwa [hlen], by rw [address, address, hbase]⟩

theorem step_bounds {s t : State} (I : Inv s bs fl) (h : Step s t) :
    t.heap.base = s.heap.base ∧ t.heap.len = s.heap.len := by
  cases h with
  | malloc bytes hsize hcall =>
    by_cases hbytes : bytes = 0
    · simp only [malloc, if_pos hbytes, Option.some.injEq, Prod.mk.injEq] at hcall
      obtain ⟨rfl, -⟩ := hcall
      exact ⟨rfl, rfl⟩
    · rcases malloc_spec I.wf I.len_le hbytes with ⟨-, hm⟩ | ⟨b, hb, hf, t, h', bs', fl', hm, ht⟩
      · obtain ⟨rfl, -⟩ := Prod.mk.inj (Option.some.inj (hm.symm.trans hcall))
        exact ⟨rfl, rfl⟩
      · obtain ⟨rfl, -⟩ := Prod.mk.inj (Option.some.inj (hm.symm.trans hcall))
        exact ⟨ht.base, ht.len⟩
  | free p hp hcall =>
    obtain ⟨b, hb, hf, hi, rfl, -⟩ := I.block (List.mem_cons_of_mem _ hp)
    obtain ⟨m, h', bs', fl', hm, hR⟩ := free_spec I.wf I.base I.fits hb hf hi
    obtain rfl := Option.some.inj (hm.symm.trans hcall)
    exact ⟨hR.base, hR.len⟩
  | freeNothing p hp hcall =>
    have hsame : free s.heap p = some s.heap := by
      rcases hp with rfl | rfl <;> simp [free]
    obtain rfl := Option.some.inj (hsame.symm.trans hcall)
    exact ⟨rfl, rfl⟩
  | write p hp j v hj => exact ⟨rfl, rfl⟩

theorem historyInv_step {e : Event} (I : HistoryInv s bs fl) (h : HistoryStep s e t) :
    ∃ bs' fl', HistoryInv t bs' fl' := by
  obtain ⟨bs', fl', I'⟩ := inv_of_step ⟨bs, fl, I.inv⟩ h.step
  obtain ⟨hbase, hlen⟩ := step_bounds I.inv h.step
  have hold : ∀ e ∈ s.freed, Recorded t.state.heap e := fun e he =>
    (I.recorded e he).mono hbase hlen
  refine ⟨bs', fl', I', fun e he => ?_⟩
  cases h with
  | malloc bytes hsize hcall =>
    dsimp only at he
    split_ifs at he
    exacts [hold e he, hold e he.1]
  | free p hp hcall =>
    rcases he with rfl | he
    · obtain ⟨b, hb, hf, hi, rfl, hpay⟩ := I.inv.block (List.mem_cons_of_mem _ hp)
      exact Recorded.mono ⟨b, I.inv.wf.inner_bounds hb hi, by rw [hpay]⟩ hbase hlen
    · exact hold e he
  | freeNothing p hp hcall => exact hold e he
  | write p hp j v hj => exact hold e he

theorem malloc_nothing {s : State} {h' : Heap} {p : ℤ} {bytes : ℕ} (I : Inv s bs fl)
    (hcall : malloc s.heap bytes = some (h', p)) (hnone : bytes = 0 ∨ p = 0) : h' = s.heap := by
  by_cases hbytes : bytes = 0
  · simp only [malloc, if_pos hbytes, Option.some.injEq, Prod.mk.injEq] at hcall
    exact hcall.1.symm
  · rcases malloc_carves I.wf I.len_le hbytes with ⟨-, hm⟩ | ⟨b, hb, hf, -, hm⟩
    · exact (Prod.mk.inj (Option.some.inj (hm.symm.trans hcall))).1.symm
    · obtain ⟨-, rfl⟩ := Prod.mk.inj (Option.some.inj (hm.symm.trans hcall))
      have hpos := (I.wf.inner_bounds hb (I.wf.inner_of_free hb hf)).1
      have hbase := I.base
      have hzero := hnone.resolve_left hbytes
      simp only [address] at hzero
      omega

/-- Headers that are not negative before `malloc` are not negative after it, but for one that has
become the last word of the block taken. -/
theorem caught_malloc {h' : Heap} {p : ℤ} {bytes : ℕ} (I : HistoryInv s bs fl)
    (hc : Caught s) (hbytes : bytes ≠ 0) (hp : p ≠ 0)
    (hcall : malloc s.state.heap bytes = some (h', p)) {e : ℤ × Set ℤ} (he : e ∈ s.freed)
    (hdis : Disjoint e.2 (payload h' p)) :
    0 ≤ h'.array (header h' e.1) ↔ header h' e.1 ≠ footerFromHeader h' (header h' p) := by
  have W := I.inv.wf
  rcases malloc_carves W I.inv.len_le hbytes with ⟨-, hm⟩ | ⟨b, hb, hf, hle, hm⟩
  · obtain ⟨-, rfl⟩ := Prod.mk.inj (Option.some.inj (hm.symm.trans hcall))
    exact absurd rfl hp
  obtain ⟨rfl, rfl⟩ := Prod.mk.inj (Option.some.inj (hm.symm.trans hcall))
  obtain ⟨t, bs', fl', ht⟩ := W.carve hb hf (intsFor_ge bytes) hle
  set h' := carve s.state.heap b.start b.size (intsFor bytes) with hh'
  have htb := (ht.blocks t).mpr (Or.inl rfl)
  have haddr : ∀ i, address s.state.heap i = address h' i := fun i => by
    rw [address, address, ht.base]
  obtain ⟨c, hcb, rfl⟩ := I.recorded e he
  have hcnn := (caught_iff I).mp hc _ he
  rw [header_address] at hcnn
  have hlast : footerFromHeader h' b.start = lastTaken b (intsFor bytes) := by
    rw [footerFromHeader, ← ht.start, ht.wf.threaded.size_start htb, ht.size, ht.start, lastTaken]
  have htsize := ht.size_bounds
  have h4 := intsFor_ge bytes
  have hpay : payload h' (address s.state.heap (b.start + 1)) = {j | Payload t j} := by
    rw [haddr, ← ht.start, payload_block ht.wf htb]
  have hne : c.start ≠ b.start := by
    intro heq
    rw [hpay] at hdis
    have hold : Payload c (c.start + 1) := ⟨by omega, by simp only [Block.stop]; omega⟩
    have hnew : Payload t (c.start + 1) :=
      ⟨by rw [ht.start]; omega, by simp only [Block.stop, ht.start]; omega⟩
    exact Set.disjoint_left.mp hdis hold hnew
  rw [haddr, haddr, header_address, header_address, hlast]
  constructor
  · intro hnn heq
    have hfoot := ht.wf.threaded.footer t htb
    have hstop : t.stop - 1 = c.start := by
      rw [heq, lastTaken, ← ht.size, Block.stop, ht.start]
    rw [hstop, tag, ht.free, if_neg (by decide)] at hfoot
    omega
  · exact carve_nonneg W hb hf h4 hcnn hne

/-- The header of the pointer just freed is negative if and only if the block in front of it was
free; no other word has become negative. -/
theorem caught_free {h' : Heap} {p : ℤ} (I : HistoryInv s bs fl) (hp : p ∈ s.state.live)
    (hcall : free s.state.heap p = some h') :
    (0 ≤ h'.array (header s.state.heap p) ↔
      isAvail s.state.heap (left s.state.heap (header s.state.heap p)) = false) ∧
    ∀ j, 0 ≤ s.state.heap.array j → 0 ≤ h'.array j := by
  have W := I.inv.wf
  obtain ⟨b, hb, hf, hi, rfl, -⟩ := I.inv.block (List.mem_cons_of_mem _ hp)
  obtain ⟨h₁, h₂, h₃⟩ := W.inner_bounds hb hi
  obtain ⟨l, hl, r, hr, hls, hrs⟩ := W.neighbours hb hi
  have hbase := I.inv.base
  have hfits := I.inv.fits
  have hidx : (address s.state.heap (b.start + 1) - s.state.heap.base) % 2 ^ 32 / 4 - 1 =
      b.start := by
    simp only [address, Block.stop] at h₃ ⊢
    omega
  have hne : address s.state.heap (b.start + 1) ≠ 0 ∧
      address s.state.heap (b.start + 1) ≠ s.state.heap.base := by
    simp only [address]
    omega
  simp only [free, if_neg hne.1, if_neg hne.2, hidx, W.threaded.isTaken_start hb, hf,
    Bool.not_false, Bool.true_eq_false, if_false, Option.some.injEq] at hcall
  subst hcall
  refine ⟨?_, fun j hj => coalesce_nonneg W hb hi hj⟩
  rw [header_address, ← hls, W.threaded.left_stop hl, W.threaded.isAvail_start hl, hls]
  cases hlf : l.free with
  | true =>
    rw [coalesce_stale W hb hf hi hl hls hlf, W.threaded.header b hb, tag, if_neg (by simp [hf])]
    exact iff_of_false (by omega) (by decide)
  | false =>
    refine iff_of_true ?_ rfl
    obtain ⟨h', fl', heq, T', -, -, -, -, -⟩ := W.coalesce_eq hb hl hr hls hrs
    have hrp := (W.tiles.bounds hr).2.1
    rw [heq, hlf, if_neg (by decide), if_neg (by decide),
      (makeAvail_eq _ _ (by split_ifs <;> omega)).2.2.2]
    split_ifs <;> omega

theorem caught_step {e : Event} (I : HistoryInv s bs fl) (hc : Caught s)
    (h : HistoryStep s e t) : Caught t ↔ e.Harmless s t := by
  obtain ⟨bs', fl', I'⟩ := historyInv_step I h
  obtain ⟨hbase, hlen⟩ := step_bounds I.inv h.step
  have hheader : ∀ p, header t.state.heap p = header s.state.heap p := fun p => by
    rw [header, header, hbase]
  have hnn := (caught_iff I).mp hc
  rw [caught_iff I']
  cases h with
  | @malloc h' p bytes hsize hcall =>
    by_cases hnone : bytes = 0 ∨ p = 0
    · obtain rfl := malloc_nothing I.inv hcall hnone
      refine iff_of_true (fun e he => ?_) fun hb hp => absurd hnone (by simp [hb, hp])
      dsimp only at he
      rw [if_pos hnone] at he
      exact hnn e he
    · obtain ⟨hbytes, hp⟩ := not_or.mp hnone
      simp only [Event.Harmless, hnone, if_false]
      refine ⟨fun hall _ _ e he => ?_, fun hall e he => ?_⟩
      · exact (caught_malloc I hc hbytes hp hcall he.1 he.2).mp (hall e he)
      · exact (caught_malloc I hc hbytes hp hcall he.1 he.2).mpr (hall hbytes hp e he)
  | @free h' p hp hcall =>
    obtain ⟨hown, hother⟩ := caught_free I hp hcall
    simp only [hheader]
    refine ⟨fun hall _ => hown.mp (hall _ (Set.mem_insert _ _)), fun hfree e he => ?_⟩
    rcases he with rfl | he
    · exact hown.mpr (hfree hp)
    · exact hother _ (hnn e he)
  | @freeNothing h' p hp hcall =>
    have hsame : KernelHeap.free s.state.heap p = some s.state.heap := by
      rcases hp with rfl | rfl <;> simp [KernelHeap.free]
    obtain rfl := Option.some.inj (hsame.symm.trans hcall)
    refine iff_of_true (fun e he => hnn e he) fun hlive => ?_
    obtain ⟨b, hb, -, hi, rfl, -⟩ := I.inv.block (List.mem_cons_of_mem _ hlive)
    have h₁ := (I.inv.wf.inner_bounds hb hi).1
    have h₀ := I.inv.base
    simp only [address] at hp
    omega
  | write p hp j v hj =>
    simp only [hheader, Heap.store_array, Event.Harmless]
    refine forall₂_congr fun e he => ?_
    by_cases heq : header s.state.heap e.1 = j
    · rw [if_pos heq]
      exact ⟨fun hv _ => hv, fun hv => hv heq.symm⟩
    · rw [if_neg heq]
      exact ⟨fun _ hj => absurd hj.symm heq, fun _ => hnn e he⟩

end Steps

theorem historyInv_of_init {s : History} (h : HistoryInit s) :
    (∃ bs fl, HistoryInv s bs fl) ∧ Caught s := by
  cases h with
  | heapInit hinit =>
    obtain ⟨bs, fl, I⟩ := inv_of_init hinit
    exact ⟨⟨bs, fl, I, nofun⟩, nofun⟩

/-- Over a run of harmless steps every state catches a second `free`, and a run whose states all do
has harmless steps only. -/
theorem run_caught_iff (es : List Event) (s : History) :
    Trace HistoryInit (fun s e t => HistoryStep s e t ∧ Caught t) es s ↔
      Trace HistoryInit (fun s e t => HistoryStep s e t ∧ e.Harmless s t) es s := by
  constructor
  · intro h
    refine (h.invariant (I := fun es s => ((∃ bs fl, HistoryInv s bs fl) ∧ Caught s) ∧
      Trace HistoryInit (fun s e t => HistoryStep s e t ∧ e.Harmless s t) es s) ?_ ?_).2
    · exact fun s h₀ => ⟨historyInv_of_init h₀, .start h₀⟩
    · rintro es e s t ⟨⟨⟨bs, fl, I⟩, hc⟩, hrun⟩ ⟨hst, hct⟩
      exact ⟨⟨historyInv_step I hst, hct⟩, hrun.step ⟨hst, (caught_step I hc hst).mp hct⟩⟩
  · intro h
    refine (h.invariant (I := fun es s => ((∃ bs fl, HistoryInv s bs fl) ∧ Caught s) ∧
      Trace HistoryInit (fun s e t => HistoryStep s e t ∧ Caught t) es s) ?_ ?_).2
    · exact fun s h₀ => ⟨historyInv_of_init h₀, .start h₀⟩
    · rintro es e s t ⟨⟨⟨bs, fl, I⟩, hc⟩, hrun⟩ ⟨hst, hok⟩
      have hct := (caught_step I hc hst).mpr hok
      exact ⟨⟨historyInv_step I hst, hct⟩, hrun.step ⟨hst, hct⟩⟩

/-- Two neighbours are freed from left to right: the second one can be freed once more. -/
theorem second_free_missed : ¬ ∀ es s, Trace HistoryInit HistoryStep es s → Caught s := by
  intro hall
  have hrun : ((heapInit 0x100000 160 fun _ => 0).bind fun r => (malloc r.1 8).bind fun r₁ =>
      (malloc r₁.1 8).bind fun r₂ => (free r₂.1 0x100034).bind fun h₃ =>
        (free h₃ 0x100044).map fun h₄ => (r₁.2, r₂.2, (free h₄ 0x100044).isSome)) =
      some (0x100034, 0x100044, true) := by decide
  simp only [Option.bind_eq_some_iff, Option.map_eq_some_iff, Prod.mk.injEq] at hrun
  obtain ⟨⟨h₀, lock⟩, hinit, ⟨h₁, p⟩, hm₁, ⟨h₂, q⟩, hm₂, h₃, hf₁, h₄, hf₂, rfl, rfl, hf₃⟩ := hrun
  have hr : Trace HistoryInit HistoryStep [] ⟨⟨h₀, lock, []⟩, ∅⟩ :=
    .start (.heapInit (.heapInit (by norm_num) (by norm_num) (by norm_num) hinit))
  have hr := hr.step (.malloc 8 (by norm_num) hm₁)
  have hr := hr.step (.malloc 8 (by norm_num) hm₂)
  have hr := hr.step (.free 0x100034 (by simp) hf₁)
  have hr := hr.step (.free 0x100044 (by simp) hf₂)
  have hnone : free h₄ 0x100044 = none := hall _ _ hr (0x100044, _) (Set.mem_insert _ _)
  rw [hnone] at hf₃
  nomatch hf₃

end OsShell.KernelHeap
