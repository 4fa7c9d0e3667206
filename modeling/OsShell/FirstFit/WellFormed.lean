import OsShell.FirstFit.Threaded

/-!
# Well-formed heaps, and what taking and giving back a block does to them

`WellFormed h bs fl` describes a whole heap: the blocks `bs` tile the array
between two taken sentinels of two words, and `fl` is the free list. `carve`
and `coalesce` are the only operations that change the blocks; each has one
lemma, which lists the blocks afterwards and the words that did not change.
-/

namespace OsShell.FirstFit

open Tiling LinkedList

structure WellFormed (h : Heap) (bs : List Block) (fl : List ℤ) : Prop where
  long : 8 ≤ h.len
  tiles : Tiles 0 bs h.len
  threaded : Threaded h {b | b ∈ bs} fl
  complete : ∀ b ∈ bs, b.free = true → b.start ∈ fl
  first : ⟨0, 2, false⟩ ∈ bs
  last : ⟨h.len - 2, 2, false⟩ ∈ bs
  room : ∀ b ∈ bs, b.start ≠ 0 → b.start ≠ h.len - 2 → 4 ≤ b.size

def Merged (bs : List Block) : Prop :=
  ∀ b ∈ bs, ∀ c ∈ bs, b.stop = c.start → b.free = false ∨ c.free = false

/-- A block that is not one of the two sentinels. -/
def Interior (h : Heap) (b : Block) : Prop := b.start ≠ 0 ∧ b.start ≠ h.len - 2

namespace WellFormed

variable {h : Heap} {bs : List Block} {fl : List ℤ} {b c : Block} {i : ℤ}

theorem inner_of_free (W : WellFormed h bs fl) (hb : b ∈ bs) (hf : b.free = true) : Interior h b := by
  refine ⟨(W.threaded.room b hb hf).2, fun h0 => ?_⟩
  obtain rfl := W.tiles.eq_of_start hb W.last h0
  cases hf

theorem inner_bounds (W : WellFormed h bs fl) (hb : b ∈ bs) (hi : Interior h b) :
    2 ≤ b.start ∧ 4 ≤ b.size ∧ b.stop ≤ h.len - 2 := by
  have hr := W.room b hb hi.1 hi.2
  have h₁ := W.tiles.bounds hb
  have hf := W.tiles.apart hb W.first
  have hl := W.tiles.apart hb W.last
  have hne : b ≠ ⟨0, 2, false⟩ := by rintro rfl; exact hi.1 rfl
  have hne' : b ≠ ⟨h.len - 2, 2, false⟩ := by rintro rfl; exact hi.2 rfl
  have hf := hf.resolve_left hne
  have hl := hl.resolve_left hne'
  simp only [Block.Apart, Block.stop] at *
  omega

theorem neighbours (W : WellFormed h bs fl) (hb : b ∈ bs) (hi : Interior h b) :
    ∃ l ∈ bs, ∃ r ∈ bs, l.stop = b.start ∧ r.start = b.stop := by
  obtain ⟨h₁, -, h₃⟩ := W.inner_bounds hb hi
  obtain ⟨l, hl, hls⟩ := W.tiles.left_neighbour hb (by omega)
  obtain ⟨r, hr, hrs⟩ := W.tiles.right_neighbour hb (by omega)
  exact ⟨l, hl, r, hr, hls, hrs⟩

theorem apart_first (hc : 2 ≤ c.start) : c.Apart ⟨0, 2, false⟩ :=
  Or.inr (by simpa [Block.stop] using hc)

theorem apart_last (hc : c.stop ≤ h.len - 2) : c.Apart ⟨h.len - 2, 2, false⟩ := Or.inl hc

end WellFormed

/-- The block `b` has become part of the free block `m`; the blocks are now `bs'`. -/
structure Released (h : Heap) (bs : List Block) (b : Block) (h' : Heap) (bs' : List Block)
    (fl' : List ℤ) (m : Block) : Prop where
  wf : WellFormed h' bs' fl'
  base : h'.base = h.base
  len : h'.len = h.len
  free : m.free = true
  covers : m.start ≤ b.start ∧ b.stop ≤ m.stop
  blocks : ∀ c, c ∈ bs' ↔ c = m ∨ (c ∈ bs ∧ m.Apart c)
  swallowed : ∀ c ∈ bs, m.Apart c ∨ c = b ∨ c.free = true
  merged : Merged bs → Merged bs'
  frame : ∀ c ∈ bs, c.free = false → c ≠ b → ∀ j, c.start ≤ j → j < c.stop →
    h'.array j = h.array j

namespace WellFormed

variable {h h' : Heap} {bs : List Block} {fl fl' : List ℤ} {b c l r m : Block} {i : ℤ}

theorem not_isLink (W : WellFormed h bs fl) (hc : c ∈ bs) (hf : c.free = false) {j : ℤ}
    (h₁ : c.start ≤ j) (h₂ : j < c.stop) : ¬ IsLink {b | b ∈ bs} j := by
  rintro ⟨d, hd, hdf, hj⟩
  have hr := (W.threaded.room d hd hdf).1
  rcases W.tiles.apart hc hd with rfl | hap
  · exact absurd hdf (by simp [hf])
  · simp only [Block.Apart, Block.stop] at hap h₂
    omega

/-- Once the free blocks inside `m` are off the list, `makeAvail` makes `m` a block. -/
theorem merge (W : WellFormed h bs fl) (T : Threaded h' {b | b ∈ bs} fl')
    (hbase : h'.base = h.base) (hlen : h'.len = h.len) (hm : m.free = true)
    (hlo : Boundary bs h.len m.start) (hhi : Boundary bs h.len m.stop) (h4 : 4 ≤ m.size)
    (hin : 2 ≤ m.start ∧ m.stop ≤ h.len - 2) (hcov : m.start ≤ b.start ∧ b.stop ≤ m.stop)
    (hfl : ∀ i, i ∈ fl' ↔ i ∈ fl ∧ (i < m.start ∨ m.stop ≤ i))
    (hsw : ∀ c ∈ bs, m.Apart c ∨ c = b ∨ c.free = true)
    (hadj : Merged bs → ∀ c ∈ bs, c.stop = m.start ∨ m.stop = c.start → c.free = false)
    (hframe : ∀ j, ¬ IsLink {b | b ∈ bs} j → h'.array j = h.array j) :
    ∃ bs', Released h bs b (makeAvail h' m.start m.size) bs' (m.start :: fl') m := by
  have hstop : m.stop = m.start + m.size := rfl
  obtain ⟨hb', hl', -, -⟩ := makeAvail_eq h' m.start h4
  obtain ⟨bs', htiles, hbs⟩ := W.tiles.retile [m] hlo hhi (by omega)
    ⟨rfl, by omega, rfl⟩
  have hbs : ∀ c, c ∈ bs' ↔ c = m ∨ (c ∈ bs ∧ m.Apart c) := fun c => by
    rw [hbs c, List.mem_singleton, Block.Apart, or_comm (a := m.stop ≤ c.start)]
  have hset : insert m {c | c ∈ bs ∧ m.Apart c} = {c | c ∈ bs'} :=
    Set.ext fun c => (hbs c).symm
  have hpos : ∀ c ∈ bs, c.start < c.stop := fun c hc => by
    have := (W.tiles.bounds hc).2.1
    simp only [Block.stop]
    omega
  have T' : Threaded h' {c | c ∈ bs ∧ m.Apart c} fl' := by
    refine T.restrict (fun c hc => hc.1) fun c hc _ hci => ⟨hc, ?_⟩
    have hp := hpos c hc
    rcases (hfl c.start).mp hci with ⟨-, hlt | hge⟩
    · exact Or.inr ((W.tiles.boundary_sep hlo hc).resolve_right (by omega))
    · exact Or.inl hge
  have hT := T'.makeAvail (b := m) h4 (by omega) hm fun c hc => hc.2
  rw [hset] at hT
  have hlen' : (makeAvail h' m.start m.size).len = h.len := hl'.trans hlen
  have W' : WellFormed (makeAvail h' m.start m.size) bs' (m.start :: fl') := by
    refine ⟨hlen' ▸ W.long, hlen' ▸ htiles, hT, fun c hc hcf => ?_, ?_, ?_, fun c hc h₁ h₂ => ?_⟩
    · rcases (hbs c).mp hc with rfl | ⟨hc, hap⟩
      · exact List.mem_cons_self
      · have hp := hpos c hc
        refine List.mem_cons_of_mem _ ((hfl _).mpr ⟨W.complete c hc hcf, ?_⟩)
        simp only [Block.Apart] at hap
        omega
    · exact (hbs _).mpr (Or.inr ⟨W.first, apart_first hin.1⟩)
    · rw [hlen']
      exact (hbs _).mpr (Or.inr ⟨W.last, apart_last hin.2⟩)
    · rcases (hbs c).mp hc with rfl | ⟨hc, -⟩
      · exact h4
      · exact W.room c hc h₁ (hlen' ▸ h₂)
  refine ⟨bs', W', hb'.trans hbase, hlen', hm, hcov, hbs, hsw, fun hM c hc d hd hcd => ?_,
    fun c hc hcf hcb j h₁ h₂ => ?_⟩
  · rcases (hbs c).mp hc with rfl | ⟨hc', -⟩ <;> rcases (hbs d).mp hd with rfl | ⟨hd', -⟩
    · omega
    · exact Or.inr (hadj hM d hd' (Or.inr hcd))
    · exact Or.inl (hadj hM c hc' (Or.inl hcd))
    · exact hM c hc' d hd' hcd
  · have hap : m.Apart c := (hsw c hc).resolve_right (by simp [hcb, hcf])
    have hnl := W.not_isLink hc hcf h₁ h₂
    refine (T.makeAvail_frame h4 ?_ hnl).trans (hframe j hnl)
    simp only [Block.Apart] at hap
    omega

theorem nonneg_of_mem (W : WellFormed h bs fl) : ∀ i ∈ fl, 0 ≤ i := by
  intro i hi
  obtain ⟨b, hb, -, rfl⟩ := W.threaded.listed i hi
  exact (W.tiles.bounds hb).1

theorem coalesce_eq (W : WellFormed h bs fl) (hb : b ∈ bs) (hl : l ∈ bs) (hr : r ∈ bs)
    (hls : l.stop = b.start) (hrs : r.start = b.stop) :
    ∃ h' fl', coalesce h b.start = makeAvail h' (if l.free then l.start else b.start)
        ((if l.free then l.size else 0) + b.size + if r.free then r.size else 0) ∧
      Threaded h' {c | c ∈ bs} fl' ∧ h'.base = h.base ∧ h'.len = h.len ∧
      (∀ i, i ∈ fl' ↔ i ∈ fl ∧ ¬ (l.free = true ∧ i = l.start) ∧ ¬ (r.free = true ∧ i = r.start)) ∧
      (∀ j, ¬ IsLink {c | c ∈ bs} j → h'.array j = h.array j) ∧
      ∀ j, 0 ≤ h.array j → 0 ≤ h'.array j := by
  have T := W.threaded
  have hpos := W.nonneg_of_mem
  have hlr : l.start ≠ r.start := by
    have h₁ := (W.tiles.bounds hl).2.1
    have h₂ := (W.tiles.bounds hb).2.1
    simp only [Block.stop] at hls hrs
    omega
  have hleft : left h b.start = l.start := hls ▸ T.left_stop hl
  have hright : right h b.start = r.start := hrs ▸ T.right_start hb
  have hsz := T.size_start hb
  unfold coalesce
  simp only [hleft, hright, hsz, T.isAvail_start hl]
  cases hlf : l.free with
  | false =>
    simp only [Bool.false_eq_true, if_false, T.isAvail_start hr, false_and, not_false_eq_true,
      true_and, zero_add]
    cases hrf : r.free with
    | false => exact ⟨h, fl, by simp, T, rfl, rfl, by simp, fun _ _ => rfl, fun _ hj => hj⟩
    | true =>
      have hm := W.complete r hr hrf
      have T₁ := T.remove hm
      refine ⟨remove h r.start, fl.erase r.start, by simp [T₁.size_start hr], T₁,
        (remove_eq h _).1, (remove_eq h _).2.1, fun i => ?_, fun j hj => T.remove_frame hm hj,
        fun j hj => T.remove_nonneg hpos hm hj⟩
      rw [T.nodup.mem_erase_iff, and_comm]
      simp
  | true =>
    have hm := W.complete l hl hlf
    have T₁ := T.remove hm
    simp only [if_true, T₁.isAvail_start hr, T₁.size_start hl, true_and]
    cases hrf : r.free with
    | false =>
      refine ⟨remove h l.start, fl.erase l.start, by simp [add_comm], T₁, (remove_eq h _).1,
        (remove_eq h _).2.1, fun i => ?_, fun j hj => T.remove_frame hm hj,
        fun j hj => T.remove_nonneg hpos hm hj⟩
      rw [T.nodup.mem_erase_iff, and_comm]
      simp
    | true =>
      have hm' : r.start ∈ fl.erase l.start :=
        (T.nodup.mem_erase_iff).mpr ⟨hlr.symm, W.complete r hr hrf⟩
      have T₂ := T₁.remove hm'
      refine ⟨remove (remove h l.start) r.start, (fl.erase l.start).erase r.start,
        by simp [T₂.size_start hr, add_comm, add_left_comm], T₂,
        (remove_eq _ _).1.trans (remove_eq _ _).1,
        (remove_eq _ _).2.1.trans (remove_eq _ _).2.1, fun i => ?_,
        fun j hj => (T₁.remove_frame hm' hj).trans (T.remove_frame hm hj),
        fun j hj => T₁.remove_nonneg (fun i hi => hpos i (List.mem_of_mem_erase hi)) hm'
          (T.remove_nonneg hpos hm hj)⟩
      rw [T₁.nodup.mem_erase_iff, T.nodup.mem_erase_iff]
      simp only [true_and]
      tauto

theorem coalesce (W : WellFormed h bs fl) (hb : b ∈ bs) (hf : b.free = false) (hi : Interior h b) :
    ∃ m bs' fl', Released h bs b (coalesce h b.start) bs' fl' m := by
  obtain ⟨l, hl, r, hr, hls, hrs⟩ := W.neighbours hb hi
  obtain ⟨h', fl', heq, T', hbase, hlen, hfl, hframe, -⟩ := W.coalesce_eq hb hl hr hls hrs
  obtain ⟨hb₁, hb₂, hb₃⟩ := W.inner_bounds hb hi
  have hlp := W.tiles.bounds hl
  have hrp := W.tiles.bounds hr
  have hlin := fun hf => W.inner_bounds hl (W.inner_of_free hl hf)
  have hrin := fun hf => W.inner_bounds hr (W.inner_of_free hr hf)
  set m : Block := ⟨if l.free then l.start else b.start,
    (if l.free then l.size else 0) + b.size + if r.free then r.size else 0, true⟩ with hm
  have hstart : m.start = if l.free then l.start else b.start := rfl
  have hstop : m.stop = if r.free then r.stop else b.stop := by
    simp only [hm, Block.stop] at hls hrs ⊢
    split_ifs <;> omega
  have hlo : Boundary bs h.len m.start := by
    rw [hstart]
    split_ifs
    exacts [Or.inr ⟨l, hl, rfl⟩, Or.inr ⟨b, hb, rfl⟩]
  have hhi : Boundary bs h.len m.stop := by
    rw [hstop]
    split_ifs
    exacts [W.tiles.boundary_stop hr, W.tiles.boundary_stop hb]
  have hsize : 4 ≤ m.size := by
    simp only [hm]
    split_ifs <;> omega
  have hcov : m.start ≤ b.start ∧ b.stop ≤ m.stop := by
    rw [hstart, hstop]
    simp only [Block.stop] at hls hrs ⊢
    split_ifs <;> omega
  have hin : 2 ≤ m.start ∧ m.stop ≤ h.len - 2 := by
    rw [hstart, hstop]
    constructor <;> split_ifs with hf
    exacts [(hlin hf).1, hb₁, (hrin hf).2.2, hb₃]
  have hleft : ∀ c ∈ bs, c.stop ≤ b.start → c.stop ≤ m.start ∨ (c = l ∧ l.free = true) := by
    intro c hc hcb
    have hcp := (W.tiles.bounds hc).2.1
    rcases W.tiles.apart hc hl with rfl | hcl
    · cases hcf : c.free with
      | false => exact Or.inl (by simpa [hstart, hcf] using hcb)
      | true => exact Or.inr ⟨rfl, rfl⟩
    · refine Or.inl ?_
      rw [hstart]
      simp only [Block.Apart, Block.stop] at hcl hcb hls ⊢
      split_ifs <;> omega
  have hright : ∀ c ∈ bs, b.stop ≤ c.start → m.stop ≤ c.start ∨ (c = r ∧ r.free = true) := by
    intro c hc hcb
    have hcp := (W.tiles.bounds hc).2.1
    rcases W.tiles.apart hc hr with rfl | hcr
    · cases hcf : c.free with
      | false => exact Or.inl (by simpa [hstop, hcf] using hcb)
      | true => exact Or.inr ⟨rfl, rfl⟩
    · refine Or.inl ?_
      rw [hstop]
      simp only [Block.Apart, Block.stop] at hcr hcb hrs ⊢
      split_ifs <;> omega
  -- whatever meets `m` is `b` or one of the two neighbours that joined it
  have hsw : ∀ c ∈ bs, m.Apart c ∨ c = b ∨ (c = l ∧ l.free = true) ∨ (c = r ∧ r.free = true) := by
    intro c hc
    rcases W.tiles.apart hc hb with heqb | hcb | hbc
    · exact Or.inr (Or.inl heqb)
    · rcases hleft c hc hcb with hap | hcl
      exacts [Or.inl (Or.inr hap), Or.inr (Or.inr (Or.inl hcl))]
    · rcases hright c hc hbc with hap | hcr
      exacts [Or.inl (Or.inl hap), Or.inr (Or.inr (Or.inr hcr))]
  have hml : l.free = true → l.start = m.start := fun hlf => by rw [hstart, if_pos hlf]
  have hmr : r.free = true → r.stop = m.stop := fun hrf => by rw [hstop, if_pos hrf]
  suffices hmerge : ∃ bs', Released h bs b (makeAvail h' m.start m.size) bs' (m.start :: fl') m by
    obtain ⟨bs', hR⟩ := hmerge
    exact ⟨m, bs', m.start :: fl', by rw [heq]; exact hR⟩
  refine W.merge T' hbase hlen rfl hlo hhi hsize hin hcov (fun i => ?_) (fun c hc => ?_)
    (fun hM c hc hadj => ?_) hframe
  · rw [hfl]
    refine and_congr_right fun hi => ⟨fun hn => ?_, fun hout => ⟨?_, ?_⟩⟩
    · obtain ⟨hnl, hnr⟩ := hn
      obtain ⟨c, hc, hcf, rfl⟩ := W.threaded.listed i hi
      have hcp := (W.tiles.bounds hc).2.1
      rcases hsw c hc with hap | rfl | ⟨rfl, hlf⟩ | ⟨rfl, hrf⟩
      · simp only [Block.Apart, Block.stop] at hap ⊢
        omega
      · exact absurd hcf (by simp [hf])
      · exact absurd ⟨hlf, rfl⟩ hnl
      · exact absurd ⟨hrf, rfl⟩ hnr
    · rintro ⟨hlf, rfl⟩
      have h₁ := hml hlf
      have h₂ : m.stop = m.start + m.size := rfl
      omega
    · rintro ⟨hrf, rfl⟩
      have h₁ : r.start + r.size = m.stop := hmr hrf
      have h₂ : b.stop = b.start + b.size := rfl
      omega
  · rcases hsw c hc with hap | hcb | ⟨rfl, hlf⟩ | ⟨rfl, hrf⟩
    exacts [Or.inl hap, Or.inr (Or.inl hcb), Or.inr (Or.inr hlf), Or.inr (Or.inr hrf)]
  · rcases hadj with hcm | hmc
    · cases hlf : l.free with
      | true => exact (hM c hc l hl (by rw [hml hlf, hcm])).resolve_right (by simp [hlf])
      | false =>
        have hcl : c.stop = l.stop := by rw [hcm, hstart, hlf, hls]; simp
        rw [W.tiles.eq_of_stop hc hl hcl, hlf]
    · cases hrf : r.free with
      | true => exact (hM r hr c hc (by rw [hmr hrf, hmc])).resolve_left (by simp [hrf])
      | false =>
        have hcr : c.start = r.start := by rw [← hmc, hstop, hrf, hrs]; simp
        rw [W.tiles.eq_of_start hc hr hcr, hrf]

end WellFormed

/-- The free block `b` has been taken for a request of `ints` words: the block `t` at the same
place is taken, and what is left over, if it is worth a block, is the new list head. -/
structure Taken (h : Heap) (bs : List Block) (fl : List ℤ) (b : Block) (ints : ℤ) (h' : Heap)
    (bs' : List Block) (fl' : List ℤ) (t : Block) : Prop where
  wf : WellFormed h' bs' fl'
  base : h'.base = h.base
  len : h'.len = h.len
  start : t.start = b.start
  free : t.free = false
  fits : ints ≤ b.size
  size : t.size = if 4 ≤ b.size - ints then ints else b.size
  blocks : ∀ c, c ∈ bs' ↔ c = t ∨
    (4 ≤ b.size - ints ∧ c = ⟨b.start + ints, b.size - ints, true⟩) ∨ (c ∈ bs ∧ c ≠ b)
  list : fl' = if 4 ≤ b.size - ints then (b.start + ints) :: fl.erase b.start
    else fl.erase b.start
  merged : Merged bs → Merged bs'
  frame : ∀ c ∈ bs, c.free = false → ∀ j, c.start ≤ j → j < c.stop → h'.array j = h.array j

theorem Taken.size_bounds {h h' : Heap} {bs bs' : List Block} {fl fl' : List ℤ} {b t : Block}
    {ints : ℤ} (ht : Taken h bs fl b ints h' bs' fl' t) :
    ints ≤ t.size ∧ t.size ≤ ints + 3 := by
  have hf := ht.fits
  rw [ht.size]
  split_ifs <;> omega

namespace WellFormed

variable {h h' : Heap} {bs : List Block} {fl : List ℤ} {b c t : Block} {ints : ℤ}

theorem write (W : WellFormed h bs fl) (hb : b ∈ bs) (hf : b.free = false) {j : ℤ}
    (hj : Payload b j) (v : ℤ) : WellFormed (h.store j v) bs fl :=
  ⟨W.long, W.tiles, W.threaded.write hb hf hj v, W.complete, W.first, W.last, W.room⟩

theorem remove_threaded (W : WellFormed h bs fl) (hb : b ∈ bs) (hf : b.free = true) :
    Threaded (remove h b.start) {c | c ∈ bs ∧ c ≠ b} (fl.erase b.start) := by
  have T := W.threaded.remove (W.complete b hb hf)
  refine T.restrict (fun c hc => hc.1) fun c hc _ hci => ⟨hc, ?_⟩
  rintro rfl
  exact ((W.threaded.nodup.mem_erase_iff).mp hci).1 rfl

theorem mem_outside (W : WellFormed h bs fl) (hb : b ∈ bs) (hc : c ∈ bs) :
    c.stop ≤ b.start ∨ b.stop ≤ c.start ↔ c ≠ b := by
  constructor
  · rintro hout rfl
    have := (W.tiles.bounds hb).2.1
    simp only [Block.stop] at hout
    omega
  · exact fun hne => (W.tiles.apart hc hb).resolve_left hne

theorem carve_whole (W : WellFormed h bs fl) (hb : b ∈ bs) (hf : b.free = true)
    (hle : ints ≤ b.size) (hno : ¬ 4 ≤ b.size - ints) :
    ∃ bs', Taken h bs fl b ints (carve h b.start b.size ints) bs' (fl.erase b.start)
      ⟨b.start, b.size, false⟩ := by
  have hi := W.inner_bounds hb (W.inner_of_free hb hf)
  have T := (W.remove_threaded hb hf).makeTaken (b := ⟨b.start, b.size, false⟩)
    (show 0 < b.size by omega) rfl
    fun c hc => ((W.mem_outside hb hc.1).mpr hc.2).symm
  have hcarve : carve h b.start b.size ints = makeTaken (remove h b.start) b.start b.size := by
    simp only [carve, if_neg hno]
  obtain ⟨hbase, hlen, -, -⟩ := makeTaken_eq (remove h b.start) b.start
    (show 0 < b.size by omega)
  obtain ⟨hbase', hlen', -, -⟩ := remove_eq h b.start
  obtain ⟨bs', htiles, hbs⟩ := W.tiles.retile [⟨b.start, b.size, false⟩]
    (Or.inr ⟨b, hb, rfl⟩) (W.tiles.boundary_stop hb) (by simp only [Block.stop]; omega) ⟨rfl, show 0 < b.size by omega, rfl⟩
  have hbs : ∀ c, c ∈ bs' ↔ c = ⟨b.start, b.size, false⟩ ∨ (c ∈ bs ∧ c ≠ b) := fun c => by
    rw [hbs c, List.mem_singleton]
    exact or_congr_right (and_congr_right fun hc => W.mem_outside hb hc)
  have hlen'' : (carve h b.start b.size ints).len = h.len := by rw [hcarve, hlen, hlen']
  refine ⟨bs', ⟨hlen'' ▸ W.long, hlen'' ▸ htiles, ?_, fun c hc hcf => ?_, ?_, ?_,
    fun c hc h₁ h₂ => ?_⟩, by rw [hcarve, hbase, hbase'], hlen'', rfl, rfl, hle,
    by rw [if_neg hno], fun c => ?_, by rw [if_neg hno], fun hM c hc d hd hcd => ?_, fun c hc hcf j h₁ h₂ => ?_⟩
  · rw [hcarve]
    rwa [show {c | c ∈ bs'} = insert ⟨b.start, b.size, false⟩ {c | c ∈ bs ∧ c ≠ b} from
      Set.ext hbs]
  · rcases (hbs c).mp hc with rfl | ⟨hc, hcb⟩
    · cases hcf
    · exact (W.threaded.nodup.mem_erase_iff).mpr
        ⟨fun heq => hcb (W.tiles.eq_of_start hc hb heq), W.complete c hc hcf⟩
  · exact (hbs _).mpr (Or.inr ⟨W.first, by rintro rfl; cases hf⟩)
  · rw [hlen'']
    exact (hbs _).mpr (Or.inr ⟨W.last, by rintro rfl; cases hf⟩)
  · rcases (hbs c).mp hc with rfl | ⟨hc, -⟩
    · exact hi.2.1
    · exact W.room c hc h₁ (hlen'' ▸ h₂)
  · rw [hbs c]
    simp [hno]
  · rcases (hbs c).mp hc with rfl | ⟨hc', -⟩
    · exact Or.inl rfl
    · rcases (hbs d).mp hd with rfl | ⟨hd', -⟩
      · exact Or.inr rfl
      · exact hM c hc' d hd' hcd
  · have hnl := W.not_isLink hc hcf h₁ h₂
    have hcb : c ≠ b := by rintro rfl; simp [hf] at hcf
    rw [hcarve, Threaded.makeTaken_frame (b := ⟨b.start, b.size, false⟩) (show 0 < b.size by omega),
      W.threaded.remove_frame (W.complete b hb hf) hnl]
    have hout := (W.mem_outside hb hc).mpr hcb
    simp only [Block.stop] at hout h₂ ⊢
    omega

theorem carve_split (W : WellFormed h bs fl) (hb : b ∈ bs) (hf : b.free = true) (h4 : 4 ≤ ints)
    (hyes : 4 ≤ b.size - ints) :
    ∃ bs', Taken h bs fl b ints (carve h b.start b.size ints) bs'
      ((b.start + ints) :: fl.erase b.start) ⟨b.start, ints, false⟩ := by
  have hi := W.inner_bounds hb (W.inner_of_free hb hf)
  have hstop : b.stop = b.start + b.size := rfl
  have hout : ∀ c ∈ bs, c ≠ b → c.stop ≤ b.start ∨ b.stop ≤ c.start := fun c hc hcb =>
    (W.mem_outside hb hc).mpr hcb
  have T₁ := (W.remove_threaded hb hf).makeTaken (b := ⟨b.start, ints, false⟩)
    (show 0 < ints by omega) rfl fun c hc => by
      have := hout c hc.1 hc.2
      simp only [Block.Apart, Block.stop] at this ⊢
      omega
  have T₂ := T₁.makeAvail (b := ⟨b.start + ints, b.size - ints, true⟩) hyes
    (show b.start + ints ≠ 0 by omega) rfl fun c hc => by
      rcases hc with rfl | hc
      · exact Or.inr le_rfl
      · have := hout c hc.1 hc.2
        simp only [Block.Apart, Block.stop] at this ⊢
        omega
  set h₁ := makeTaken (remove h b.start) b.start ints with hh₁
  have hcarve : carve h b.start b.size ints = makeAvail h₁ (b.start + ints) (b.size - ints) := by
    simp only [carve, if_pos hyes, hh₁]
  obtain ⟨hbase, hlen, -, -⟩ := makeTaken_eq (remove h b.start) b.start
    (show 0 < ints by omega)
  obtain ⟨hbase', hlen', -, -⟩ := remove_eq h b.start
  obtain ⟨hbase'', hlen'', -, -⟩ := makeAvail_eq h₁ (b.start + ints) hyes
  obtain ⟨bs', htiles, hbs⟩ := W.tiles.retile
    [⟨b.start, ints, false⟩, ⟨b.start + ints, b.size - ints, true⟩] (Or.inr ⟨b, hb, rfl⟩)
    (W.tiles.boundary_stop hb) (by omega)
    ⟨rfl, show 0 < ints by omega, rfl, show 0 < b.size - ints by omega,
      show b.start + ints + (b.size - ints) = b.stop by omega⟩
  have hbs : ∀ c, c ∈ bs' ↔ c = ⟨b.start + ints, b.size - ints, true⟩ ∨
      c = ⟨b.start, ints, false⟩ ∨ (c ∈ bs ∧ c ≠ b) := fun c => by
    rw [hbs c, List.mem_cons, List.mem_singleton, or_left_comm, or_assoc]
    exact or_congr_right (or_congr_right (and_congr_right fun hc => W.mem_outside hb hc))
  have hlen₃ : (carve h b.start b.size ints).len = h.len := by
    rw [hcarve, hlen'', hlen, hlen']
  refine ⟨bs', ⟨hlen₃ ▸ W.long, hlen₃ ▸ htiles, ?_, fun c hc hcf => ?_, ?_, ?_,
    fun c hc h₁ h₂ => ?_⟩, by rw [hcarve, hbase'', hbase, hbase'], hlen₃, rfl, rfl,
    by omega, by rw [if_pos hyes], fun c => ?_, by rw [if_pos hyes],
    fun hM c hc d hd hcd => ?_, fun c hc hcf j h₁ h₂ => ?_⟩
  · rw [hcarve]
    rwa [show {c | c ∈ bs'} = insert ⟨b.start + ints, b.size - ints, true⟩
      (insert ⟨b.start, ints, false⟩ {c | c ∈ bs ∧ c ≠ b}) from Set.ext hbs]
  · rcases (hbs c).mp hc with rfl | rfl | ⟨hc, hcb⟩
    · exact List.mem_cons_self
    · cases hcf
    · exact List.mem_cons_of_mem _ ((W.threaded.nodup.mem_erase_iff).mpr
        ⟨fun heq => hcb (W.tiles.eq_of_start hc hb heq), W.complete c hc hcf⟩)
  · exact (hbs _).mpr (Or.inr (Or.inr ⟨W.first, by rintro rfl; cases hf⟩))
  · rw [hlen₃]
    exact (hbs _).mpr (Or.inr (Or.inr ⟨W.last, by rintro rfl; cases hf⟩))
  · rcases (hbs c).mp hc with rfl | rfl | ⟨hc, -⟩
    · exact hyes
    · exact h4
    · exact W.room c hc h₁ (hlen₃ ▸ h₂)
  · rw [hbs c]
    simp only [hyes, true_and]
    exact or_left_comm
  · -- the new free block has the taken one on its left and `b`'s right neighbour on its right
    rcases (hbs c).mp hc with rfl | rfl | ⟨hc', hcb⟩
    · rcases (hbs d).mp hd with rfl | rfl | ⟨hd', hdb⟩
      · exact absurd hcd (by simp only [Block.stop]; omega)
      · exact Or.inr rfl
      · have hbd : b.stop = d.start := by simp only [Block.stop] at hcd ⊢; omega
        exact Or.inr ((hM b hb d hd' hbd).resolve_left (by simp [hf]))
    · exact Or.inl rfl
    · rcases (hbs d).mp hd with rfl | rfl | ⟨hd', hdb⟩
      · have := hout c hc' hcb
        have := (W.tiles.bounds hc').2.1
        simp only [Block.stop] at *
        omega
      · exact Or.inr rfl
      · exact hM c hc' d hd' hcd
  · have hnl := W.not_isLink hc hcf h₁ h₂
    have hcb : c ≠ b := by rintro rfl; simp [hf] at hcf
    have := hout c hc hcb
    rw [hcarve, T₁.makeAvail_frame (b := ⟨b.start + ints, b.size - ints, true⟩) hyes,
      Threaded.makeTaken_frame (b := ⟨b.start, ints, false⟩) (show 0 < ints by omega),
      W.threaded.remove_frame (W.complete b hb hf) hnl]
    · simp only [Block.stop] at this h₂ ⊢
      omega
    · simp only [Block.stop] at this h₂ ⊢
      omega
    · rintro ⟨d, rfl | hd, hdf, hj⟩
      · cases hdf
      · exact hnl ⟨d, hd.1, hdf, hj⟩

theorem carve (W : WellFormed h bs fl) (hb : b ∈ bs) (hf : b.free = true) (h4 : 4 ≤ ints)
    (hle : ints ≤ b.size) :
    ∃ t bs' fl', Taken h bs fl b ints (carve h b.start b.size ints) bs' fl' t := by
  by_cases hyes : 4 ≤ b.size - ints
  · obtain ⟨bs', ht⟩ := W.carve_split hb hf h4 hyes
    exact ⟨_, bs', _, ht⟩
  · obtain ⟨bs', ht⟩ := W.carve_whole hb hf hle hyes
    exact ⟨_, bs', _, ht⟩

end WellFormed

end OsShell.FirstFit
