import OsShell.FirstFit.WellFormed

/-!
# Heaps whose taken blocks have owners

`Owned h ps bs fl` adds pointers to a well-formed heap: each taken block between the
sentinels belongs to the one pointer of `ps` that points behind its header. Taking
a block adds an owner and giving one back removes it.
-/

namespace OsShell.FirstFit

open Tiling LinkedList

structure Owned (h : Heap) (ps : List ℤ) (bs : List Block) (fl : List ℤ) : Prop where
  base : 0 ≤ h.base
  fits : h.base + 4 * h.len ≤ 2 ^ 32
  wf : WellFormed h bs fl
  merged : Merged bs
  owners : ∀ p, p ∈ ps ↔
    ∃ b ∈ bs, b.free = false ∧ Interior h b ∧ p = h.base + 4 * (b.start + 1)
  nodup : ps.Nodup

namespace Owned

variable {h h' : Heap} {ps qs : List ℤ} {bs bs' : List Block} {fl fl' : List ℤ} {b t m : Block}

theorem len_le (O : Owned h ps bs fl) : h.len ≤ 2 ^ 30 := by
  have h₁ := O.base
  have h₂ := O.fits
  omega

theorem perm (O : Owned h ps bs fl) (hp : ps.Perm qs) : Owned h qs bs fl :=
  ⟨O.base, O.fits, O.wf, O.merged, fun p => hp.mem_iff.symm.trans (O.owners p),
    hp.nodup_iff.mp O.nodup⟩

theorem block_unique (O : Owned h ps bs fl) {c : Block} (hb : b ∈ bs) (hc : c ∈ bs)
    (heq : h.base + 4 * (b.start + 1) = h.base + 4 * (c.start + 1)) : b = c :=
  O.wf.tiles.eq_of_start hb hc (by omega)

theorem taken (O : Owned h ps bs fl) {ints : ℤ} (hb : b ∈ bs) (hf : b.free = true)
    (ht : Taken h bs fl b ints h' bs' fl' t) :
    Owned h' ((h.base + 4 * (b.start + 1)) :: ps) bs' fl' := by
  have hinner : ∀ c, Interior h' c ↔ Interior h c := fun c => by simp [Interior, ht.len]
  have hold : ∀ c ∈ bs, c.free = false → c ≠ b := by
    rintro c - hcf rfl
    simp [hf] at hcf
  refine ⟨ht.base ▸ O.base, by rw [ht.base, ht.len]; exact O.fits, ht.wf, ht.merged O.merged,
    fun p => ?_, List.nodup_cons.mpr ⟨fun hm => ?_, O.nodup⟩⟩
  · simp only [hinner, List.mem_cons, O.owners, ht.base]
    constructor
    · rintro (rfl | ⟨c, hc, hcf, hci, rfl⟩)
      · refine ⟨t, (ht.blocks t).mpr (Or.inl rfl), ht.free, ?_, by rw [ht.start]⟩
        simpa only [Interior, ht.start] using O.wf.inner_of_free hb hf
      · exact ⟨c, (ht.blocks c).mpr (Or.inr (Or.inr ⟨hc, hold c hc hcf⟩)), hcf, hci, rfl⟩
    · rintro ⟨c, hc, hcf, hci, rfl⟩
      rcases (ht.blocks c).mp hc with rfl | ⟨-, rfl⟩ | ⟨hc, -⟩
      · exact Or.inl (by rw [ht.start])
      · cases hcf
      · exact Or.inr ⟨c, hc, hcf, hci, rfl⟩
  · obtain ⟨c, hc, hcf, -, heq⟩ := (O.owners _).mp hm
    exact hold c hc hcf (O.block_unique hc hb heq.symm)

theorem taken_iff (O : Owned h ps bs fl) (hb : b ∈ bs) (hi : Interior h b)
    (hR : Released h bs b h' bs' fl' m) {c : Block} (hcf : c.free = false) :
    c ∈ bs' ↔ c ∈ bs ∧ c ≠ b := by
  rw [hR.blocks]
  constructor
  · rintro (rfl | ⟨hc, hap⟩)
    · simp [hR.free] at hcf
    · refine ⟨hc, ?_⟩
      rintro rfl
      have h₁ := (O.wf.inner_bounds hb hi).2.1
      have h₂ := hR.covers
      simp only [Block.Apart, Block.stop] at h₂ hap
      omega
  · rintro ⟨hc, hcb⟩
    exact Or.inr ⟨hc, (hR.swallowed c hc).resolve_right (by simp [hcb, hcf])⟩

theorem released (O : Owned h ps bs fl) (hb : b ∈ bs) (hf : b.free = false) (hi : Interior h b)
    (hR : Released h bs b h' bs' fl' m) :
    Owned h' (ps.erase (h.base + 4 * (b.start + 1))) bs' fl' := by
  have hinner : ∀ c, Interior h' c ↔ Interior h c := fun c => by simp [Interior, hR.len]
  refine ⟨hR.base ▸ O.base, by rw [hR.base, hR.len]; exact O.fits, hR.wf, hR.merged O.merged,
    fun p => ?_, O.nodup.erase _⟩
  simp only [hinner, hR.base, O.nodup.mem_erase_iff, O.owners]
  constructor
  · rintro ⟨hne, c, hc, hcf, hci, rfl⟩
    exact ⟨c, (O.taken_iff hb hi hR hcf).mpr ⟨hc, by rintro rfl; exact hne rfl⟩, hcf, hci, rfl⟩
  · rintro ⟨c, hc, hcf, hci, rfl⟩
    obtain ⟨hc, hcb⟩ := (O.taken_iff hb hi hR hcf).mp hc
    exact ⟨fun heq => hcb (O.block_unique hc hb heq), c, hc, hcf, hci, rfl⟩

theorem write (O : Owned h ps bs fl) (hb : b ∈ bs) (hf : b.free = false) {j : ℤ}
    (hj : Payload b j) (v : ℤ) : Owned (h.store j v) ps bs fl :=
  ⟨O.base, O.fits, O.wf.write hb hf hj v, O.merged, O.owners, O.nodup⟩

end Owned

end OsShell.FirstFit
