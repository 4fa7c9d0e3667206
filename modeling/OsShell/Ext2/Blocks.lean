import OsShell.Ext2.Files

/-!
# The blocks of any node

Whatever an i-node says, `read_block` has one of two outcomes on a drive that can be
read: the bytes of one block of the disk, or a failed assertion or a panic, before
which nothing is put into the buffer or less than a block.
-/

namespace OsShell.Ext2.Node

open Bytes Stopping

variable {node : Node} {disk junk buffer : Buffer} {index p : ℕ}

/-- The disk block that is taken for a block of the node; there is none behind the indirect block's,
and an entry of that may lie beyond the drive. -/
def blockNumber (node : Node) (disk : Buffer) (index : ℕ) : Option ℕ :=
  if index < 12 then some (node.data.direct index)
  else
    let entry := (node.data.indirect1 * node.blockSize + (index - 12) * 4) % 2 ^ 32
    if index < 12 + node.blockSize / 4 ∧ entry + 4 ≤ 2 ^ 32 - 1 then some (le32 disk entry) else none

def delivers (node : Node) (disk : Buffer) (index : ℕ) : Option Buffer :=
  if index < node.data.nSectors / (node.blockSize / 512) then
    (node.blockNumber disk index).bind fun b =>
      let start := b * node.blockSize % 2 ^ 32
      if start + node.blockSize ≤ 2 ^ 32 - 1 then some fun i => disk (start + i) else none
  else none

def delivered (node : Node) (disk : Buffer) (i : ℕ) : UInt8 :=
  ((node.delivers disk (i / node.blockSize)).getD fun _ => 0) (i % node.blockSize)

variable (hdrive : node.ide.io.Holds disk)

include hdrive

theorem readThing_beyond {offset size : ℕ} (hoff : offset < 2 ^ 32)
    (hbeyond : ¬ offset + size ≤ 2 ^ 32 - 1) :
    ∃ e, node.ide.io.readThing junk offset size = .error e := by
  have hshort : ¬ ((min size (node.ide.io.sizeInBytes - offset) : ℕ) : ℤ) = size := by
    change ¬ ((min _ (2 ^ 32 - 1 - _) : ℕ) : ℤ) = _
    omega
  rw [ BlockIO.readThing, BlockIO.readAll_spec hdrive (by change _ ≤ 2 ^ 32 - 1; omega)]
  simp only [ok_bind, assert, if_neg hshort]
  exact ⟨_, rfl⟩

theorem blockIndex_eq (junk : Buffer) (index : ℕ) :
    match node.blockNumber disk index with
    | some b => node.blockIndex junk index = .ok b
    | none => ∃ e, node.blockIndex junk index = .error e := by
  unfold blockNumber blockIndex
  by_cases hdirect : index < 12
  · simp only [if_pos hdirect]
  simp only [if_neg hdirect]
  by_cases hlt : index < 12 + node.blockSize / 4
  · have hmod := Nat.mod_lt (node.data.indirect1 * node.blockSize + (index - 12) * 4)
      (show 0 < 2 ^ 32 by decide)
    simp only [if_pos hlt, and_iff_right hlt]
    generalize (node.data.indirect1 * node.blockSize + (index - 12) * 4) % 2 ^ 32 = entry at hmod ⊢
    by_cases hfit : entry + 4 ≤ 2 ^ 32 - 1
    · rw [if_pos hfit, BlockIO.readThing_spec hdrive (by exact hfit)]
      refine congrArg Except.ok (le32_congr fun i hi => ?_)
      rw [put_of_mem _ _ hi]
    · rw [if_neg hfit]
      obtain ⟨e, he⟩ : ∃ e, node.ide.io.readThing junk entry 4 = .error e :=
        readThing_beyond hdrive hmod hfit
      exact ⟨e, by rw [he, error_bind]⟩
  · rw [if_neg hlt, if_neg fun h => hlt h.1]
    exact ⟨_, rfl⟩

theorem readBlock_delivers {src : Buffer} (h : node.delivers disk index = some src) :
    node.readBlock junk index p buffer = .ok (put p node.blockSize src buffer) := by
  have hindex := blockIndex_eq hdrive junk index
  unfold delivers at h
  split_ifs at h with hsector
  obtain ⟨b, hb, h⟩ := Option.bind_eq_some_iff.mp h
  simp only [hb] at hindex
  simp only at h
  split_ifs at h with hin
  obtain rfl := Option.some.inj h
  exact readBlock_of_blockIndex hdrive hindex hsector hin

theorem readBlock_stops (h : node.delivers disk index = none) :
    ∃ e, node.readBlock junk index p buffer = .error e := by
  have hindex := blockIndex_eq hdrive junk index
  unfold delivers at h
  split_ifs at h with hsector
  · cases hb : node.blockNumber disk index with
    | none =>
      simp only [hb] at hindex
      obtain ⟨e, he⟩ := hindex
      exact ⟨e, by rw [readBlock, assert_true hsector, ok_bind, he, error_bind]⟩
    | some b =>
      simp only [hb] at hindex
      simp only [hb, Option.bind_some] at h
      split_ifs at h with hin
      exact readBlock_error_of_blockIndex hdrive hindex fun hgood => hin hgood.2
  · exact ⟨_, by simp only [readBlock, assert, if_neg hsector]; rfl⟩

section Device

variable (hpos : 0 < node.blockSize)
include hpos

theorem reads_delivered {b : ℕ} {src : Buffer} (h : node.delivers disk b = some src) (junk : Buffer) :
    (node.io junk).Reads (node.delivered disk) b := by
  intro p buffer
  refine (readBlock_delivers hdrive h).trans (congrArg Except.ok (put_congr buffer fun j hj => ?_))
  change _ = node.delivered disk (b * node.blockSize + j)
  have hdiv : (b * node.blockSize + j) / node.blockSize = b := by
    rw [Nat.add_comm, Nat.add_mul_div_right _ _ hpos, Nat.div_eq_of_lt hj, Nat.zero_add]
  have hmod : (b * node.blockSize + j) % node.blockSize = j := by
    rw [Nat.add_comm, Nat.add_mul_mod_self_right, Nat.mod_eq_of_lt hj]
  rw [delivered, hdiv, hmod, h, Option.getD_some]

theorem reads_or_fails (b : ℕ) (junk : Buffer) :
    (node.io junk).Reads (node.delivered disk) b ∨ (node.io junk).Fails b := by
  cases h : node.delivers disk b with
  | some src => exact .inl (reads_delivered hdrive hpos h junk)
  | none => exact .inr fun _ _ => readBlock_stops hdrive h

end Device

omit hdrive in
theorem Stored.delivers_eq (h : node.Stored disk) {b : ℕ}
    (hi : index * node.blockSize < node.data.sizeLow) (hb : (node.pointers disk)[index]? = some b) :
    node.delivers disk index = some fun i => disk (b * node.blockSize + i) := by
  have hnumber : node.blockNumber disk index = some b := by
    unfold blockNumber
    by_cases hdirect : index < 12
    · rw [if_pos hdirect, ← hb, getElem?_pointers_direct node disk hdirect]
    · have hlt : index < 12 + node.blockSize / 4 := by
        have := (List.getElem?_eq_some_iff.mp hb).1
        simpa [pointers] using this
      have hin := (h.indirect ((Nat.mul_le_mul_right _ (by omega)).trans_lt hi)).2
      rw [Reachable, Nat.add_mul, Nat.one_mul] at hin
      rw [getElem?_pointers_indirect node disk (by omega) hlt] at hb
      generalize node.data.indirect1 * node.blockSize = d at hin hb ⊢
      have hwrap : (d + (index - 12) * 4) % 2 ^ 32 = d + (index - 12) * 4 :=
        Nat.mod_eq_of_lt (by omega)
      simp only [if_neg hdirect, hwrap]
      rw [if_pos ⟨hlt, by omega⟩, hb]
  obtain ⟨b', hb', -, hin⟩ := h.block index hi
  obtain rfl : b = b' := Option.some.inj (hb.symm.trans hb')
  rw [Reachable, Nat.add_mul, Nat.one_mul] at hin
  have hwrap : b * node.blockSize % 2 ^ 32 = b * node.blockSize := Nat.mod_eq_of_lt (by omega)
  rw [delivers, if_pos (h.index_lt_sectors hi), hnumber, Option.bind_some, hwrap, if_pos hin]

end OsShell.Ext2.Node
