import OsShell.Ext2.Files

/-!
# Files with holes

A file system need not keep blocks of zeros: the pointer of such a block is zero,
and so is that of an indirect block which would list nothing else. `read_block`
knows no holes. It takes a zero for the number of a block of the disk, and it
compares the number of a file's block with the sectors that the file has, which
are fewer the more holes there are.
-/

namespace OsShell.Ext2.Node

open Bytes Stopping

variable {node : Node} {disk junk buffer : Buffer} {index offset n p : ℕ}

def diskBlock (node : Node) (disk : Buffer) (index : ℕ) : Option ℕ :=
  if 12 ≤ index ∧ node.data.indirect1 = 0 then none
  else ((node.pointers disk)[index]?).filter (· ≠ 0)

def fileByte (node : Node) (disk : Buffer) (i : ℕ) : UInt8 :=
  match node.diskBlock disk (i / node.blockSize) with
  | some b => disk (b * node.blockSize + i % node.blockSize)
  | none => 0

/-- The blocks that the file takes, its indirect block among them. -/
def allocated (node : Node) (disk : Buffer) : ℕ :=
  ((List.range (12 + node.blockSize / 4)).filter fun i => (node.diskBlock disk i).isSome).length +
    if node.data.indirect1 = 0 then 0 else 1

structure SparseFile (node : Node) (disk : Buffer) : Prop where
  isFile : node.data.isFile
  drive : node.ide.io.Holds disk
  blockSize : ∃ k, node.blockSize = 1024 * 2 ^ k
  blockSize_lt : node.blockSize < 2 ^ 32
  size_le : node.data.sizeLow ≤ (12 + node.blockSize / 4) * node.blockSize
  sectors : node.data.nSectors = node.allocated disk * (node.blockSize / 512)
  indirect : node.data.indirect1 ≠ 0 → node.Reachable node.data.indirect1
  block : ∀ i b, node.diskBlock disk i = some b → node.Reachable b

def pointer (node : Node) (disk : Buffer) (index : ℕ) : ℕ :=
  ((node.pointers disk)[index]?).getD 0

def blockStart (node : Node) (disk : Buffer) (index : ℕ) : ℕ :=
  node.pointer disk index * node.blockSize % 2 ^ 32

def readByte (node : Node) (disk : Buffer) (i : ℕ) : UInt8 :=
  disk (node.blockStart disk (i / node.blockSize) + i % node.blockSize)

/-- The number of the byte's block is below the blocks that the sectors make, and if the block is a
hole, then what the drive has in its place can be read and is zero at this byte. -/
def ReadsAsMeant (node : Node) (disk : Buffer) (i : ℕ) : Prop :=
  i / node.blockSize < node.data.nSectors / (node.blockSize / 512) ∧
    (node.diskBlock disk (i / node.blockSize) = none →
      node.blockStart disk (i / node.blockSize) + node.blockSize ≤ 2 ^ 32 - 1 ∧
        node.readByte disk i = 0)

namespace SparseFile

variable (h : node.SparseFile disk)

include h

theorem blockSize_pos : 0 < node.blockSize := by
  obtain ⟨k, hk⟩ := h.blockSize
  rw [hk]
  positivity

theorem getElem?_pointers (hi : index * node.blockSize < node.data.sizeLow) :
    (node.pointers disk)[index]? = some (node.pointer disk index) := by
  have hlt : index < (node.pointers disk).length := by
    have := Nat.lt_of_mul_lt_mul_right (hi.trans_le h.size_le)
    simpa [pointers] using this
  rw [pointer, List.getElem?_eq_getElem hlt, Option.getD_some]

theorem reachable_indirect : node.Reachable node.data.indirect1 := by
  by_cases hzero : node.data.indirect1 = 0
  · have := h.blockSize_lt
    rw [Reachable, hzero]
    omega
  · exact h.indirect hzero

theorem blockStart_of_diskBlock {b : ℕ} (hi : index * node.blockSize < node.data.sizeLow)
    (hb : node.diskBlock disk index = some b) :
    node.blockStart disk index = b * node.blockSize ∧
      b * node.blockSize + node.blockSize ≤ 2 ^ 32 - 1 := by
  have hin := h.block index b hb
  rw [Reachable, Nat.add_mul, Nat.one_mul] at hin
  rw [diskBlock, h.getElem?_pointers hi] at hb
  split at hb
  · cases hb
  · obtain ⟨hb, -⟩ := Option.filter_eq_some_iff.mp hb
    obtain rfl := Option.some.inj hb
    exact ⟨Nat.mod_eq_of_lt (by omega), hin⟩

theorem reads_of_good (hi : index * node.blockSize < node.data.sizeLow)
    (hsector : index < node.data.nSectors / (node.blockSize / 512))
    (hin : node.blockStart disk index + node.blockSize ≤ 2 ^ 32 - 1) :
    (node.io junk).Reads (node.readByte disk) index := by
  intro p buffer
  refine (readBlock_of_pointer h.drive (h.getElem?_pointers hi) (fun _ => h.reachable_indirect)
    hsector hin).trans (congrArg Except.ok (put_congr buffer fun j hj => ?_))
  change _ = node.readByte disk (index * node.blockSize + j)
  have hdiv : (index * node.blockSize + j) / node.blockSize = index := by
    rw [Nat.add_comm, Nat.add_mul_div_right _ _ h.blockSize_pos, Nat.div_eq_of_lt hj, Nat.zero_add]
  have hmod : (index * node.blockSize + j) % node.blockSize = j := by
    rw [Nat.add_comm, Nat.add_mul_mod_self_right, Nat.mod_eq_of_lt hj]
  rw [readByte, hdiv, hmod]
  rfl

theorem fails_of_bad (hi : index * node.blockSize < node.data.sizeLow)
    (hbad : ¬ (index < node.data.nSectors / (node.blockSize / 512) ∧
      node.blockStart disk index + node.blockSize ≤ 2 ^ 32 - 1)) :
    (node.io junk).Fails index :=
  fun _ _ => readBlock_of_bad h.drive (h.getElem?_pointers hi) (fun _ => h.reachable_indirect) hbad

theorem readByte_of_diskBlock {i b : ℕ} (hi : i < node.data.sizeLow)
    (hb : node.diskBlock disk (i / node.blockSize) = some b) :
    node.readByte disk i = node.fileByte disk i := by
  have hstart := h.blockStart_of_diskBlock ((Nat.div_mul_le_self _ _).trans_lt hi) hb
  rw [readByte, fileByte, hb, hstart.1]

theorem readAsMeant_iff {i : ℕ} (hi : i < node.data.sizeLow) : node.ReadsAsMeant disk i ↔
    (i / node.blockSize < node.data.nSectors / (node.blockSize / 512) ∧
      node.blockStart disk (i / node.blockSize) + node.blockSize ≤ 2 ^ 32 - 1) ∧
    node.readByte disk i = node.fileByte disk i := by
  rw [ReadsAsMeant, and_assoc]
  refine and_congr_right fun _ => ?_
  cases hb : node.diskBlock disk (i / node.blockSize) with
  | none =>
    have hzero : node.fileByte disk i = 0 := by rw [fileByte, hb]
    simp only [hzero, true_imp_iff]
  | some b =>
    have hstart := h.blockStart_of_diskBlock ((Nat.div_mul_le_self _ _).trans_lt hi) hb
    refine iff_of_true nofun ⟨?_, h.readByte_of_diskBlock hi hb⟩
    rw [hstart.1]
    exact hstart.2

theorem reads_or_fails (hi : index * node.blockSize < node.data.sizeLow) :
    (node.io junk).Reads (node.readByte disk) index ∨ (node.io junk).Fails index := by
  by_cases hgood : index < node.data.nSectors / (node.blockSize / 512) ∧
      node.blockStart disk index + node.blockSize ≤ 2 ^ 32 - 1
  · exact Or.inl (h.reads_of_good hi hgood.1 hgood.2)
  · exact Or.inr (h.fails_of_bad hi hgood)

end SparseFile

/-- A range is read as the file system means it if and only if each of its bytes is. -/
theorem readAll_sparse_iff (h : node.SparseFile disk) (hfit : offset + n ≤ node.data.sizeLow)
    (p : ℕ) (buffer junk : Buffer) :
    (node.io junk).readAll junk offset n p buffer =
        .ok ((n : ℕ), put p n (fun i => node.fileByte disk (offset + i)) buffer) ↔
      ∀ i < n, node.ReadsAsMeant disk (offset + i) := by
  have hpos := h.blockSize_pos
  have hstart : ∀ i < n, (offset + i) / node.blockSize * node.blockSize < node.data.sizeLow :=
    fun i hi => (Nat.div_mul_le_self _ _).trans_lt (by omega)
  have hmeant := fun i (hi : i < n) => h.readAsMeant_iff (show offset + i < _ by omega)
  by_cases hgood : ∀ i < n,
      (offset + i) / node.blockSize < node.data.nSectors / (node.blockSize / 512) ∧
        node.blockStart disk ((offset + i) / node.blockSize) + node.blockSize ≤ 2 ^ 32 - 1
  · have hread : (node.io junk).readAll junk offset n p buffer =
        .ok ((n : ℕ), put p n (fun i => node.readByte disk (offset + i)) buffer) :=
      BlockIO.readAll_of_reads hpos (le32_lt _ _) hfit fun i hi =>
        h.reads_of_good (hstart i hi) (hgood i hi).1 (hgood i hi).2
    rw [hread, Except.ok.injEq, Prod.mk.injEq, eq_self, true_and, put_inj]
    exact forall₂_congr fun i hi => by rw [hmeant i hi, and_iff_right (hgood i hi)]
  · refine iff_of_false (fun hread => ?_) fun hall => hgood fun i hi => ((hmeant i hi).mp (hall i hi)).1
    obtain ⟨i, hi, hbad⟩ : ∃ i, ∃ _ : i < n, ¬ _ := by simpa only [not_forall] using hgood
    obtain ⟨e, he⟩ : ∃ e, (node.io junk).readAll junk offset n p buffer = .error e :=
      BlockIO.readAll_of_fails hpos (le32_lt _ _) hfit (fun j hj => h.reads_or_fails (hstart j hj)) hi
        (h.fails_of_bad (hstart i hi) hbad)
    rw [he] at hread
    nomatch hread

/-- A file of two blocks of 1024 bytes: block 20 of the disk, and a hole. -/
def holeNode : Node where
  ide := sampleNode.ide
  blockSize := 1024
  data := ⟨fun i =>
    if i = 1 then 0x80
    else if i = 5 then 8
    else if i = 28 then 2
    else if i = 40 then 20
    else 0⟩

theorem holeNode_diskBlock {i b : ℕ} (hb : holeNode.diskBlock sampleNode.sampleDisk i = some b) :
    b = 20 := by
  by_cases hi : 12 ≤ i
  · rw [diskBlock, if_pos ⟨hi, by decide⟩] at hb
    nomatch hb
  · have hdirect : holeNode.data.direct i = if i = 0 then 20 else 0 := by
      interval_cases i <;> decide
    rw [diskBlock, if_neg (by omega), getElem?_pointers_direct _ _ (by omega), hdirect] at hb
    split at hb
    · exact (Option.some.inj hb).symm
    · nomatch hb

theorem holeNode_sparseFile : holeNode.SparseFile sampleNode.sampleDisk where
  isFile := by decide
  drive := sampleNode_regularFile.drive
  blockSize := ⟨0, rfl⟩
  blockSize_lt := by decide
  size_le := by decide
  sectors := by decide +kernel
  indirect := fun h => absurd rfl h
  block := by
    intro i b hb
    obtain rfl := holeNode_diskBlock hb
    decide

/-- Four bytes of the block that is there. -/
theorem holeNode_reads_data : (holeNode.io fun _ => 7).readAll (fun _ => 7) 0 4 0 (fun _ => 0) =
    .ok ((4 : ℕ), put 0 4 (fun i => holeNode.fileByte sampleNode.sampleDisk (0 + i)) fun _ => 0) := by
  have hfit : 0 + 4 ≤ holeNode.data.sizeLow := by decide
  refine (readAll_sparse_iff holeNode_sparseFile hfit 0 (fun _ => 0) fun _ => 7).mpr fun i hi => ?_
  have hdiv : (0 + i) / holeNode.blockSize = 0 := by
    change (0 + i) / 1024 = 0
    omega
  have hblock : holeNode.diskBlock sampleNode.sampleDisk 0 = some 20 := by decide
  rw [ReadsAsMeant, hdiv, hblock]
  exact ⟨by decide, nofun⟩

/-- The first byte of the hole: its block number is not below the one block that two sectors make. -/
theorem holeNode_stops : holeNode.SparseFile sampleNode.sampleDisk ∧
    1024 + 1 ≤ holeNode.data.sizeLow ∧ ∀ junk buffer,
      (holeNode.io junk).readAll junk 1024 1 0 buffer ≠
        .ok ((1 : ℕ), put 0 1 (fun i => holeNode.fileByte sampleNode.sampleDisk (1024 + i)) buffer) := by
  refine ⟨holeNode_sparseFile, by decide, fun junk buffer hread => ?_⟩
  have hfails : (holeNode.io junk).Fails ((1024 + 0) / 1024) := fun p buffer => ⟨_, rfl⟩
  have hfit : 1024 + 1 ≤ holeNode.data.sizeLow := by decide
  have hblocks : ∀ i < 1, (holeNode.io junk).Reads (holeNode.readByte sampleNode.sampleDisk)
      ((1024 + i) / 1024) ∨ (holeNode.io junk).Fails ((1024 + i) / 1024) := by
    intro i hi
    obtain rfl : i = 0 := by omega
    exact Or.inr hfails
  obtain ⟨e, he⟩ : ∃ e, (holeNode.io junk).readAll junk 1024 1 0 buffer = .error e :=
    BlockIO.readAll_of_fails holeNode_sparseFile.blockSize_pos (le32_lt _ _) hfit hblocks
      Nat.one_pos hfails
  rw [he] at hread
  nomatch hread

end OsShell.Ext2.Node
