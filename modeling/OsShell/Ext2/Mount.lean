import OsShell.Ext2.Find

/-!
# Mounting

The constructor of `Ext2` reads the super block and the table of the groups, and keeps
of them what `get_node` needs. A geometry is what the format lays down for a file
system: the numbers in its super block, where the i-nodes of each group are, and that
all of this lies on the part of the drive which the driver can reach.
-/

namespace OsShell.Ext2

open Bytes Stopping

/-- `SuperBlock` takes 140 bytes. -/
structure SuperBlock where
  bits : Buffer

namespace SuperBlock

variable (sb : SuperBlock)

def inodesCount : ℕ := le32 sb.bits 0
def blocksCount : ℕ := le32 sb.bits 4
def logBlockSize : ℕ := le32 sb.bits 24
def blocksPerGroup : ℕ := le32 sb.bits 32
def inodesPerGroup : ℕ := le32 sb.bits 40
def inodeSize : ℕ := le16 sb.bits 88

end SuperBlock

/-- `Ext2(ide)`, with its `root`. A shift takes the low five bits of its count; a division by zero
is an exception that nobody handles. -/
def mount (ide : Ide) (junk : Buffer) : Except Halt (Ext2 × Node) := do
  let sb := SuperBlock.mk (← ide.io.readThing junk 1024 140)
  let blockSize := 2 ^ ((sb.logBlockSize + 10) % 32)
  if sb.blocksPerGroup = 0 then throw (.panic "divide error")
  let nGroups := (sb.blocksCount + sb.blocksPerGroup - 1) % 2 ^ 32 / sb.blocksPerGroup
  assert (nGroups * sb.blocksPerGroup % 2 ^ 32 ≥ sb.blocksCount)
    "nGroups * sb.blocks_per_group >= sb.blocks_count"
  let superBlockNumber := 1024 / blockSize
  let groupTableNumber := superBlockNumber + 1
  let groupTableSize := 32 * nGroups % 2 ^ 32
  let (cnt, groupTable) ← ide.io.readAll junk (groupTableNumber * blockSize % 2 ^ 32)
    groupTableSize 0 junk
  assert (cnt = groupTableSize) "cnt == groupTableSize"
  let fs : Ext2 :=
    { ide
      blockSize
      numberOfNodes := sb.inodesCount
      numberOfBlocks := sb.blocksCount
      iNodeSize := sb.inodeSize
      nGroups
      iNodeTables := fun i => le32 groupTable (32 * i + 8)
      iNodesPerGroup := sb.inodesPerGroup }
  let root ← fs.getNode junk 2
  return (fs, root)

/-! ## The format -/

/-- The bitmap of a group is one block, and a block has at most 64 KiB. -/
structure Geometry where
  logBlockSize : ℕ
  inodes : ℕ
  blocks : ℕ
  blocksPerGroup : ℕ
  inodesPerGroup : ℕ
  inodeSize : ℕ
  /-- the first block of the i-nodes of a group -/
  table : ℕ → ℕ
  logBlockSize_le : logBlockSize ≤ 6
  blocksPerGroup_pos : 0 < blocksPerGroup
  blocksPerGroup_le : blocksPerGroup ≤ 8 * (1024 * 2 ^ logBlockSize)
  inodesPerGroup_pos : 0 < inodesPerGroup
  inodeSize_le : 128 ≤ inodeSize
  root_le : 2 ≤ inodes
  inodes_le : inodes ≤ (blocks + blocksPerGroup - 1) / blocksPerGroup * inodesPerGroup
  reach : blocks * (1024 * 2 ^ logBlockSize) ≤ 2 ^ 32 - 1
  groups_le : (1024 / (1024 * 2 ^ logBlockSize) + 1) * (1024 * 2 ^ logBlockSize) +
    32 * ((blocks + blocksPerGroup - 1) / blocksPerGroup) ≤ blocks * (1024 * 2 ^ logBlockSize)
  table_le : ∀ i < (blocks + blocksPerGroup - 1) / blocksPerGroup,
    table i * (1024 * 2 ^ logBlockSize) + inodesPerGroup * inodeSize ≤
      blocks * (1024 * 2 ^ logBlockSize)

namespace Geometry

variable (g : Geometry)

def blockSize : ℕ := 1024 * 2 ^ g.logBlockSize

def groups : ℕ := (g.blocks + g.blocksPerGroup - 1) / g.blocksPerGroup

/-- The group table is in the block behind the super block. -/
def groupTable : ℕ := (1024 / g.blockSize + 1) * g.blockSize

def slot (n : ℕ) : ℕ :=
  g.table ((n - 1) / g.inodesPerGroup) * g.blockSize + (n - 1) % g.inodesPerGroup * g.inodeSize

/-- The i-node, in an object that held `junk`. -/
def node (ide : Ide) (disk junk : Buffer) (n : ℕ) : Node :=
  ⟨ide, g.blockSize, ⟨put 0 128 (fun i => disk (g.slot n + i)) junk⟩⟩

theorem two_pow_le : 2 ^ g.logBlockSize ≤ 64 :=
  Nat.pow_le_pow_right (by decide) g.logBlockSize_le

theorem group_lt {n : ℕ} (hn : n ≤ g.inodes) (hpos : 0 < n) :
    (n - 1) / g.inodesPerGroup < g.groups := by
  have hle : g.inodes ≤ g.groups * g.inodesPerGroup := g.inodes_le
  rw [Nat.div_lt_iff_lt_mul g.inodesPerGroup_pos]
  omega

theorem slot_le {n : ℕ} (hn : n ≤ g.inodes) (hpos : 0 < n) :
    g.slot n + 128 ≤ g.blocks * g.blockSize := by
  have htable : g.table ((n - 1) / g.inodesPerGroup) * g.blockSize +
      g.inodesPerGroup * g.inodeSize ≤ g.blocks * g.blockSize := g.table_le _ (g.group_lt hn hpos)
  have hmod := Nat.mod_lt (n - 1) g.inodesPerGroup_pos
  have hlast : ((n - 1) % g.inodesPerGroup + 1) * g.inodeSize ≤ g.inodesPerGroup * g.inodeSize :=
    Nat.mul_le_mul_right _ hmod
  have hsize := g.inodeSize_le
  rw [Nat.succ_mul] at hlast
  unfold slot
  omega

theorem table_le_blocks {i : ℕ} (hi : i < g.groups) : g.table i ≤ g.blocks := by
  have hpos : 0 < 1024 * 2 ^ g.logBlockSize := by positivity
  have hle := (Nat.le_add_right _ _).trans (g.table_le i hi)
  exact Nat.le_of_mul_le_mul_right hle hpos

end Geometry

structure Formatted (g : Geometry) (disk : Buffer) : Prop where
  inodes : le32 disk 1024 = g.inodes
  blocks : le32 disk (1024 + 4) = g.blocks
  logBlockSize : le32 disk (1024 + 24) = g.logBlockSize
  blocksPerGroup : le32 disk (1024 + 32) = g.blocksPerGroup
  inodesPerGroup : le32 disk (1024 + 40) = g.inodesPerGroup
  inodeSize : le16 disk (1024 + 88) = g.inodeSize
  table : ∀ i < g.groups, le32 disk (g.groupTable + 32 * i + 8) = g.table i

structure Mounted (g : Geometry) (ide : Ide) (fs : Ext2) : Prop where
  ide : fs.ide = ide
  blockSize : fs.blockSize = g.blockSize
  numberOfNodes : fs.numberOfNodes = g.inodes
  numberOfBlocks : fs.numberOfBlocks = g.blocks
  iNodeSize : fs.iNodeSize = g.inodeSize
  nGroups : fs.nGroups = g.groups
  iNodeTables : ∀ i < g.groups, fs.iNodeTables i = g.table i
  iNodesPerGroup : fs.iNodesPerGroup = g.inodesPerGroup

variable {g : Geometry} {ide : Ide} {fs : Ext2} {disk : Buffer} {n : ℕ}

theorem Mounted.getNode (h : Mounted g ide fs) (hdrive : ide.io.Holds disk) (junk : Buffer)
    (hpos : 0 < n) (hn : n ≤ g.inodes) : fs.getNode junk n = .ok (g.node ide disk junk n) := by
  have hgroup := g.group_lt hn hpos
  have hslot := g.slot_le hn hpos
  have hreach : g.blocks * g.blockSize ≤ 2 ^ 32 - 1 := g.reach
  have hwrap : g.slot n % 2 ^ 32 = g.slot n := Nat.mod_eq_of_lt (by omega)
  have hread : ide.io.readThing junk (g.slot n) 128 =
      .ok (put 0 128 (fun i => disk (g.slot n + i)) junk) :=
    BlockIO.readThing_spec hdrive (by change _ ≤ 2 ^ 32 - 1; omega)
  unfold Ext2.getNode
  simp only [h.iNodesPerGroup, h.nGroups, h.numberOfNodes, h.numberOfBlocks, h.blockSize,
    h.iNodeSize, h.ide, h.iNodeTables _ hgroup, assert_true hpos, assert_true hn,
    if_neg g.inodesPerGroup_pos.ne',
    assert_true hgroup, assert_true (g.table_le_blocks hgroup), ok_bind]
  change ide.io.readThing junk (g.slot n % 2 ^ 32) 128 >>= _ = _
  rw [hwrap, hread]
  rfl

section Fields

variable {src buffer : Buffer} {p k : ℕ}

theorem le32_put (h : p + 4 ≤ k) : le32 (put 0 k src buffer) p = le32 src p :=
  le32_congr fun i hi => by simpa using put_of_mem (p := 0) src buffer (show p + i < k by omega)

theorem le16_put (h : p + 2 ≤ k) : le16 (put 0 k src buffer) p = le16 src p :=
  le16_congr fun i hi => by simpa using put_of_mem (p := 0) src buffer (show p + i < k by omega)

theorem le32_shift (d : ℕ) : le32 (fun i => src (d + i)) p = le32 src (d + p) :=
  le32_congr fun i _ => by rw [Nat.add_assoc]

theorem le16_shift (d : ℕ) : le16 (fun i => src (d + i)) p = le16 src (d + p) :=
  le16_congr fun i _ => by rw [Nat.add_assoc]

end Fields

theorem mount_of_formatted (h : Formatted g disk) (hdrive : ide.io.Holds disk) (junk : Buffer) :
    ∃ fs, mount ide junk = .ok (fs, g.node ide disk junk 2) ∧ Mounted g ide fs := by
  have hsuper : ide.io.readThing junk 1024 140 =
      .ok (put 0 140 (fun i => disk (1024 + i)) junk) :=
    BlockIO.readThing_spec hdrive (by change _ ≤ 2 ^ 32 - 1; decide)
  obtain ⟨sb, hsb⟩ : ∃ sb, SuperBlock.mk (put 0 140 (fun i => disk (1024 + i)) junk) = sb := ⟨_, rfl⟩
  have hword : ∀ p, p + 4 ≤ 140 → le32 sb.bits p = le32 disk (1024 + p) := by
    rintro p hp
    rw [← hsb, le32_put hp, le32_shift]
  have hinodes : sb.inodesCount = g.inodes := (hword 0 (by decide)).trans h.inodes
  have hblocks : sb.blocksCount = g.blocks := (hword 4 (by decide)).trans h.blocks
  have hlog : sb.logBlockSize = g.logBlockSize := (hword 24 (by decide)).trans h.logBlockSize
  have hperGroup : sb.blocksPerGroup = g.blocksPerGroup :=
    (hword 32 (by decide)).trans h.blocksPerGroup
  have hnodes : sb.inodesPerGroup = g.inodesPerGroup :=
    (hword 40 (by decide)).trans h.inodesPerGroup
  have hsize : sb.inodeSize = g.inodeSize := by
    rw [SuperBlock.inodeSize, ← hsb, le16_put (by decide), le16_shift, h.inodeSize]
  have hblockSize : 2 ^ ((g.logBlockSize + 10) % 32) = g.blockSize := by
    have hle := g.logBlockSize_le
    rw [Nat.mod_eq_of_lt (by omega), pow_add, Nat.mul_comm]
    rfl
  have hreach : g.blocks * g.blockSize ≤ 2 ^ 32 - 1 := g.reach
  have hblock : 1024 ≤ g.blockSize := Nat.le_mul_of_pos_right _ (by positivity)
  have hfew : g.blocks < 2 ^ 22 := by
    have := Nat.mul_le_mul_left g.blocks hblock
    omega
  have hgroupSize : g.blocksPerGroup ≤ 2 ^ 19 := by
    have h64 := g.two_pow_le
    have := g.blocksPerGroup_le
    omega
  have hpos := g.blocksPerGroup_pos
  have hgroups : (g.blocks + g.blocksPerGroup - 1) % 2 ^ 32 / g.blocksPerGroup = g.groups := by
    rw [Nat.mod_eq_of_lt (by omega)]
    rfl
  have hdiv := Nat.div_add_mod' (g.blocks + g.blocksPerGroup - 1) g.blocksPerGroup
  have hmod := Nat.mod_lt (g.blocks + g.blocksPerGroup - 1) hpos
  have hall : g.groups * g.blocksPerGroup % 2 ^ 32 ≥ g.blocks := by
    change g.groups * g.blocksPerGroup + _ = _ at hdiv
    rw [Nat.mod_eq_of_lt (by omega)]
    omega
  have htable : g.groupTable + 32 * g.groups ≤ g.blocks * g.blockSize := g.groups_le
  have htableSize : 32 * g.groups % 2 ^ 32 = 32 * g.groups := Nat.mod_eq_of_lt (by omega)
  have htableStart : (1024 / g.blockSize + 1) * g.blockSize % 2 ^ 32 = g.groupTable :=
    Nat.mod_eq_of_lt (by change g.groupTable < _; omega)
  have hread : ide.io.readAll junk g.groupTable (32 * g.groups) 0 junk =
      .ok ((32 * g.groups : ℕ), put 0 (32 * g.groups) (fun i => disk (g.groupTable + i)) junk) := by
    have hmin : min (32 * g.groups) (ide.io.sizeInBytes - g.groupTable) = 32 * g.groups := by
      change min _ (2 ^ 32 - 1 - _) = _
      omega
    rw [ BlockIO.readAll_spec hdrive (by change _ ≤ 2 ^ 32 - 1; omega), hmin]
  let fs : Ext2 :=
    { ide
      blockSize := g.blockSize
      numberOfNodes := g.inodes
      numberOfBlocks := g.blocks
      iNodeSize := g.inodeSize
      nGroups := g.groups
      iNodeTables := fun i =>
        le32 (put 0 (32 * g.groups) (fun i => disk (g.groupTable + i)) junk) (32 * i + 8)
      iNodesPerGroup := g.inodesPerGroup }
  have hmounted : Mounted g ide fs :=
    ⟨rfl, rfl, rfl, rfl, rfl, rfl, fun i hi => by
      change le32 (put _ _ _ _) _ = _
      rw [le32_put (by omega), le32_shift, ← Nat.add_assoc, h.table i hi], rfl⟩
  refine ⟨fs, ?_, hmounted⟩
  unfold mount
  simp only [hsuper, ok_bind, hsb, hperGroup, if_neg hpos.ne', hblocks, hlog, hblockSize, hgroups,
    assert_true hall, htableStart, htableSize, hread, assert_true, hinodes, hnodes, hsize]
  rw [hmounted.getNode hdrive junk (by decide) g.root_le]
  rfl

end OsShell.Ext2
