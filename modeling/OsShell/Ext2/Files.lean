import OsShell.Ext2.Node

/-!
# Reading a regular file

The file is what its data blocks say: the blocks of the direct pointers, then
those that the indirect block lists, cut at the file's size. `read_block` of a
node reads through the sectors of the drive, so `read_all` is used at both
levels, each time through its one specification.
-/

namespace OsShell.Ext2.Node

open Bytes Stopping

variable {node : Node} {disk junk buffer : Buffer} {index offset n p : ℕ}

/-- The disk blocks of the file: `direct0` to `direct11`, then the indirect block's list. -/
def pointers (node : Node) (disk : Buffer) : List ℕ :=
  (List.range 12).map node.data.direct ++
    (List.range (node.blockSize / 4)).map fun i =>
      le32 disk (node.data.indirect1 * node.blockSize + i * 4)

def contents (node : Node) (disk : Buffer) : List UInt8 :=
  ((node.pointers disk).flatMap fun b => slice disk (b * node.blockSize) node.blockSize).take
    node.data.sizeLow

def Reachable (node : Node) (b : ℕ) : Prop :=
  (b + 1) * node.blockSize ≤ 2 ^ 32 - 1

instance (node : Node) (b : ℕ) : Decidable (node.Reachable b) :=
  inferInstanceAs (Decidable (_ ≤ _))

/-- The file system stores the data of the node without holes. -/
structure Stored (node : Node) (disk : Buffer) : Prop where
  drive : node.ide.io.Holds disk
  blockSize : ∃ k, node.blockSize = 1024 * 2 ^ k
  size_le : node.data.sizeLow ≤ (12 + node.blockSize / 4) * node.blockSize
  sectors : (node.data.sizeLow + node.blockSize - 1) / node.blockSize * (node.blockSize / 512)
    ≤ node.data.nSectors
  indirect : 12 * node.blockSize < node.data.sizeLow →
    node.data.indirect1 ≠ 0 ∧ node.Reachable node.data.indirect1
  block : ∀ i, i * node.blockSize < node.data.sizeLow →
    ∃ b, (node.pointers disk)[i]? = some b ∧ b ≠ 0 ∧ node.Reachable b

structure RegularFile (node : Node) (disk : Buffer) : Prop extends node.Stored disk where
  isFile : node.data.isFile

theorem getElem?_pointers_direct (node : Node) (disk : Buffer) (h : index < 12) :
    (node.pointers disk)[index]? = some (node.data.direct index) := by
  rw [pointers, List.getElem?_append_left (by simpa using h), List.getElem?_map,
    List.getElem?_range h]
  rfl

theorem getElem?_pointers_indirect (node : Node) (disk : Buffer) (h : 12 ≤ index)
    (h' : index < 12 + node.blockSize / 4) : (node.pointers disk)[index]? =
      some (le32 disk (node.data.indirect1 * node.blockSize + (index - 12) * 4)) := by
  rw [pointers, List.getElem?_append_right (by simpa using h), List.getElem?_map]
  simp only [List.length_map, List.length_range]
  rw [List.getElem?_range (by omega)]
  rfl

section BlockIndex

variable (hdrive : node.ide.io.Holds disk) {b : ℕ} (hindex : node.blockIndex junk index = .ok b)

include hdrive hindex

theorem readBlock_of_blockIndex (hsector : index < node.data.nSectors / (node.blockSize / 512))
    (hin : b * node.blockSize % 2 ^ 32 + node.blockSize ≤ 2 ^ 32 - 1) :
    node.readBlock junk index p buffer =
      .ok (put p node.blockSize (fun i => disk (b * node.blockSize % 2 ^ 32 + i)) buffer) := by
  have hwhole : min node.blockSize (node.ide.io.sizeInBytes - b * node.blockSize % 2 ^ 32)
      = node.blockSize := by
    change min _ (2 ^ 32 - 1 - _) = _
    omega
  unfold readBlock
  rw [assert_true hsector, hindex]
  simp only [ok_bind]
  rw [ BlockIO.readAll_spec hdrive (by change _ ≤ 2 ^ 32 - 1; omega), hwhole]
  simp only [ok_bind, assert_true]
  rfl

theorem readBlock_error_of_blockIndex
    (hbad : ¬ (index < node.data.nSectors / (node.blockSize / 512) ∧
      b * node.blockSize % 2 ^ 32 + node.blockSize ≤ 2 ^ 32 - 1)) :
    ∃ e, node.readBlock junk index p buffer = .error e := by
  by_cases hsector : index < node.data.nSectors / (node.blockSize / 512)
  · have hmod := Nat.mod_lt (b * node.blockSize) (show 0 < 2 ^ 32 by decide)
    have hshort : ¬ ((min node.blockSize
        (node.ide.io.sizeInBytes - b * node.blockSize % 2 ^ 32) : ℕ) : ℤ) = node.blockSize := by
      change ¬ ((min _ (2 ^ 32 - 1 - _) : ℕ) : ℤ) = _
      omega
    unfold readBlock
    rw [assert_true hsector, hindex]
    simp only [ok_bind]
    rw [ BlockIO.readAll_spec hdrive (by change _ ≤ 2 ^ 32 - 1; omega)]
    simp only [ok_bind, assert, if_neg hshort]
    exact ⟨_, rfl⟩
  · exact ⟨_, by simp only [readBlock, assert, if_neg hsector]; rfl⟩

end BlockIndex

section Drive

variable (hdrive : node.ide.io.Holds disk) {b : ℕ} (hb : (node.pointers disk)[index]? = some b)
  (hind : 12 ≤ index → node.Reachable node.data.indirect1)

include hdrive hb hind

theorem blockIndex_of_pointer : node.blockIndex junk index = .ok b := by
  have hlt : index < 12 + node.blockSize / 4 := by
    have := (List.getElem?_eq_some_iff.mp hb).1
    simpa [pointers] using this
  unfold blockIndex
  by_cases hdirect : index < 12
  · rw [getElem?_pointers_direct node disk hdirect, Option.some.injEq] at hb
    simp only [if_pos hdirect, hb]
  rw [getElem?_pointers_indirect node disk (by omega) hlt, Option.some.injEq] at hb
  simp only [if_neg hdirect, if_pos hlt]
  have hin := hind (by omega)
  rw [Reachable, Nat.add_mul, Nat.one_mul] at hin
  generalize hd : node.data.indirect1 * node.blockSize = d at hin hb ⊢
  have hwrap : (d + (index - 12) * 4) % 2 ^ 32 = d + (index - 12) * 4 :=
    Nat.mod_eq_of_lt (by omega)
  have hfit : d + (index - 12) * 4 + 4 ≤ node.ide.io.sizeInBytes := by
    change _ ≤ 2 ^ 32 - 1
    omega
  rw [hwrap, BlockIO.readThing_spec hdrive hfit, ← hb]
  refine congrArg Except.ok (le32_congr fun i hi => ?_)
  rw [put_of_mem _ _ hi]

theorem readBlock_of_pointer (hsector : index < node.data.nSectors / (node.blockSize / 512))
    (hin : b * node.blockSize % 2 ^ 32 + node.blockSize ≤ 2 ^ 32 - 1) :
    node.readBlock junk index p buffer =
      .ok (put p node.blockSize (fun i => disk (b * node.blockSize % 2 ^ 32 + i)) buffer) :=
  readBlock_of_blockIndex hdrive (blockIndex_of_pointer hdrive hb hind) hsector hin

theorem readBlock_of_bad (hbad : ¬ (index < node.data.nSectors / (node.blockSize / 512) ∧
    b * node.blockSize % 2 ^ 32 + node.blockSize ≤ 2 ^ 32 - 1)) :
    ∃ e, node.readBlock junk index p buffer = .error e :=
  readBlock_error_of_blockIndex hdrive (blockIndex_of_pointer hdrive hb hind) hbad

end Drive

namespace Stored

variable (h : node.Stored disk)

include h

theorem blockSize_pos : 0 < node.blockSize := by
  obtain ⟨k, hk⟩ := h.blockSize
  rw [hk]
  positivity

theorem sector_le : 512 ≤ node.blockSize := by
  obtain ⟨k, hk⟩ := h.blockSize
  have := Nat.one_le_two_pow (n := k)
  omega

theorem index_lt_sectors (hi : index * node.blockSize < node.data.sizeLow) :
    index < node.data.nSectors / (node.blockSize / 512) := by
  have hpos := h.blockSize_pos
  have hsector := h.sector_le
  have hblocks : index + 1 ≤ (node.data.sizeLow + node.blockSize - 1) / node.blockSize := by
    rw [Nat.le_div_iff_mul_le hpos, Nat.add_mul, Nat.one_mul]
    omega
  refine (Nat.le_div_iff_mul_le (by omega)).mpr ?_
  exact (Nat.mul_le_mul_right _ hblocks).trans h.sectors

theorem readBlock_spec {b : ℕ} (hi : index * node.blockSize < node.data.sizeLow)
    (hb : (node.pointers disk)[index]? = some b) : node.readBlock junk index p buffer =
      .ok (put p node.blockSize (fun i => disk (b * node.blockSize + i)) buffer) := by
  obtain ⟨b', hb', -, hin⟩ := h.block index hi
  obtain rfl : b = b' := Option.some.inj (hb.symm.trans hb')
  rw [Reachable, Nat.add_mul, Nat.one_mul] at hin
  have hwrap : b * node.blockSize % 2 ^ 32 = b * node.blockSize := Nat.mod_eq_of_lt (by omega)
  have hind : 12 ≤ index → node.Reachable node.data.indirect1 := fun h12 =>
    (h.indirect ((Nat.mul_le_mul_right _ h12).trans_lt hi)).2
  rw [readBlock_of_pointer h.drive hb hind (h.index_lt_sectors hi) (by omega), hwrap]

theorem getElem?_contents {i b : ℕ} (hi : i < node.data.sizeLow)
    (hb : (node.pointers disk)[i / node.blockSize]? = some b) :
    (node.contents disk)[i]? = some (disk (b * node.blockSize + i % node.blockSize)) := by
  have hpos := h.blockSize_pos
  rw [contents, List.getElem?_take_of_lt hi,
    getElem?_flatMap (fun b => length_slice disk _ _) hpos, hb, Option.bind_some,
    getElem?_slice _ _ (Nat.mod_lt _ hpos)]

theorem exists_content (junk : Buffer) : ∃ content : Buffer, (node.io junk).Holds content ∧
    ∀ i < node.data.sizeLow, (node.contents disk)[i]? = some (content i) := by
  have hpos := h.blockSize_pos
  let pointer i := ((node.pointers disk)[i / node.blockSize]?).getD 0
  refine ⟨fun i => disk (pointer i * node.blockSize + i % node.blockSize), ⟨hpos, ?_, ?_⟩, ?_⟩
  · exact le32_lt _ _
  · intro b hb p buffer
    obtain ⟨d, hd, -, -⟩ := h.block b hb
    change node.readBlock junk b p buffer = _
    rw [h.readBlock_spec hb hd]
    refine congrArg Except.ok (put_congr _ fun i hi => ?_)
    have hdiv : (b * node.blockSize + i) / node.blockSize = b := by
      rw [Nat.add_comm, Nat.add_mul_div_right _ _ hpos, Nat.div_eq_of_lt hi, Nat.zero_add]
    have hmod : (b * node.blockSize + i) % node.blockSize = i := by
      rw [Nat.add_comm, Nat.add_mul_mod_self_right, Nat.mod_eq_of_lt hi]
    simp only [pointer]
    change _ = disk (((node.pointers disk)[(b * node.blockSize + i) / node.blockSize]?).getD 0
      * node.blockSize + (b * node.blockSize + i) % node.blockSize)
    rw [hdiv, hmod, hd, Option.getD_some]
  · intro i hi
    obtain ⟨d, hd, -, -⟩ := h.block (i / node.blockSize)
      ((Nat.div_mul_le_self _ _).trans_lt hi)
    rw [h.getElem?_contents hi hd]
    simp only [pointer, hd, Option.getD_some]

theorem length_contents : (node.contents disk).length = node.data.sizeLow := by
  obtain ⟨content, -, hcontent⟩ := h.exists_content fun _ => 0
  refine le_antisymm (List.length_take_le _ _) ?_
  by_contra hlt
  have := hcontent (node.contents disk).length (by omega)
  rw [List.getElem?_eq_none le_rfl] at this
  nomatch this

theorem readAll_spec (hoff : offset ≤ node.data.sizeLow) :
    (node.io junk).readAll junk offset n p buffer = .ok ((min n (node.data.sizeLow - offset) : ℕ),
      put p (min n (node.data.sizeLow - offset)) (fun i => (node.contents disk).getD (offset + i) 0)
        buffer) := by
  obtain ⟨content, hholds, hcontent⟩ := h.exists_content junk
  refine ( BlockIO.readAll_spec hholds hoff).trans ?_
  refine congrArg (fun b => Except.ok (((min n (node.data.sizeLow - offset) : ℕ) : ℤ), b))
    (put_congr buffer fun i hi => ?_)
  have hi : i < min n (node.data.sizeLow - offset) := hi
  rw [List.getD_eq_getElem?_getD, hcontent _ (by omega), Option.getD_some]

end Stored

theorem readAll_regularFile (h : node.RegularFile disk) (hoff : offset ≤ node.data.sizeLow)
    (n p : ℕ) (buffer junk : Buffer) :
    ∃ buffer', (node.io junk).readAll junk offset n p buffer =
        .ok ((min n (node.data.sizeLow - offset) : ℕ), buffer') ∧
      slice buffer' p (min n (node.data.sizeLow - offset)) =
        ((node.contents disk).drop offset).take n ∧
      ∀ i, i < p ∨ p + min n (node.data.sizeLow - offset) ≤ i → buffer' i = buffer i := by
  refine ⟨_, h.toStored.readAll_spec hoff, ?_, fun i hi => put_of_notMem _ _ hi⟩
  have hlen := h.toStored.length_contents
  rw [slice_put]
  refine List.ext_getElem? fun i => ?_
  by_cases hi : i < min n (node.data.sizeLow - offset)
  · have hin : offset + i < (node.contents disk).length := by omega
    rw [getElem?_slice _ _ hi, List.getElem?_take_of_lt (by omega), List.getElem?_drop,
      List.getElem?_eq_getElem hin, Nat.zero_add, List.getD_eq_getElem?_getD,
      List.getElem?_eq_getElem hin, Option.getD_some]
  · rw [List.getElem?_eq_none (by rw [length_slice]; omega), List.getElem?_eq_none]
    rw [List.length_take, List.length_drop]
    omega

/-- A file of 13000 bytes in blocks of 1024: blocks 20 to 31, and block 50 through block 40. -/
def sampleNode : Node where
  ide := ⟨fun b p buffer => .ok (put p 512 (fun i => sampleDisk (b * 512 + i)) buffer)⟩
  blockSize := 1024
  data := ⟨fun i =>
    if i = 1 then 0x80
    else if i = 4 then 0xc8
    else if i = 5 then 0x32
    else if i = 28 then 26
    else if 40 ≤ i ∧ i < 88 ∧ i % 4 = 0 then UInt8.ofNat (10 + i / 4)
    else if i = 88 then 40
    else 0⟩
where
  sampleDisk (i : ℕ) : UInt8 :=
    if i = 40 * 1024 then 50 else if 40 * 1024 < i ∧ i < 40 * 1024 + 4 then 0 else UInt8.ofNat i

theorem sampleNode_sizeLow : sampleNode.data.sizeLow = 13000 := by
  decide

theorem sampleNode_regularFile : sampleNode.RegularFile sampleNode.sampleDisk where
  isFile := by decide
  drive := ⟨by decide, by decide, fun b _ p buffer => rfl⟩
  blockSize := ⟨0, rfl⟩
  size_le := by decide
  sectors := by decide
  indirect := fun _ => by decide
  block := by
    intro i hi
    have hlt : i < 13 := by
      rw [sampleNode_sizeLow] at hi
      change i * 1024 < 13000 at hi
      omega
    interval_cases i <;> exact ⟨_, rfl, by decide, by decide⟩

theorem sampleNode_readAll :
    ∃ buffer', (sampleNode.io fun _ => 7).readAll (fun _ => 7) 12200 1000 0 (fun _ => 0) =
        .ok ((800 : ℕ), buffer') ∧
      slice buffer' 0 800 = ((sampleNode.contents sampleNode.sampleDisk).drop 12200).take 1000 ∧
      ∀ i, i < 0 ∨ 0 + 800 ≤ i → buffer' i = 0 := by
  have h := readAll_regularFile sampleNode_regularFile
    (by rw [sampleNode_sizeLow]; decide : 12200 ≤ _) 1000 0 (fun _ => 0) fun _ => 7
  rw [sampleNode_sizeLow] at h
  exact h

def oneBlock (data : NodeData) (bytes : List UInt8) : Node where
  ide := ⟨fun b p buffer => .ok (put p 512 (fun i => oneBlock.disk bytes (b * 512 + i)) buffer)⟩
  blockSize := 1024
  data := data
where
  disk (bytes : List UInt8) (i : ℕ) : UInt8 :=
    if 20 * 1024 ≤ i then bytes.getD (i - 20 * 1024) 0 else 0

variable {data : NodeData} (hsize : data.sizeLow ≤ 1024) (hsectors : 2 ≤ data.nSectors)
  (hdirect : data.direct 0 = 20)
include hsize hsectors hdirect

theorem oneBlock_stored (bytes : List UInt8) :
    (oneBlock data bytes).Stored (oneBlock.disk bytes) where
  drive := ⟨show 0 < 512 by decide, show 2 ^ 32 - 1 < 2 ^ 32 by decide, fun b _ p buffer => rfl⟩
  blockSize := ⟨0, rfl⟩
  size_le := hsize.trans (show 1024 ≤ (12 + 1024 / 4) * 1024 by decide)
  sectors := by
    change (data.sizeLow + 1024 - 1) / 1024 * (1024 / 512) ≤ data.nSectors
    omega
  indirect h := by
    change 12 * 1024 < data.sizeLow at h
    omega
  block i hi := by
    change i * 1024 < data.sizeLow at hi
    obtain rfl : i = 0 := by omega
    exact ⟨20, congrArg some hdirect, by decide, show (20 + 1) * 1024 ≤ 2 ^ 32 - 1 by decide⟩

theorem oneBlock_contents {bytes : List UInt8} (hlen : bytes.length = data.sizeLow) :
    (oneBlock data bytes).contents (oneBlock.disk bytes) = bytes := by
  have hstored := oneBlock_stored hsize hsectors hdirect bytes
  refine List.ext_getElem (hstored.length_contents.trans hlen.symm) fun i hi hi' => ?_
  have hzero : i / 1024 = 0 := by omega
  have hfirst : ((oneBlock data bytes).pointers (oneBlock.disk bytes))[i / 1024]? = some 20 := by
    rw [hzero]
    exact congrArg some hdirect
  have hbyte := hstored.getElem?_contents (show i < data.sizeLow by omega) hfirst
  change _ = some (if 20 * 1024 ≤ 20 * 1024 + i % 1024 then
    bytes.getD (20 * 1024 + i % 1024 - 20 * 1024) 0 else 0) at hbyte
  rw [List.getElem?_eq_getElem hi, if_pos (by omega), Nat.add_sub_cancel_left,
    Nat.mod_eq_of_lt (by omega), List.getD_eq_getElem?_getD, List.getElem?_eq_getElem hi',
    Option.getD_some] at hbyte
  exact Option.some.inj hbyte

end OsShell.Ext2.Node
