import OsShell.BlockIO.ReadAll

/-!
# Ext2 nodes

An i-node is kept as its bytes on the disk ("just the bits"), and its fields are
read off at their offsets, so that `direct[index]` runs over `direct0` to
`direct11` as it does in memory. The drive itself is left open: only what its
`read_block` puts into the buffer matters.
-/

namespace OsShell

open Bytes Stopping

/-- The IDE driver; its `read_block` is the hardware's. -/
structure Ide where
  readBlock : ℕ → ℕ → Buffer → Except Halt Buffer

def Ide.io (ide : Ide) : BlockIO where
  blockSize := 512
  sizeInBytes := 2 ^ 32 - 1
  readBlock := ide.readBlock

namespace Ext2

structure NodeData where
  bits : Buffer

namespace NodeData

variable (data : NodeData)

def mode : ℕ := le16 data.bits 0
def sizeLow : ℕ := le32 data.bits 4
def nSectors : ℕ := le32 data.bits 28
def direct (i : ℕ) : ℕ := le32 data.bits (40 + 4 * i)
def indirect1 : ℕ := le32 data.bits 88

def getType : ℕ := data.mode / 2 ^ 12

def isDir : Prop := data.getType = 4
def isFile : Prop := data.getType = 8
def isSymlink : Prop := data.getType = 0xa

instance : Decidable data.isDir := inferInstanceAs (Decidable (_ = _))
instance : Decidable data.isFile := inferInstanceAs (Decidable (_ = _))
instance : Decidable data.isSymlink := inferInstanceAs (Decidable (_ = _))

end NodeData

structure Node where
  ide : Ide
  blockSize : ℕ
  data : NodeData

namespace Node

/-- The disk block that holds block `index` of the node. -/
def blockIndex (node : Node) (junk : Buffer) (index : ℕ) : Except Halt ℕ :=
  let refsPerBlock := node.blockSize / 4
  if index < 12 then .ok (node.data.direct index)
  else if index < 12 + refsPerBlock then do
    let block_index ← node.ide.io.readThing junk
      ((node.data.indirect1 * node.blockSize + (index - 12) * 4) % 2 ^ 32) 4
    return le32 block_index 0
  else .error (.panic s!"index = {index}\n")

def readBlock (node : Node) (junk : Buffer) (index p : ℕ) (buffer : Buffer) : Except Halt Buffer := do
  assert (index < node.data.nSectors / (node.blockSize / 512))
    "index < data.n_sectors / (block_size / 512)"
  let block_index ← node.blockIndex junk index
  let (cnt, buffer) ← node.ide.io.readAll junk ((block_index * node.blockSize) % 2 ^ 32)
    node.blockSize p buffer
  assert (cnt = node.blockSize) "cnt == block_size"
  return buffer

def io (node : Node) (junk : Buffer) : BlockIO where
  blockSize := node.blockSize
  sizeInBytes := node.data.sizeLow
  readBlock := node.readBlock junk

end Node

end Ext2

end OsShell
