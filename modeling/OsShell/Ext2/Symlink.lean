import OsShell.Ext2.Files

/-!
# Symbolic links

A short target stands in the i-node, where the pointers would be, and a long one in
the blocks. The file system keeps 60 bytes in the blocks; `get_symbol` takes them
from the i-node.
-/

namespace OsShell.Ext2

open Bytes Stopping

variable {node : Node} {disk : Buffer} {target : List UInt8}

def Node.getSymbol (node : Node) (junk : Buffer) (p : ℕ) (buffer : Buffer) : Except Halt Buffer := do
  assert node.data.isSymlink "is_symlink()"
  let sz := node.data.sizeLow
  if sz ≤ 60 then return put p sz (fun i => node.data.bits (40 + i)) buffer
  else
    let (cnt, buffer) ← (node.io junk).readAll junk 0 sz p buffer
    assert (cnt = sz) "cnt == sz"
    return buffer

/-- A link as the file system stores it: a target of less than 60 bytes from `direct0` on, a longer
one in the blocks. -/
structure Symlink (node : Node) (disk : Buffer) (target : List UInt8) : Prop where
  isSymlink : node.data.isSymlink
  size : node.data.sizeLow = target.length
  short : target.length < 60 → Spells node.data.bits 40 target
  long : 60 ≤ target.length → node.Stored disk ∧ node.contents disk = target

namespace Symlink

variable (h : Symlink node disk target)
include h

theorem getSymbol_inline (hlen : target.length ≤ 60) (junk buffer : Buffer) (p : ℕ) :
    node.getSymbol junk p buffer =
      .ok (put p target.length (fun i => node.data.bits (40 + i)) buffer) := by
  rw [Node.getSymbol, assert_true h.isSymlink, ok_bind, h.size]
  exact if_pos hlen

theorem getSymbol_blocks (hlen : 60 < target.length) (junk buffer : Buffer) (p : ℕ) :
    node.getSymbol junk p buffer =
      .ok (put p target.length (fun i => target.getD i 0) buffer) := by
  obtain ⟨hstored, hcontents⟩ := h.long hlen.le
  have hread : (node.io junk).readAll junk 0 node.data.sizeLow p buffer = _ :=
    hstored.readAll_spec (Nat.zero_le _)
  rw [Nat.sub_zero, min_self, hcontents] at hread
  rw [Node.getSymbol, assert_true h.isSymlink, ok_bind]
  simp only [h.size] at hread ⊢
  rw [if_neg (by omega), hread]
  simp only [ok_bind, assert_true, Nat.zero_add]
  rfl

end Symlink

def Node.pointerBytes (node : Node) : List UInt8 :=
  (List.range 60).map fun i => node.data.bits (40 + i)

/-- What `get_symbol` takes for the target. -/
def symbol (pointerBytes target : List UInt8) : List UInt8 :=
  if target.length ≤ 60 then pointerBytes.take target.length else target

theorem getSymbol_eq (h : Symlink node disk target) (junk buffer : Buffer) (p : ℕ) :
    node.getSymbol junk p buffer =
      .ok (put p target.length (fun i => (symbol node.pointerBytes target).getD i 0) buffer) := by
  rw [symbol]
  split_ifs with hlen
  · rw [h.getSymbol_inline hlen, Except.ok.injEq, put_inj]
    intro i hi
    have hi' : i < 60 := by omega
    rw [Node.pointerBytes, List.getD_eq_getElem?_getD, List.getElem?_take_of_lt hi, List.getElem?_map,
      List.getElem?_range hi']
    rfl
  · exact h.getSymbol_blocks (by omega) junk buffer p

/-- The target is read back if and only if it does not have 60 bytes, or happens to be what the
i-node holds in its pointers. -/
theorem getSymbol_iff (h : Symlink node disk target) (junk buffer : Buffer) (p : ℕ) :
    node.getSymbol junk p buffer = .ok (put p target.length (fun i => target.getD i 0) buffer) ↔
      (target.length = 60 → Spells node.data.bits 40 target) := by
  rcases lt_trichotomy target.length 60 with hlen | hlen | hlen
  · refine iff_of_true ?_ fun heq => absurd heq hlen.ne
    rw [h.getSymbol_inline hlen.le, put_inj.mpr (spells_iff_getD.mp (h.short hlen))]
  · rw [h.getSymbol_inline hlen.le, Except.ok.injEq, put_inj, ← spells_iff_getD]
    exact ⟨fun hspells _ => hspells, fun hspells => hspells hlen⟩
  · exact iff_of_true (h.getSymbol_blocks hlen junk buffer p) fun heq => absurd heq hlen.ne'

def linkData (size : UInt8) : NodeData :=
  ⟨fun i =>
    if i = 1 then 0xa0
    else if i = 4 then size
    else if i = 28 then 2
    else if i = 40 then 20
    else 0⟩

theorem oneBlock_symlink (target : List UInt8) (hlen : 60 ≤ target.length ∧ target.length < 256) :
    Symlink (Node.oneBlock (linkData (.ofNat target.length)) target) (Node.oneBlock.disk target)
      target := by
  have hsize : (linkData (.ofNat target.length)).sizeLow = target.length := by
    change (UInt8.ofNat target.length).toNat + 2 ^ 8 * 0 + 2 ^ 16 * 0 = target.length
    rw [UInt8.toNat_ofNat']
    omega
  have hle : (linkData (.ofNat target.length)).sizeLow ≤ 1024 := by omega
  have htype : (linkData (.ofNat target.length)).getType = 0xa := by
    change ((0 : UInt8).toNat + 2 ^ 8 * (0xa0 : UInt8).toNat) / 2 ^ 12 = 0xa
    decide
  exact ⟨htype, hsize, fun h => absurd h (by omega), fun _ =>
    ⟨Node.oneBlock_stored hle le_rfl rfl target, Node.oneBlock_contents hle le_rfl rfl hsize.symm⟩⟩

/-- A target of 61 bytes. -/
theorem longLink_read :
    (Node.oneBlock (linkData 61) (List.replicate 61 97)).getSymbol (fun _ => 7) 0 (fun _ => 0) =
      .ok (put 0 61 (fun i => (List.replicate 61 97).getD i 0) fun _ => 0) :=
  (getSymbol_iff (oneBlock_symlink (List.replicate 61 97) (by decide)) (fun _ => 7) (fun _ => 0)
    0).mpr fun h => absurd h (by decide)

/-- Of a target of 60 bytes the number of its block is returned. -/
theorem sixtyBytes_lost :
    Symlink (Node.oneBlock (linkData 60) (List.replicate 60 97))
      (Node.oneBlock.disk (List.replicate 60 97)) (List.replicate 60 97) ∧
    ∃ buffer, (Node.oneBlock (linkData 60) (List.replicate 60 97)).getSymbol (fun _ => 7) 0
      (fun _ => 0) = .ok buffer ∧ buffer 0 = 20 := by
  have h := oneBlock_symlink (List.replicate 60 97) (by decide)
  exact ⟨h, _, h.getSymbol_inline (by decide) (fun _ => 7) (fun _ => 0) 0, rfl⟩

end OsShell.Ext2
