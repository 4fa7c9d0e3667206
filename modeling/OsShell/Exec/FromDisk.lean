import OsShell.Exec.Image
import OsShell.Ext2.Volume

/-!
# A program on the disk

`SYS::exec` looks its path up in the mounted file system and reads the program through
the node that it finds. What it reads is the file that the tree has there, so that a
disk with a well-formed program under a path is enough to run it: from the root
directory to the image and the stack with which the program begins.
-/

namespace OsShell.Exec

open Bytes Stopping Vmm Ext2 SYS

/-- A node as a file with the bytes `F`. -/
def nodeFile (node : Node) (F : List UInt8) (hpos : 0 < node.blockSize) (hF : F.length < 2 ^ 32) :
    File where
  type := node.data.getType
  bytes := F
  size_lt := hF
  blockSize := node.blockSize
  blockSize_pos := hpos
  readBlock b := node.readBlock (fun _ => 0) b 0 fun _ => 0

/-- Reading through the node is reading the file, and stops the kernel where that does. -/
structure Backs (node : Node) (f : File) : Prop where
  type : node.data.getType = f.type
  readAll : ∀ junk temp offset n p buffer,
    match f.readAll offset n with
    | (bytes, .ok cnt) => (node.io junk).readAll temp offset n p buffer =
        .ok (cnt, put p bytes.length (fun i => bytes.getD i 0) buffer)
    | (_, .error _) => ∃ e, (node.io junk).readAll temp offset n p buffer = .error e

variable {c : Config} {f : File} {node : Node} {free : ℕ} {argv : List CString} {mem : Buffer}

section Nodes

variable {disk : Buffer} {F : List UInt8} (hdrive : node.ide.io.Holds disk)
  (hpos : 0 < node.blockSize) (hF : F.length < 2 ^ 32)
include hdrive

theorem nodeFile_byte {i : ℕ} {src : Buffer}
    (h : node.delivers disk (i / node.blockSize) = some src) :
    ∃ block, (nodeFile node F hpos hF).readBlock (i / node.blockSize) = .ok block ∧
      block (i % node.blockSize) = node.delivered disk i := by
  refine ⟨_, Node.readBlock_delivers hdrive h, ?_⟩
  have hbyte := put_of_mem (p := 0) src (fun _ => 0) (Nat.mod_lt i hpos)
  rw [Nat.zero_add] at hbyte
  exact hbyte.trans (by rw [Node.delivered, h, Option.getD_some])

theorem nodeFile_readable {i : ℕ} : (nodeFile node F hpos hF).Readable i ↔
    ∃ src, node.delivers disk (i / node.blockSize) = some src := by
  rw [File.readable_iff]
  cases h : node.delivers disk (i / node.blockSize) with
  | some src =>
    obtain ⟨block, hblock, -⟩ := nodeFile_byte hdrive hpos hF h
    exact iff_of_true ⟨block, hblock⟩ ⟨src, rfl⟩
  | none =>
    obtain ⟨e, he⟩ : ∃ e, (nodeFile node F hpos hF).readBlock (i / node.blockSize) = .error e :=
      Node.readBlock_stops hdrive h
    exact iff_of_false (fun ⟨_, hok⟩ => nomatch he.symm.trans hok) nofun

theorem nodeFile_readBytes {offset n : ℕ}
    (h : ∀ i < n, ∃ src, node.delivers disk ((offset + i) / node.blockSize) = some src) :
    (nodeFile node F hpos hF).readBytes offset n =
      ((List.range n).map fun i => node.delivered disk (offset + i), .ok ()) := by
  refine File.readBytes_of_content _ fun i hi => ?_
  obtain ⟨src, hsrc⟩ := h i hi
  exact nodeFile_byte hdrive hpos hF hsrc

theorem backs_nodeFile (hsize : F.length = node.data.sizeLow) :
    Backs node (nodeFile node F hpos hF) := by
  refine ⟨rfl, fun junk temp offset n p buffer => ?_⟩
  have hlength : (node.io junk).sizeInBytes = F.length := hsize.symm
  have hlt : (node.io junk).sizeInBytes < 2 ^ 32 := hlength ▸ hF
  unfold File.readAll
  rw [show (nodeFile node F hpos hF).bytes = F from rfl]
  by_cases hn : n = 0
  · rw [if_pos hn, hn, BlockIO.readAll, BlockIO.readLoop, dif_pos rfl]
    exact congrArg Except.ok (congrArg (Prod.mk 0) (put_zero ..).symm)
  rw [if_neg hn]
  by_cases hoff : offset > F.length
  · rw [if_pos hoff, BlockIO.readAll_beyond (by omega) (by omega)]
    exact congrArg Except.ok (congrArg (Prod.mk (-1)) (put_zero ..).symm)
  rw [if_neg hoff]
  by_cases hall : ∀ i < min n (F.length - offset),
      ∃ src, node.delivers disk ((offset + i) / node.blockSize) = some src
  · have hblocks : ∀ b, (node.io junk).Meets offset
        (min n ((node.io junk).sizeInBytes - offset)) b →
          (node.io junk).Reads (node.delivered disk) b := by
      rintro _ ⟨i, hi, rfl⟩
      obtain ⟨src, hsrc⟩ := hall i (hlength ▸ hi)
      exact Node.reads_delivered hdrive hpos hsrc junk
    have hread : (node.io junk).readAll temp offset n p buffer = _ :=
      BlockIO.readLoop_of_reads hpos hlt 0 (by omega) hblocks
    rw [nodeFile_readBytes hdrive hpos hF hall]
    simp only [Except.map, List.length_map, List.length_range]
    rw [hread, hlength, zero_add]
    refine congrArg Except.ok (congrArg (Prod.mk _) (put_congr buffer fun i hi => ?_))
    simp [List.getD_eq_getElem?_getD, hi]
  · have hstop : (nodeFile node F hpos hF).readBytes offset (min n (F.length - offset)) ≠
        (((nodeFile node F hpos hF).readBytes offset (min n (F.length - offset))).1, .ok ()) := by
      intro heq
      exact hall fun i hi => (nodeFile_readable hdrive hpos hF).mp
        (File.readBytes_ok_iff.mp (congrArg Prod.snd heq) i hi)
    generalize (nodeFile node F hpos hF).readBytes offset (min n (F.length - offset)) = r at hstop
    obtain ⟨bytes, e | ⟨⟩⟩ := r
    · obtain ⟨i, hi, hnone⟩ : ∃ i, ∃ _ : i < min n (F.length - offset), ¬ _ := by
        simpa only [not_forall] using hall
      have hfails : (node.io junk).Fails ((offset + i) / node.blockSize) := fun _ _ =>
        Node.readBlock_stops hdrive
          (Option.eq_none_iff_forall_ne_some.mpr fun src hsrc => hnone ⟨src, hsrc⟩)
      have hblocks : ∀ b, (node.io junk).Meets offset
          (min n ((node.io junk).sizeInBytes - offset)) b →
            (node.io junk).Reads (node.delivered disk) b ∨ (node.io junk).Fails b :=
        fun b _ => Node.reads_or_fails hdrive hpos b junk
      exact BlockIO.readLoop_of_fails hpos hlt 0 (by omega) hblocks
        ⟨_, ⟨i, hlength ▸ hi, rfl⟩, hfails⟩
    · exact absurd rfl hstop

end Nodes

theorem readAll_congr {f' : File} (hbytes : f.bytes = f'.bytes)
    (hf : ∀ i < f.bytes.length, f.ReadsBack i) (hf' : ∀ i < f'.bytes.length, f'.ReadsBack i)
    (offset n : ℕ) : f.readAll offset n = f'.readAll offset n := by
  have hlength := congrArg List.length hbytes
  unfold File.readAll
  by_cases hn : n = 0
  · rw [if_pos hn, if_pos hn]
  by_cases hoff : offset > f.bytes.length
  · rw [if_neg hn, if_neg hn, if_pos hoff, if_pos (hlength ▸ hoff)]
  · rw [if_neg hn, if_neg hn, if_neg hoff, if_neg (hlength ▸ hoff),
      File.readBytes_of_readsBack (by omega) fun i hi => hf _ (by omega),
      File.readBytes_of_readsBack (by omega) fun i hi => hf' _ (by omega), hbytes]

theorem backs_of_stored {disk : Buffer} (htype : node.data.getType = f.type) (h : node.Stored disk)
    (hbytes : f.bytes = node.contents disk) (hback : ∀ i < f.bytes.length, f.ReadsBack i) :
    Backs node f := by
  have hF : (node.contents disk).length < 2 ^ 32 := hbytes ▸ f.size_lt
  have hbacks := backs_nodeFile h.drive h.blockSize_pos hF h.length_contents
  have hnode : ∀ i < (node.contents disk).length,
      (nodeFile node (node.contents disk) h.blockSize_pos hF).ReadsBack i := by
    intro i hi
    obtain ⟨src, hsrc, hbyte⟩ := ActualFile.readsBack_of_stored h (h.length_contents ▸ hi)
    obtain ⟨block, hblock, heq⟩ := nodeFile_byte h.drive h.blockSize_pos hF hsrc
    refine ⟨block, hblock, heq.trans ?_⟩
    change _ = (node.contents disk).getD i 0
    rw [List.getD_eq_getElem?_getD, hbyte, Node.delivered, hsrc, Option.getD_some, Option.getD_some]
  refine ⟨htype, fun junk temp offset n p buffer => ?_⟩
  have hcongr : f.readAll offset n =
      (nodeFile node (node.contents disk) h.blockSize_pos hF).readAll offset n :=
    readAll_congr hbytes hback hnode offset n
  rw [hcongr]
  exact hbacks.readAll junk temp offset n p buffer

/-- What it takes to run a program: a header that passes the checks, segments that end below the
stack, and frames for both. -/
structure File.Runs (c : Config) (free : ℕ) (f : File) (argv : List CString) : Prop where
  type : f.type = 8
  check : f.header.check = none
  loadable : f.Loadable c
  stack : ∀ i < f.header.phnum, (f.programHeader i).type = 1 →
    (f.programHeader i).vaddr + (f.programHeader i).memsz + stackBytes argv ≤ 0xefffe000
  arguments : stackBytes argv ≤ 0xefffe000
  frames : framesNeeded c (addresses ((buildStack argv).2 ++ f.image)) ≤ free

def Started (f : File) (argv : List CString) (outcome : Buffer × Result) : Prop :=
  ∃ mem sp, outcome = (mem, .user f.header.entry sp) ∧ Decodes argv mem sp ∧
    ∀ i < f.header.phnum, (f.programHeader i).type = 1 → (f.programHeader i).Loaded f mem

theorem File.Loadable.intact (h : f.Loadable c) (hback : ∀ i < f.bytes.length, f.ReadsBack i) :
    f.Intact where
  header i hi := hback _ (by have := h.header; omega)
  headers i hi j hj := hback _ (by have := h.headers i hi; omega)
  segments i hi htype j hj := hback _ ((h.segments i hi htype).present j hj)

theorem exec_started (h : f.Runs c free argv) (hback : ∀ i < f.bytes.length, f.ReadsBack i)
    (mem : Buffer) : Started f argv (execWithin c free (some f) argv mem) := by
  have hintact := h.loadable.intact hback
  have hload := load_loadable h.loadable hintact
  have hexec := exec_header c argv mem h.type h.loadable.header hintact.header
  rw [h.check, hload] at hexec
  obtain ⟨hloaded, hkept⟩ := image_leaves h.loadable
    ((buildStack argv).2.foldl Store.apply (clearPrivate c mem))
  unfold execWithin
  rw [hexec]
  simp only [hload, if_pos h.frames]
  refine ⟨_, _, rfl, ?_, hloaded⟩
  have hpush := buildStack_spec argv (clearPrivate c mem) h.arguments
  have hsp := hpush.sp_eq
  rw [length_image] at hsp
  -- no segment reaches up to the stack
  refine decodes_of_spells hsp (hpush.spells.congr fun i hi => ?_)
  rw [length_image] at hi
  refine hkept _ (by omega) fun j hj hcovers => ?_
  have hbelow := h.stack j hj hcovers.1
  have hend := hcovers.2.2
  omega

variable {g : Geometry} {ide : Ide} {disk junk : Buffer} {v : Volume}

theorem oneSegment_runs : (oneSegment 0x80000000).Runs apics 4 twoArguments := by
  have hphnum : (oneSegment 0x80000000).header.phnum = 1 := by decide +kernel
  refine ⟨rfl, by decide +kernel, oneSegment_loadable, fun i hi _ => ?_, by decide,
    by decide +kernel⟩
  obtain rfl : i = 0 := by omega
  decide +kernel

end OsShell.Exec
