import OsShell.Ext2.Blocks
import OsShell.Ext2.Sparse
import OsShell.Process.SharedFile

/-!
# Reading a file in pieces

`read` of an open file clips the number of bytes to what is left of the file, lets
`read_all` of the node copy that many from `totalOffset` on, and moves the offset by
them without a look at what `read_all` returns. A row of calls then cuts the rest of
the file into pieces, in the order of the calls.
-/

namespace OsShell

open Bytes Stopping

/-- An open file; `totalOffset` has 32 bits. -/
structure ActualFile where
  node : Option Ext2.Node
  totalOffset : ℕ

namespace ActualFile

def seek (f : ActualFile) (offset : ℕ) : ActualFile := { f with totalOffset := offset }

@[simp] theorem seek_totalOffset (f : ActualFile) (k : ℕ) : (f.seek k).totalOffset = k := rfl

@[simp] theorem seek_seek (f : ActualFile) (k k' : ℕ) : (f.seek k).seek k' = f.seek k' := rfl

/-- `read(buffer, n)`: the result, and the memory afterwards. -/
def read (f : ActualFile) (junk : Buffer) (buffer n : ℕ) (mem : Buffer) :
    Except Halt (ℤ × ActualFile × Buffer) :=
  match f.node with
  | none => .ok (-1, f, mem)
  | some node =>
    let size := node.data.sizeLow
    if buffer < 0x80000000 then .ok (-1, f, mem)
    else if f.totalOffset ≥ size ∨ n = 0 then .ok (0, f, mem)
    else do
      let left := (size + 2 ^ 32 - f.totalOffset) % 2 ^ 32
      let bytes_read := if n > left then left else n
      let (_, mem) ← (node.io junk).readAll junk f.totalOffset bytes_read buffer mem
      return ((bytes_read : ℤ).bmod (2 ^ 32),
        { f with totalOffset := (f.totalOffset + bytes_read) % 2 ^ 32 }, mem)

/-- The arguments of a call, the memory in which it is made, and what it finds on its stack. -/
structure Call where
  junk : Buffer
  mem : Buffer
  buffer : ℕ
  n : ℕ

def reads (f : ActualFile) : List Call → Except Halt (List (ℤ × List UInt8) × ActualFile)
  | [] => .ok ([], f)
  | call :: calls => do
    let (count, f, mem) ← f.read call.junk call.buffer call.n call.mem
    let (results, f) ← reads f calls
    return ((count, slice mem call.buffer count.toNat) :: results, f)

def Contains (node : Ext2.Node) (F : List UInt8) : Prop :=
  F.length = node.data.sizeLow ∧ ∀ junk, ∃ content : Buffer, (node.io junk).Holds content ∧
    ∀ i < node.data.sizeLow, F[i]? = some (content i)

theorem contains_of_stored {node : Ext2.Node} {disk : Buffer} (h : node.Stored disk) :
    Contains node (node.contents disk) :=
  ⟨h.length_contents, fun junk => h.exists_content junk⟩

structure Delivers (node : Ext2.Node) (F : List UInt8) (k n : ℕ) : Prop where
  length : F.length = node.data.sizeLow
  pos : 0 < node.blockSize
  bytes : ∀ junk, ∃ content : Buffer, ∀ i, k ≤ i → i < k + n → i < F.length →
    (node.io junk).Reads content (i / node.blockSize) ∧ F[i]? = some (content i)

theorem Contains.delivers {node : Ext2.Node} {F : List UInt8} (h : Contains node F) (k n : ℕ) :
    Delivers node F k n := by
  obtain ⟨hlength, hcontent⟩ := h
  obtain ⟨_, hholds, -⟩ := hcontent fun _ => 0
  refine ⟨hlength, hholds.pos, fun junk => ?_⟩
  obtain ⟨content, hholds, hbytes⟩ := hcontent junk
  refine ⟨content, fun i _ _ hi => ⟨hholds.block _ ?_, hbytes i (by omega)⟩⟩
  change _ < node.data.sizeLow
  exact (Nat.div_mul_le_self i node.blockSize).trans_lt (by omega)

theorem Delivers.mono {node : Ext2.Node} {F : List UInt8} {k n k' n' : ℕ} (h : Delivers node F k n)
    (hle : k ≤ k') (hend : ∀ i, k' ≤ i → i < k' + n' → i < F.length → i < k + n) :
    Delivers node F k' n' := by
  refine ⟨h.length, h.pos, fun junk => ?_⟩
  obtain ⟨content, hbytes⟩ := h.bytes junk
  exact ⟨content, fun i hk hn hi => hbytes i (by omega) (hend i hk hn hi) hi⟩

/-! ## The pieces -/

section Pieces

variable {α : Type*} (l : List α) (ns : List ℕ)

theorem flatten_splitLengths_eq_take : (ns.splitLengths l).flatten = l.take ns.sum := by
  induction ns generalizing l with
  | nil => rfl
  | cons n ns ih =>
    rw [List.splitLengths_cons, List.flatten_cons, ih, List.sum_cons, List.take_add]

theorem getElem?_splitLengths (i : ℕ) : (ns.splitLengths l)[i]? =
    ns[i]?.map fun n => (l.drop (ns.take i).sum).take n := by
  induction ns generalizing l i with
  | nil => rfl
  | cons n ns ih =>
    rw [List.splitLengths_cons]
    cases i with
    | zero => rfl
    | succ i =>
      rw [List.getElem?_cons_succ, ih, List.getElem?_cons_succ, List.take_succ_cons, List.sum_cons,
        List.drop_drop]

end Pieces

/-! ## The calls -/

variable {f : ActualFile} {node : Ext2.Node} {F : List UInt8}

theorem slice_eq_take {k n p : ℕ} (mem : Buffer) :
    slice (put p (min n (F.length - k)) (fun i => F.getD (k + i) 0) mem) p (min n (F.length - k)) =
      (F.drop k).take n := by
  rw [slice_put]
  refine List.ext_getElem? fun i => ?_
  by_cases hi : i < min n (F.length - k)
  · rw [getElem?_slice _ _ hi, List.getElem?_take_of_lt (by omega), List.getElem?_drop, Nat.zero_add,
      List.getD_eq_getElem?_getD, List.getElem?_eq_getElem (by omega), Option.getD_some]
  · rw [List.getElem?_eq_none (by rw [length_slice]; omega), List.getElem?_eq_none]
    rw [List.length_take, List.length_drop]
    omega

theorem read_spec (hnode : f.node = some node) {n : ℕ} (h : Delivers node F f.totalOffset n)
    (hF : F.length < 2 ^ 31) {buffer : ℕ} (hbuffer : 0x80000000 ≤ buffer) (junk mem : Buffer) :
    f.read junk buffer n mem = .ok ((min n (F.length - f.totalOffset) : ℕ),
      f.seek (f.totalOffset + min n (F.length - f.totalOffset)),
      put buffer (min n (F.length - f.totalOffset)) (fun i => F.getD (f.totalOffset + i) 0) mem) := by
  obtain ⟨m, k⟩ := f
  obtain rfl : m = some node := hnode
  obtain ⟨hsize, hpos, hdelivers⟩ := h
  simp only [read, seek, if_neg hbuffer.not_gt, ← hsize]
  by_cases hend : k ≥ F.length ∨ n = 0
  · have hzero : min n (F.length - k) = 0 := by omega
    rw [if_pos hend, hzero, put_zero]
    rfl
  · have hleft : (F.length + 2 ^ 32 - k) % 2 ^ 32 = F.length - k := by omega
    have hclip : (if n > F.length - k then F.length - k else n) = min n (F.length - k) := by
      split <;> omega
    obtain ⟨content, hbytes⟩ := hdelivers junk
    have hfit : k + min n (F.length - k) ≤ (node.io junk).sizeInBytes := by
      change _ ≤ node.data.sizeLow
      omega
    have hread : (node.io junk).readAll junk k (min n (F.length - k)) buffer mem = _ :=
      BlockIO.readAll_of_reads hpos (le32_lt _ _) hfit fun i hi =>
        (hbytes (k + i) (Nat.le_add_right k i) (show k + i < k + n by omega) (by omega)).1
    rw [if_neg hend, hleft, hclip, hread]
    have hput : put buffer (min n (F.length - k)) (fun i => content (k + i)) mem =
        put buffer (min n (F.length - k)) (fun i => F.getD (k + i) 0) mem := by
      refine put_congr mem fun i hi => ?_
      rw [List.getD_eq_getElem?_getD, (hbytes (k + i) (Nat.le_add_right k i)
        (show k + i < k + n by omega) (by omega)).2, Option.getD_some]
    -- the result is below 2 ^ 31, and the new offset does not go beyond the file
    have hoffset : (k + min n (F.length - k)) % 2 ^ 32 = k + min n (F.length - k) :=
      Nat.mod_eq_of_lt (by omega)
    have hsigned : ((min n (F.length - k) : ℕ) : ℤ).bmod (2 ^ 32) = (min n (F.length - k) : ℕ) :=
      Int.bmod_eq_of_le (by omega) (by omega)
    simp only [ok_bind]
    rw [hput, hsigned, hoffset]
    rfl

theorem reads_eq (hnode : f.node = some node) (calls : List Call)
    (h : Delivers node F f.totalOffset (calls.map Call.n).sum) (hF : F.length < 2 ^ 31)
    (hbuffer : ∀ call ∈ calls, 0x80000000 ≤ call.buffer) :
    f.reads calls = .ok
      (((calls.map Call.n).splitLengths (F.drop f.totalOffset)).map fun piece =>
        ((piece.length : ℤ), piece),
      f.seek (f.totalOffset + min (calls.map Call.n).sum (F.length - f.totalOffset))) := by
  induction calls generalizing f with
  | nil =>
    rw [reads, List.map_nil, List.sum_nil, Nat.zero_min, Nat.add_zero]
    rfl
  | cons call calls ih =>
    rw [List.map_cons, List.sum_cons] at h
    have hpart : Delivers node F f.totalOffset call.n := h.mono le_rfl fun i _ hn _ => by omega
    have hfirst := read_spec hnode hpart hF (hbuffer call List.mem_cons_self) call.junk call.mem
    have hnext : (f.seek (f.totalOffset + min call.n (F.length - f.totalOffset))).node = some node :=
      hnode
    have hrest : Delivers node F (f.seek (f.totalOffset +
        min call.n (F.length - f.totalOffset))).totalOffset (calls.map Call.n).sum := by
      refine h.mono (Nat.le_add_right _ _) fun i hk hn hi => ?_
      simp only [seek_totalOffset] at hk hn
      omega
    have hdrop : F.drop (f.totalOffset + min call.n (F.length - f.totalOffset)) =
        (F.drop f.totalOffset).drop call.n := by
      rw [List.drop_drop]
      by_cases hlt : call.n ≤ F.length - f.totalOffset
      · rw [min_eq_left hlt]
      · rw [List.drop_eq_nil_of_le (by omega), List.drop_eq_nil_of_le (by omega)]
    have hlen : ((F.drop f.totalOffset).take call.n).length = min call.n (F.length - f.totalOffset) := by
      rw [List.length_take, List.length_drop]
    rw [reads, hfirst, ok_bind]
    simp only
    rw [ih hnext hrest fun c hc => hbuffer c (List.mem_cons_of_mem call hc), ok_bind, List.map_cons,
      List.splitLengths_cons, List.map_cons, List.sum_cons, Int.toNat_natCast, slice_eq_take, hlen]
    have hsum : f.totalOffset + min call.n (F.length - f.totalOffset) + min (calls.map Call.n).sum
        (F.length - (f.totalOffset + min call.n (F.length - f.totalOffset))) =
        f.totalOffset + min (call.n + (calls.map Call.n).sum) (F.length - f.totalOffset) := by
      omega
    simp only [seek, hdrop, hsum]
    rfl

/-- Whatever the sizes of the reads, what they return is the file from `k` on, as far as one read of
the sum of the sizes would have gone; each returns as many bytes as it asks for or as are left. -/
def InPieces (f : ActualFile) (F : List UInt8) (k : ℕ) (calls : List Call) : Prop :=
  ∃ pieces : List (List UInt8), pieces.length = calls.length ∧
    (f.seek k).reads calls = .ok (pieces.map fun piece => ((piece.length : ℤ), piece),
      f.seek (k + pieces.flatten.length)) ∧
    pieces.flatten = (F.drop k).take (calls.map Call.n).sum ∧
    (∀ i call piece, calls[i]? = some call → pieces[i]? = some piece →
      piece.length = min call.n (F.length - (k + (pieces.take i).flatten.length)) ∧
      (piece.length = 0 ↔ call.n = 0 ∨ F.length ≤ k + (pieces.take i).flatten.length)) ∧
    ∀ call, 0x80000000 ≤ call.buffer → call.n = (calls.map Call.n).sum →
      (f.seek k).reads [call] = .ok ([((pieces.flatten.length : ℤ), pieces.flatten)],
        f.seek (k + pieces.flatten.length))

theorem inPieces_of_delivers (hnode : f.node = some node) {k : ℕ} {calls : List Call}
    (h : Delivers node F k (calls.map Call.n).sum) (hF : F.length < 2 ^ 31)
    (hbuffer : ∀ call ∈ calls, 0x80000000 ≤ call.buffer) : f.InPieces F k calls := by
  have hall : ((calls.map Call.n).splitLengths (F.drop k)).flatten =
      (F.drop k).take (calls.map Call.n).sum := flatten_splitLengths_eq_take _ _
  have hlen : ((F.drop k).take (calls.map Call.n).sum).length =
      min (calls.map Call.n).sum (F.length - k) := by
    rw [List.length_take, List.length_drop]
  refine ⟨(calls.map Call.n).splitLengths (F.drop k), by simp, ?_, hall, ?_, ?_⟩
  · rw [reads_eq (f := f.seek k) hnode calls h hF hbuffer, hall, hlen, seek_seek, seek_totalOffset]
  · intro i call piece hcall hpiece
    rw [getElem?_splitLengths, List.getElem?_map, hcall] at hpiece
    obtain rfl := Option.some.inj hpiece
    rw [List.take_splitLength, flatten_splitLengths_eq_take]
    simp only [List.length_take, List.length_drop]
    omega
  · intro call hcall hn
    have hone : Delivers node F (f.seek k).totalOffset ([call].map Call.n).sum := by
      rw [← hn] at h
      simpa using h
    rw [reads_eq (f := f.seek k) hnode [call] hone hF (by simpa using hcall), seek_seek,
      seek_totalOffset, hall, ← hn]
    simp [hn]

/-! ## The bytes that cannot be read back -/

def ReadsBack (node : Ext2.Node) (disk : Buffer) (F : List UInt8) (i : ℕ) : Prop :=
  ∃ src, node.delivers disk (i / node.blockSize) = some src ∧
    F[i]? = some (src (i % node.blockSize))

section Blocks

variable {disk : Buffer} (hdrive : node.ide.io.Holds disk) (hpos : 0 < node.blockSize)
include hdrive hpos

theorem delivers_of_readsBack (hsize : F.length = node.data.sizeLow) {k n : ℕ}
    (h : ∀ i, k ≤ i → i < k + n → i < F.length → ReadsBack node disk F i) : Delivers node F k n := by
  refine ⟨hsize, hpos, fun junk => ⟨node.delivered disk, fun i hk hn hi => ?_⟩⟩
  obtain ⟨src, hsrc, hbyte⟩ := h i hk hn hi
  refine ⟨Ext2.Node.reads_delivered hdrive hpos hsrc junk, ?_⟩
  rw [hbyte, Ext2.Node.delivered, hsrc, Option.getD_some]

theorem reads_delivers (hnode : f.node = some node) (hlt : f.totalOffset < node.data.sizeLow)
    {call : Call} (hbuffer : 0x80000000 ≤ call.buffer) (hn : 0 < call.n) {count : ℕ}
    (hcount : count = min call.n (node.data.sizeLow - f.totalOffset)) :
    (∃ e, f.reads [call] = .error e) ∨
      (∀ j < count, ∃ src, node.delivers disk ((f.totalOffset + j) / node.blockSize) = some src) ∧
      ∃ f', f.reads [call] = .ok ([((count : ℤ).bmod (2 ^ 32),
        slice (put call.buffer count (fun j => node.delivered disk (f.totalOffset + j)) call.mem)
          call.buffer ((count : ℤ).bmod (2 ^ 32)).toNat)], f') := by
  obtain ⟨m, k⟩ := f
  obtain rfl : m = some node := hnode
  simp only at hlt hcount ⊢
  have hsize : node.data.sizeLow < 2 ^ 32 := le32_lt _ _
  have hgoes : ¬ (k ≥ node.data.sizeLow ∨ call.n = 0) := by omega
  have hleft : (node.data.sizeLow + 2 ^ 32 - k) % 2 ^ 32 = node.data.sizeLow - k := by omega
  have hclip : (if call.n > node.data.sizeLow - k then node.data.sizeLow - k else call.n) = count := by
    split <;> omega
  have hfit : k + count ≤ (node.io call.junk).sizeInBytes := by
    change _ ≤ node.data.sizeLow
    omega
  by_cases hall : ∀ j < count, ∃ src, node.delivers disk ((k + j) / node.blockSize) = some src
  · have hread : (node.io call.junk).readAll call.junk k count call.buffer call.mem = _ :=
      BlockIO.readAll_of_reads hpos hsize hfit fun j hj => by
        obtain ⟨src, hsrc⟩ := hall j hj
        exact Ext2.Node.reads_delivered hdrive hpos hsrc call.junk
    refine .inr ⟨hall, ?_⟩
    refine ⟨⟨some node, (k + count) % 2 ^ 32⟩, ?_⟩
    simp only [reads, read, if_neg hbuffer.not_gt, if_neg hgoes, hleft, hclip, hread, ok_bind, pure,
      Except.pure]
  · left
    obtain ⟨j, hj, hnone⟩ : ∃ j, ∃ _ : j < count, ¬ _ := by simpa only [not_forall] using hall
    have hfails : (node.io call.junk).Fails ((k + j) / node.blockSize) := fun _ _ =>
      Ext2.Node.readBlock_stops hdrive
        (Option.eq_none_iff_forall_ne_some.mpr fun src hsrc => hnone ⟨src, hsrc⟩)
    obtain ⟨e, he⟩ : ∃ e, (node.io call.junk).readAll call.junk k count call.buffer call.mem = .error e :=
      BlockIO.readAll_of_fails hpos hsize hfit
        (fun i _ => Ext2.Node.reads_or_fails hdrive hpos ((k + i) / node.blockSize) call.junk) hj hfails
    refine ⟨e, ?_⟩
    simp only [reads, read, if_neg hbuffer.not_gt, if_neg hgoes, hleft, hclip, he, error_bind]

theorem readsBack_of_reads (hnode : f.node = some node) (hsize : F.length = node.data.sizeLow)
    (hF : F.length < 2 ^ 31) {call : Call} (hbuffer : 0x80000000 ≤ call.buffer) {f' : ActualFile}
    (h : f.reads [call] = .ok ([((((F.drop f.totalOffset).take call.n).length : ℤ),
      (F.drop f.totalOffset).take call.n)], f')) {i : ℕ} (hi : f.totalOffset ≤ i)
    (hn : i < f.totalOffset + call.n) (hlt : i < F.length) : ReadsBack node disk F i := by
  obtain ⟨count, hcount⟩ : ∃ count, count = min call.n (node.data.sizeLow - f.totalOffset) := ⟨_, rfl⟩
  rcases reads_delivers hdrive hpos hnode (by omega) hbuffer (by omega) hcount with
    ⟨e, he⟩ | ⟨hall, f'', hread⟩
  · rw [he] at h
    nomatch h
  · have hsigned : ((count : ℕ) : ℤ).bmod (2 ^ 32) = count :=
      Int.bmod_eq_of_le (by omega) (by omega)
    rw [hread, hsigned, Int.toNat_natCast, slice_put] at h
    have hbytes := congrArg Prod.snd (List.cons.inj (congrArg Prod.fst (Except.ok.inj h))).1
    obtain ⟨src, hsrc⟩ := hall (i - f.totalOffset) (by omega)
    rw [Nat.add_sub_cancel' hi] at hsrc
    refine ⟨src, hsrc, ?_⟩
    have hbyte := congrArg (·[i - f.totalOffset]?) hbytes
    simp only [List.getElem?_take_of_lt (show i - f.totalOffset < call.n by omega),
      List.getElem?_drop, Nat.add_sub_cancel' hi] at hbyte
    rw [← hbyte, getElem?_slice _ _ (by omega), Nat.zero_add, Nat.add_sub_cancel' hi,
      Ext2.Node.delivered, hsrc, Option.getD_some]

end Blocks

theorem readsBack_of_stored {disk : Buffer} (h : node.Stored disk) {i : ℕ}
    (hi : i < node.data.sizeLow) : ReadsBack node disk (node.contents disk) i := by
  have hstart := (Nat.div_mul_le_self i node.blockSize).trans_lt hi
  obtain ⟨b, hb, -, -⟩ := h.block _ hstart
  exact ⟨_, h.delivers_eq hstart hb, h.getElem?_contents hi hb⟩

/-- Reading in pieces is reading at once if and only if each byte of the range can be read back. -/
theorem reads_in_pieces_iff {disk : Buffer} (hdrive : node.ide.io.Holds disk)
    (hpos : 0 < node.blockSize) (hnode : f.node = some node) (hsize : F.length = node.data.sizeLow)
    (hF : F.length < 2 ^ 31) (k : ℕ) (calls : List Call)
    (hbuffer : ∀ call ∈ calls, 0x80000000 ≤ call.buffer) :
    f.InPieces F k calls ↔ ∀ i, k ≤ i → i < k + (calls.map Call.n).sum → i < F.length →
      ReadsBack node disk F i := by
  constructor
  · rintro ⟨pieces, -, -, hflatten, -, hone⟩ i hk hn hi
    have hread := hone ⟨fun _ => 0, fun _ => 0, 0x80000000, (calls.map Call.n).sum⟩ le_rfl rfl
    rw [hflatten] at hread
    exact readsBack_of_reads (f := f.seek k) hdrive hpos hnode hsize hF le_rfl hread hk hn hi
  · exact fun h => inPieces_of_delivers hnode (delivers_of_readsBack hdrive hpos hsize h) hF hbuffer

/-- Two reads at the end of the file of 13000 bytes: of the second, two bytes are left. -/
theorem sampleNode_reads : (⟨some Ext2.Node.sampleNode, 0⟩ : ActualFile).InPieces
    (Ext2.Node.sampleNode.contents Ext2.Node.sampleNode.sampleDisk) 12995
    [⟨fun _ => 7, fun _ => 0, 0x80000000, 3⟩, ⟨fun _ => 7, fun _ => 0, 0x80000003, 9⟩] := by
  have h := Ext2.Node.sampleNode_regularFile.toStored
  have hlen := h.length_contents
  have hsmall : (Ext2.Node.sampleNode.contents Ext2.Node.sampleNode.sampleDisk).length < 2 ^ 31 := by
    rw [hlen, Ext2.Node.sampleNode_sizeLow]
    decide
  exact (reads_in_pieces_iff h.drive h.blockSize_pos rfl hlen hsmall 12995 _ (by simp)).mpr
    fun i _ _ hi => readsBack_of_stored h (hlen ▸ hi)

def holeBytes : List UInt8 :=
  (List.range 2048).map (Ext2.Node.holeNode.fileByte Ext2.Node.sampleNode.sampleDisk)

/-- The first byte of the hole cannot be read: the call does not return. -/
theorem holeNode_stops_reads : Ext2.Node.holeNode.SparseFile Ext2.Node.sampleNode.sampleDisk ∧
    holeBytes.length = Ext2.Node.holeNode.data.sizeLow ∧
    ¬ (⟨some Ext2.Node.holeNode, 0⟩ : ActualFile).InPieces holeBytes 1024
      [⟨fun _ => 7, fun _ => 0, 0x80000000, 1⟩] := by
  have hread : ((⟨some Ext2.Node.holeNode, 0⟩ : ActualFile).seek 1024).reads
      [⟨fun _ => 7, fun _ => 0, 0x80000000, 1⟩] =
        .error (.assertion "index < data.n_sectors / (block_size / 512)") := by
    have hblock : (Ext2.Node.holeNode.io fun _ => 7).readAll (fun _ => 7) 1024 1 0x80000000 (fun _ => 0) =
        .error (.assertion "index < data.n_sectors / (block_size / 512)") := by
      rw [ BlockIO.readAll, BlockIO.readLoop, dif_neg (by decide)]
      rfl
    have hsize : Ext2.Node.holeNode.data.sizeLow = 2048 := by decide
    simp [reads, read, seek, hsize, hblock]
  refine ⟨Ext2.Node.holeNode_sparseFile, ?_, ?_⟩
  · rw [holeBytes, List.length_map, List.length_range]
    decide
  · rintro ⟨pieces, -, hpieces, -⟩
    rw [hread] at hpieces
    cases hpieces

/-! ## The steps of a call -/

theorem read_eq_steps {C : Type*} [DecidableEq C] (hnode : f.node = some node) (h : Contains node F)
    (hF : F.length < 2 ^ 31) {s : State C} (hoffset : s.totalOffset = f.totalOffset) (c : C)
    {buffer n : ℕ} (hbuffer : 0x80000000 ≤ buffer) (hlt : f.totalOffset < F.length) (hn : n ≠ 0)
    (junk mem : Buffer) :
    ∃ (bytesRead : ℕ) (mem' : Buffer), f.read junk buffer n mem =
        .ok ((bytesRead : ℤ), f.seek ((s.copy c bytesRead).add c bytesRead).totalOffset, mem') ∧
      s.begin F.length c buffer n = s.goto c (.clipped bytesRead) ∧
      (s.copy c bytesRead).ranges = s.ranges ++ [(f.totalOffset, bytesRead)] := by
  have hgoes : ¬ (s.totalOffset ≥ F.length ∨ n = 0) := by omega
  have hclip : (if n > F.length - s.totalOffset then F.length - s.totalOffset else n) =
      min n (F.length - f.totalOffset) := by
    rw [hoffset]
    split <;> omega
  have hadd : ((s.copy c (min n (F.length - f.totalOffset))).add c
      (min n (F.length - f.totalOffset))).totalOffset =
      f.totalOffset + min n (F.length - f.totalOffset) := by
    rw [← hoffset]
    exact Nat.mod_eq_of_lt (show s.totalOffset + _ < 2 ^ 32 by omega)
  have hread := read_spec hnode (h.delivers f.totalOffset n) hF hbuffer junk mem
  rw [← hadd] at hread
  refine ⟨min n (F.length - f.totalOffset), _, hread, ?_, ?_⟩
  · rw [State.begin, if_neg hbuffer.not_gt, if_neg hgoes, hclip]
  · rw [← hoffset]
    rfl

end ActualFile

end OsShell
