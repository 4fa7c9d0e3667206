import OsShell.Ext2.Entries
import OsShell.Process.ActualFile

/-!
# Listing a directory

`ls` and the completion of the shell have one loop: it goes through the 1024 bytes
that `readdir` has put into a buffer, from entry to entry. Places count from the
beginning of the buffer, and `memory` goes on behind it. The loop adds the length of
the entry before it looks at the next one, but tests the offset before that, so that
it also takes what stands behind the last entry for an entry.
-/

namespace OsShell.Programs

open Bytes Stopping

/-- System call 16. -/
def readdir (f : ActualFile) (junk : Buffer) (buffer offset : ℕ) (mem : Buffer) :
    Except Halt (ℤ × ActualFile × Buffer) :=
  (f.seek offset).read junk buffer 1024 mem

/-- The variables of the loop. `reads` keeps what it has read of the memory, each with where it
begins and how many bytes it has; `state` is what the program does with the names. -/
structure Walker (σ : Type) where
  offset : ℕ
  recLen : ℕ
  name : Buffer
  reads : List (ℕ × ℕ)
  state : σ

/-- How many bytes of a name are copied, and where the zero goes. -/
def nameCopied (nameLen : ℕ) : ℕ := if nameLen < 255 then nameLen + 1 else 255
def nameEnd (nameLen : ℕ) : ℕ := if nameLen < 255 then nameLen else 254

def recLenAt (memory : Buffer) (offset : ℕ) : ℕ := le16 memory (offset + 4)

def nameLenAt (memory : Buffer) (offset : ℕ) : ℕ := (memory (offset + 6)).toNat

def nameAt (memory : Buffer) (offset : ℕ) (name : Buffer) : Buffer :=
  Function.update (put 0 (nameCopied (nameLenAt memory offset)) (fun i => memory (offset + 8 + i)) name)
    (nameEnd (nameLenAt memory offset)) 0

def readsAt (memory : Buffer) (offset : ℕ) : List (ℕ × ℕ) :=
  [(offset + 4, 2), (offset + 6, 1), (offset + 8, nameCopied (nameLenAt memory offset))]

section Loop

variable {σ : Type} (memory : Buffer) (work : Buffer → σ → σ)

def Walker.round (w : Walker σ) : Walker σ :=
  let offset := w.offset + w.recLen
  { offset
    -- two bytes of the four are written
    recLen := w.recLen / 2 ^ 16 * 2 ^ 16 + recLenAt memory offset
    name := nameAt memory offset w.name
    reads := w.reads ++ readsAt memory offset
    state := work (nameAt memory offset w.name) w.state }

def walkLoop : ℕ → Walker σ → Option (Walker σ)
  | 0, _ => none
  | rounds + 1, w => if w.offset ≤ 1023 then walkLoop rounds (w.round memory work) else some w

/-- The loop from the start; the array `name` is not initialised. -/
def walk (name : Buffer) (rounds : ℕ) (s : σ) : Option (Walker σ) :=
  walkLoop memory work rounds ⟨0, 0, name, [], s⟩

end Loop

def text (name : Buffer) : List UInt8 := cstr (slice name 0 256)

def ls (memory name : Buffer) (rounds : ℕ) : Option (Walker (List (List UInt8))) :=
  walk memory (fun name printed => if name 0 ≠ 46 then printed ++ [text name] else printed)
    name rounds []

def myStrncmp (s1 s2 : Buffer) (size : ℕ) : Bool :=
  (List.range size).all fun i => s1 i = s2 i

/-- The names that match what has been typed. -/
def handleTab (buf : Buffer) (bufferIndex : ℕ) (memory name : Buffer) (rounds : ℕ) :
    Option (Walker (List (List UInt8))) :=
  walk memory (fun name found => if myStrncmp name buf bufferIndex then found ++ [text name]
    else found) name rounds []

def visit (name : Buffer) (names : List (List UInt8)) : List (List UInt8) :=
  names ++ [text name]

def visited (memory name : Buffer) (rounds : ℕ) : Option (Walker (List (List UInt8))) :=
  walk memory visit name rounds []

def kernelNames (node : Ext2.Node) (junk : Buffer) (rounds : ℕ) :
    Option (Except Halt (List (List UInt8))) :=
  node.entries junk (fun _ name names => names ++ [cstr name]) rounds []

/-- From `offset` on the entries stand at the given places, each with room for its name, and the last
ends at byte 1024. -/
inductive Chain (content : Buffer) : ℕ → List ℕ → Prop
  | done : Chain content 1024 []
  | entry {offset : ℕ} {places : List ℕ} (room : 8 + nameLenAt content offset ≤ recLenAt content offset)
    (rest : Chain content (offset + recLenAt content offset) places) :
    Chain content offset (offset :: places)

/-- The loop has the names that the kernel has, and reads in the buffer only. -/
def Agrees (node : Ext2.Node) (junk memory name : Buffer) : Prop :=
  ∃ rounds w rounds', visited memory name rounds = some w ∧
    kernelNames node junk rounds' = some (.ok w.state) ∧ ∀ r ∈ w.reads, r.1 + r.2 ≤ 1024

/-! ## The two programs -/

def Walker.map {σ τ : Type} (f : σ → τ) (w : Walker σ) : Walker τ :=
  ⟨w.offset, w.recLen, w.name, w.reads, f w.state⟩

section Work

variable {σ τ : Type} {memory : Buffer} {work : Buffer → σ → σ} {work' : Buffer → τ → τ} {f : σ → τ}
  (hwork : ∀ name s, f (work name s) = work' name (f s))
include hwork

theorem walkLoop_map (rounds : ℕ) (w : Walker σ) :
    walkLoop memory work' rounds (w.map f) = (walkLoop memory work rounds w).map (Walker.map f) := by
  induction rounds generalizing w with
  | zero => rfl
  | succ rounds ih =>
    have hround : (w.map f).round memory work' = (w.round memory work).map f := by
      simp only [Walker.round, Walker.map, hwork]
    rw [walkLoop, walkLoop]
    by_cases hle : w.offset ≤ 1023
    · rw [if_pos hle, if_pos (show (w.map f).offset ≤ 1023 from hle), hround, ih]
    · rw [if_neg hle, if_neg (show ¬ (w.map f).offset ≤ 1023 from hle)]
      rfl

theorem walk_map (name : Buffer) (rounds : ℕ) (s : σ) : walk memory work' name rounds (f s) =
    (walk memory work name rounds s).map (Walker.map f) :=
  walkLoop_map hwork rounds ⟨0, 0, name, [], s⟩

end Work

theorem headD_text (name : Buffer) : (text name).headD 0 = name 0 := by
  have hslice : slice name 0 256 = name 0 :: slice name 1 255 := slice_add name 0 1 255
  rw [text, cstr, hslice, List.takeWhile_cons]
  by_cases hzero : name 0 = 0
  · simp [hzero]
  · simp [hzero]

theorem ls_eq (memory name : Buffer) (rounds : ℕ) : ls memory name rounds =
    (visited memory name rounds).map
      (Walker.map (List.filter fun text : List UInt8 => text.headD 0 ≠ 46)) := by
  refine walk_map (f := List.filter fun text : List UInt8 => text.headD 0 ≠ 46) (fun name names => ?_) name
    rounds []
  rw [visit, List.filter_append, ← headD_text name]
  by_cases hdot : (text name).headD 0 = 46
  · rw [if_neg (not_not_intro hdot), List.filter_cons_of_neg (by simpa using hdot), List.filter_nil,
      List.append_nil]
  · rw [if_pos hdot, List.filter_cons_of_pos (by simpa using hdot), List.filter_nil]

theorem handleTab_reads (buf memory name : Buffer) (bufferIndex rounds : ℕ) :
    (handleTab buf bufferIndex memory name rounds).map Walker.reads =
      (visited memory name rounds).map Walker.reads := by
  have hreads : ∀ work : Buffer → List (List UInt8) → List (List UInt8),
      (walk memory (fun _ _ => ()) name rounds ()).map Walker.reads =
        (walk memory work name rounds []).map Walker.reads := by
    intro work
    have hforget := @walk_map _ Unit memory work (fun _ _ => ()) (fun _ => ()) (fun _ _ => rfl)
      name rounds []
    rw [hforget, Option.map_map]
    rfl
  exact (hreads _).symm.trans (hreads visit)

/-! ## Against the kernel -/

section Names

variable {memory content junk : Buffer} {offset : ℕ} {places : List ℕ}

theorem text_nameAt (name : Buffer) : text (nameAt memory offset name) =
    cstr (slice memory (offset + 8) (nameEnd (nameLenAt memory offset))) := by
  have hlt : nameEnd (nameLenAt memory offset) < 256 := by unfold nameEnd; split <;> omega
  have hle : nameEnd (nameLenAt memory offset) ≤ nameCopied (nameLenAt memory offset) := by
    unfold nameEnd nameCopied
    split <;> omega
  refine cstr_slice (spells_append.mpr ⟨fun i hi => ?_, fun i hi => ?_⟩) (by rwa [length_slice])
  · rw [length_slice] at hi
    rw [Nat.zero_add, nameAt, Function.update_of_ne hi.ne]
    simpa [slice] using put_of_mem (p := 0) (fun i => memory (offset + 8 + i)) name (hi.trans_le hle)
  · obtain rfl : i = 0 := by simpa using hi
    simp [nameAt]

theorem Chain.le (h : Chain content offset places) : offset + 8 * places.length ≤ 1024 := by
  induction h with
  | done => rfl
  | entry room _ ih =>
    rw [List.length_cons]
    omega

theorem Chain.fits (h : Chain content offset places) :
    ∀ p ∈ places, p + 8 + nameLenAt content p ≤ 1024 := by
  induction h with
  | done => simp
  | entry room rest ih =>
    have hle := rest.le
    exact List.forall_mem_cons.mpr ⟨by omega, ih⟩

theorem Chain.congr (h : Chain content offset places) (hsame : ∀ i < 1024, memory i = content i) :
    Chain memory offset places := by
  induction h with
  | done => exact .done
  | @entry offset places room rest ih =>
    have hle := rest.le
    have hrec : recLenAt memory offset = recLenAt content offset :=
      le16_congr fun i hi => hsame _ (by omega)
    have hname : nameLenAt memory offset = nameLenAt content offset :=
      congrArg UInt8.toNat (hsame _ (by omega))
    rw [← hrec] at room ih
    rw [← hname] at room
    exact .entry room ih

theorem entriesLoop_of_chain {σ : Type} {node : Ext2.Node} {work : ℕ → List UInt8 → σ → σ}
    (h : (node.io junk).Holds content) (hsize : node.data.sizeLow = 1024)
    (hchain : Chain content offset places) (s : σ) :
    node.entriesLoop junk work (places.length + 1) offset s = some (.ok (places.foldl
      (fun s p => work (le32 content p) (slice content (p + 8) (nameLenAt content p)) s) s)) := by
  induction hchain generalizing s with
  | done =>
    rw [List.length_nil, Ext2.Node.entriesLoop, if_neg (by omega)]
    rfl
  | @entry offset places room rest ih =>
    have hle := rest.le
    have hfit : offset + 8 + (content (offset + 6)).toNat ≤ node.data.sizeLow := by
      unfold nameLenAt at room
      omega
    have hread := Ext2.Node.readEntry_of_holds h hfit
    rw [List.length_cons, Ext2.Node.entriesLoop, if_pos (by omega), hread]
    dsimp only
    rw [Nat.mod_eq_of_lt (by unfold recLenAt at hle; omega)]
    exact ih _

def userName (memory : Buffer) (offset : ℕ) : List UInt8 :=
  cstr (slice memory (offset + 8) (nameEnd (nameLenAt memory offset)))

def kernelName (content : Buffer) (offset : ℕ) : List UInt8 :=
  cstr (slice content (offset + 8) (nameLenAt content offset))

theorem walkLoop_of_chain (hchain : Chain memory offset places) {w : Walker (List (List UInt8))}
    (hnext : w.offset + w.recLen = offset) (hoffset : w.offset ≤ 1023) (hrec : w.recLen < 2 ^ 16) :
    ∃ w', walkLoop memory visit (places.length + 2) w = some w' ∧
      w'.state = w.state ++ (places ++ [1024]).map (userName memory) ∧
      w'.reads = w.reads ++ (places ++ [1024]).flatMap (readsAt memory) := by
  induction hchain generalizing w with
  | done =>
    refine ⟨w.round memory visit, ?_, ?_, ?_⟩
    · rw [List.length_nil, walkLoop, if_pos hoffset, walkLoop, if_neg]
      change ¬ w.offset + w.recLen ≤ 1023
      omega
    · simp only [Walker.round, hnext, visit, text_nameAt]
      rfl
    · simp only [Walker.round, hnext]
      rfl
  | @entry offset places room rest ih =>
    have hle := rest.le
    have hlow : (w.round memory visit).recLen = recLenAt memory offset := by
      simp only [Walker.round, hnext]
      omega
    obtain ⟨w', hloop, hstate, hreads⟩ := ih (w := w.round memory visit)
      (by rw [hlow]; exact congrArg (· + _) hnext) (by change w.offset + w.recLen ≤ 1023; omega)
      (by rw [hlow]; exact le16_lt _ _)
    refine ⟨w', ?_, ?_, ?_⟩
    · rw [List.length_cons, Nat.add_right_comm, walkLoop, if_pos hoffset]
      exact hloop
    · rw [hstate]
      simp only [Walker.round, hnext, visit, text_nameAt, List.cons_append, List.map_cons,
        List.append_assoc, List.nil_append]
      rfl
    · rw [hreads]
      simp only [Walker.round, hnext, List.cons_append, List.flatMap_cons, List.append_assoc]

theorem walkLoop_add {σ : Type} {work : Buffer → σ → σ} {rounds : ℕ} {w r : Walker σ} (k : ℕ)
    (h : walkLoop memory work rounds w = some r) : walkLoop memory work (rounds + k) w = some r := by
  induction rounds generalizing w with
  | zero => simp [walkLoop] at h
  | succ rounds ih =>
    rw [Nat.add_right_comm, walkLoop]
    rw [walkLoop] at h
    by_cases hle : w.offset ≤ 1023
    · rw [if_pos hle] at h ⊢
      exact ih h
    · rwa [if_neg hle] at h ⊢

end Names

section Directory

variable {node : Ext2.Node} {disk memory junk mem : Buffer} {places : List ℕ}

theorem visited_of_chain (hchain : Chain memory 0 places) (name : Buffer) :
    ∃ w, visited memory name (places.length + 2) = some w ∧
      w.state = (places ++ [1024]).map (userName memory) ∧
      w.reads = (places ++ [1024]).flatMap (readsAt memory) :=
  walkLoop_of_chain hchain (w := ⟨0, 0, name, [], []⟩) rfl (Nat.zero_le _) (Nat.two_pow_pos _)

theorem not_agrees (hchain : Chain memory 0 places) (name : Buffer) :
    ¬ Agrees node junk memory name := by
  rintro ⟨rounds, w, rounds', hvisited, -, hinside⟩
  obtain ⟨w', hvisited', -, hreads⟩ := visited_of_chain hchain name
  have hmore := walkLoop_add (places.length + 2) hvisited
  rw [Nat.add_comm] at hmore
  obtain rfl := Option.some.inj (hmore.symm.trans (walkLoop_add rounds hvisited'))
  have hlast := hinside (1028, 2) (by rw [hreads]; simp [readsAt])
  exact absurd hlast (by decide)

theorem kernelNames_of_chain {content : Buffer} (hdir : node.data.isDir)
    (h : (node.io junk).Holds content) (hsize : node.data.sizeLow = 1024)
    (hchain : Chain content 0 places) :
    kernelNames node junk (places.length + 1) = some (.ok (places.map (kernelName content))) := by
  rw [kernelNames, Ext2.Node.entries, if_pos hdir, entriesLoop_of_chain h hsize hchain]
  refine congrArg (fun names => some (Except.ok names)) ?_
  rw [List.foldl_append_eq_append, List.nil_append, ← List.flatMap_def, ← List.map_eq_flatMap]
  rfl

theorem kernelName_congr {content content' : Buffer} (hchain : Chain content 0 places)
    (hsame : ∀ i < 1024, content' i = content i) :
    places.map (kernelName content') = places.map (kernelName content) := by
  refine List.map_congr_left fun p hp => ?_
  have hfits := hchain.fits p hp
  have hname : nameLenAt content' p = nameLenAt content p :=
    congrArg UInt8.toNat (hsame _ (by omega))
  rw [kernelName, kernelName, hname]
  exact congrArg cstr (slice_congr fun i hi => hsame _ (by omega))

theorem readdir_spec {f : ActualFile} (hnode : f.node = some node) (h : node.Stored disk)
    (hsize : node.data.sizeLow = 1024) {buffer : ℕ} (hbuffer : 0x80000000 ≤ buffer) :
    readdir f junk buffer 0 mem = .ok (1024, f.seek 1024,
      put buffer 1024 (fun i => (node.contents disk).getD i 0) mem) := by
  have hlen : (node.contents disk).length = 1024 := h.length_contents.trans hsize
  have hread := ActualFile.read_spec (f := f.seek 0) hnode
    ((ActualFile.contains_of_stored h).delivers 0 1024) (by rw [hlen]; decide) hbuffer junk mem
  simp only [hlen, ActualFile.seek_totalOffset, ActualFile.seek_seek, Nat.sub_zero, Nat.zero_add,
    min_self] at hread
  exact hread

/-- For every directory of one block the loops end, with the kernel's names, those of 255 bytes cut,
and one that stands behind the buffer: they never agree with the kernel. -/
theorem listing_never_agrees {f : ActualFile} (hnode : f.node = some node) (hdir : node.data.isDir)
    (h : node.Stored disk) (hsize : node.data.sizeLow = 1024)
    (hchain : Chain (fun i => (node.contents disk).getD i 0) 0 places) {buffer : ℕ}
    (hbuffer : 0x80000000 ≤ buffer) (junk mem name : Buffer) :
    ∃ mem', readdir f junk buffer 0 mem = .ok (1024, f.seek 1024, mem') ∧
      kernelNames node junk (places.length + 1) =
        some (.ok (places.map (kernelName fun i => mem' (buffer + i)))) ∧
      (∃ w, visited (fun i => mem' (buffer + i)) name (places.length + 2) = some w ∧
        w.state = (places ++ [1024]).map (userName fun i => mem' (buffer + i)) ∧
        w.reads = (places ++ [1024]).flatMap (readsAt fun i => mem' (buffer + i))) ∧
      ¬ Agrees node junk (fun i => mem' (buffer + i)) name := by
  refine ⟨_, readdir_spec hnode h hsize hbuffer, ?_⟩
  generalize hmemory : (fun i => put buffer 1024 (fun i => (node.contents disk).getD i 0) mem
    (buffer + i)) = memory
  have hsame : ∀ i < 1024, memory i = (node.contents disk).getD i 0 := by
    intro i hi
    rw [← hmemory]
    exact put_of_mem _ _ hi
  obtain ⟨content, hholds, hcontent⟩ := h.exists_content junk
  have hsame' : ∀ i < 1024, content i = (node.contents disk).getD i 0 := by
    intro i hi
    rw [List.getD_eq_getElem?_getD, hcontent i (by omega), Option.getD_some]
  have hwalk : Chain memory 0 places := hchain.congr hsame
  have hkernel := kernelNames_of_chain hdir hholds hsize (hchain.congr hsame')
  rw [kernelName_congr hwalk fun i hi => (hsame' i hi).trans (hsame i hi).symm] at hkernel
  exact ⟨hkernel, visited_of_chain hwalk name, not_agrees hwalk name⟩

end Directory

def emptyDirBytes : List UInt8 :=
  [2, 0, 0, 0, 12, 0, 1, 2, 46, 0, 0, 0] ++ [2, 0, 0, 0, 244, 3, 2, 2, 46, 46] ++
    List.replicate 1002 0

def emptyDir : Ext2.Node := .oneBlock Ext2.Node.dirData emptyDirBytes

theorem emptyDir_stored : emptyDir.Stored (Ext2.Node.oneBlock.disk emptyDirBytes) :=
  Ext2.Node.oneBlock_stored (by decide) (by decide) (by decide) emptyDirBytes

theorem emptyDir_chain : Chain (fun i => emptyDirBytes.getD i 0) 0 [0, 12] :=
  .entry (by decide) (.entry (by decide) .done)

theorem emptyDirBytes_length : emptyDirBytes.length = 1024 := by
  simp only [emptyDirBytes, List.length_append, List.length_replicate, List.length_cons, List.length_nil]

theorem emptyDir_contents :
    emptyDir.contents (Ext2.Node.oneBlock.disk emptyDirBytes) = emptyDirBytes :=
  Ext2.Node.oneBlock_contents (by decide) (by decide) (by decide) emptyDirBytes_length

/-- The loops visit a third name. -/
theorem emptyDir_visited : ∃ mem', readdir ⟨some emptyDir, 0⟩ (fun _ => 7) 0x80000000 0 (fun _ => 9) =
      .ok (1024, ⟨some emptyDir, 1024⟩, mem') ∧
    ∃ w, visited (fun i => mem' (0x80000000 + i)) (fun _ => 7) 4 = some w ∧ w.state.length = 3 := by
  obtain ⟨mem', hread, -, ⟨w, hvisited, hstate, -⟩, -⟩ := listing_never_agrees
    (f := ⟨some emptyDir, 0⟩) rfl (by decide) emptyDir_stored (by decide)
    (by rw [emptyDir_contents]; exact emptyDir_chain) le_rfl (fun _ => 7) (fun _ => 9) fun _ => 7
  exact ⟨mem', hread, w, hvisited, by rw [hstate]; rfl⟩

/-- On that block, with nines behind it, the loops do not agree with the kernel. -/
theorem emptyDir_not_agrees :
    ¬ Agrees emptyDir (fun _ => 7) (fun i => emptyDirBytes.getD i 9) fun _ => 7 := by
  refine not_agrees (emptyDir_chain.congr fun i hi => ?_) _
  rw [← emptyDirBytes_length] at hi
  rw [List.getD_eq_getElem _ _ hi, List.getD_eq_getElem _ _ hi]

end OsShell.Programs
