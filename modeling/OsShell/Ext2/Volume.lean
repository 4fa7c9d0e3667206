import OsShell.Ext2.Mount
import OsShell.Ext2.Symlink
import OsShell.Process.ActualFile

/-!
# The file system as a tree

An image of a tree of i-nodes is a disk on which every node of the tree is laid out
under its number. The mounted file system then answers as the tree does: a path leads
to the i-node of the same number, or to the same failure. A volume is a tree with the
contents of its files, and these are read where the disk has them as well.
-/

namespace OsShell.Ext2

open Bytes Stopping

/-- The i-node is laid out as the tree has it. An entry without a name is one that was never used. -/
def Represents (disk : Buffer) (node : Node) : Inode → Prop
  | .file => node.data.isFile
  | .dir entries => ∃ es : List Entry, Directory node disk es ∧
      (es.map Entry.pair).filter (·.2 ≠ []) = entries
  | .symlink target => Symlink node disk target

structure Image (g : Geometry) (ide : Ide) (disk : Buffer) (t : Tree) : Prop where
  drive : ide.io.Holds disk
  formatted : Formatted g disk
  number : ∀ n, (t.inode n).isSome → 0 < n ∧ n ≤ g.inodes
  represents : ∀ n i junk, t.inode n = some i → Represents disk (g.node ide disk junk n) i

structure Volume extends Tree where
  contents : ℕ → List UInt8

structure Filled (g : Geometry) (ide : Ide) (disk : Buffer) (v : Volume) : Prop extends
    Image g ide disk v.toTree where
  files : ∀ n junk, v.inode n = some .file → (g.node ide disk junk n).RegularFile disk ∧
    (g.node ide disk junk n).contents disk = v.contents n

variable {g : Geometry} {ide : Ide} {disk junk : Buffer} {t : Tree} {v : Volume} {fs : Ext2}

/-! ## One lookup -/

theorem lookup_named {entries : List (ℕ × List UInt8)} {name : List UInt8} (hname : name ≠ []) :
    Tree.lookup (entries.filter (·.2 ≠ [])) name = Tree.lookup entries name := by
  unfold Tree.lookup
  generalize 0 = out
  induction entries generalizing out with
  | nil => rfl
  | cons e entries ih =>
    by_cases he : e.2 = []
    · rw [List.filter_cons_of_neg (by simpa using he), List.foldl_cons, if_neg (he ▸ hname), ih]
    · rw [List.filter_cons_of_pos (by simpa using he), List.foldl_cons, List.foldl_cons, ih]

theorem Directory.length_lt {node : Node} {es : List Entry} (D : Directory node disk es) :
    es.length < 2 ^ 32 := by
  have hlen : ∀ es : List Entry, es.length ≤ (es.flatMap Entry.bytes).length := by
    intro es
    induction es with
    | nil => exact le_rfl
    | cons e es ih =>
      have := e.length_bytes
      rw [List.flatMap_cons, List.length_append, List.length_cons, this, Entry.recLen]
      omega
  have hsize : node.data.sizeLow < 2 ^ 32 := le32_lt _ _
  have hle := hlen es
  rw [← D.contents, D.stored.length_contents] at hle
  omega

theorem NodeData.not_isDir_of_isFile {data : NodeData} (h : data.isFile) : ¬ data.isDir := by
  have hfile : data.getType = 8 := h
  intro hdir
  have hdir : data.getType = 4 := hdir
  omega

theorem Symlink.not_isDir {node : Node} {target : List UInt8} (h : Symlink node disk target) :
    ¬ node.data.isDir := by
  have hlink : node.data.getType = 0xa := h.isSymlink
  intro hdir
  have hdir : node.data.getType = 4 := hdir
  omega

theorem Represents.find_eq {node : Node} {entries : List (ℕ × List UInt8)}
    (h : Represents disk node (.dir entries)) (junk : Buffer) {rounds : ℕ} (hrounds : 2 ^ 32 ≤ rounds)
    {name : List UInt8} (hnul : 0 ∉ name) (hne : name ≠ []) :
    node.data.isDir ∧ node.find junk name rounds = some (.ok (Tree.lookup entries name)) := by
  obtain ⟨es, D, rfl⟩ := h
  obtain ⟨k, rfl⟩ := Nat.exists_eq_add_of_le (show es.length + 1 ≤ rounds by
    have := D.length_lt
    omega)
  refine ⟨D.isDir, ?_⟩
  rw [Node.find_add k (Node.find_eq_lookup D hnul), lookup_named hne]

theorem Represents.findEntry {node : Node} {n : ℕ} {i : Inode} (h : Represents disk node i)
    (hinode : t.inode n = some i) {rounds : ℕ} (hrounds : 2 ^ 32 ≤ rounds) {name : List UInt8}
    (hnul : 0 ∉ name) (hne : name ≠ []) :
    (fs.calls junk rounds).findEntry node name = t.findEntry n name := by
  have hnone : ¬ node.data.isDir →
      (fs.calls junk rounds).findEntry node name = .error (.assertion "is_dir()") := by
    intro hdir
    change (node.find junk name rounds).getD _ = _
    rw [Node.find, Node.entries, if_neg hdir]
    rfl
  unfold Tree.findEntry
  rw [hinode]
  cases i with
  | file => exact hnone (NodeData.not_isDir_of_isFile h)
  | symlink target => exact hnone (Symlink.not_isDir h)
  | dir entries =>
    change (node.find junk name rounds).getD _ = _
    rw [(h.find_eq junk hrounds hnul hne).2]
    rfl

/-! ## Walks side by side -/

namespace Calls

variable {M N : Type} {c : Calls M} {d : Calls N} {f : M → N} {P : M → Prop}

theorem walk_map {words : List (List UInt8)} (hfind : ∀ m, P m → ∀ word ∈ words,
      d.findEntry (f m) word = c.findEntry m word)
    (hget : ∀ m, P m → ∀ word ∈ words, ∀ number, c.findEntry m word = .ok number → number ≠ 0 →
      ∃ m', c.getNode number = .ok m' ∧ d.getNode number = .ok (f m') ∧ P m')
    {m : M} (hm : P m) :
    d.walk (some (f m)) words = (c.walk (some m) words).map (Option.map f) := by
  induction words generalizing m with
  | nil => rfl
  | cons word words ih =>
    have hnext := fun {m} => ih (m := m) (fun m hm w hw => hfind m hm w (List.mem_cons_of_mem _ hw))
      fun m hm w hw => hget m hm w (List.mem_cons_of_mem _ hw)
    rw [walk, walk, step, step, hfind m hm word List.mem_cons_self]
    by_cases hlen : word.length ≤ 256
    case neg =>
      rw [assert, if_neg hlen]
      rfl
    rw [assert_true hlen, ok_bind, ok_bind]
    cases hnumber : c.findEntry m word with
    | error e => rfl
    | ok number =>
      rw [ok_bind, ok_bind]
      by_cases hzero : number = 0
      · rw [if_pos hzero, if_pos hzero]
        cases words with
        | nil => rfl
        | cons word' words => rfl
      · obtain ⟨m', hc, hd, hm'⟩ := hget m hm word List.mem_cons_self number hnumber hzero
        rw [if_neg hzero, if_neg hzero, hc, hd]
        exact hnext hm'

end Calls

theorem mem_of_mem_splitOn {path word : List UInt8} {c : UInt8} (hword : word ∈ path.splitOn slash)
    (hc : c ∈ word) : c ∈ path := by
  induction path generalizing word with
  | nil =>
    obtain rfl : word = [] := by simpa using hword
    exact hc
  | cons x path ih =>
    rw [List.splitOn_cons_eq_if_modifyHead] at hword
    split at hword
    · rcases List.mem_cons.mp hword with rfl | hword
      · exact absurd hc List.not_mem_nil
      · exact List.mem_cons_of_mem _ (ih hword hc)
    · obtain ⟨first, rest, hsplit⟩ := List.exists_cons_of_ne_nil (List.splitOn_ne_nil slash path)
      rw [hsplit, List.modifyHead_cons] at hword
      rcases List.mem_cons.mp hword with rfl | hword
      · rcases List.mem_cons.mp hc with rfl | hc
        · exact List.mem_cons_self
        · exact List.mem_cons_of_mem _ (ih (hsplit ▸ List.mem_cons_self) hc)
      · exact List.mem_cons_of_mem _ (ih (hsplit ▸ List.mem_cons_of_mem _ hword) hc)

theorem mem_parts {path part : List UInt8} (hpath : 0 ∉ path) (h : part ∈ parts path) :
    0 ∉ part ∧ part ≠ [] := by
  obtain ⟨hmem, hne⟩ := List.mem_filter.mp h
  exact ⟨fun h0 => hpath (mem_of_mem_splitOn hmem h0), of_decide_eq_true hne⟩

theorem find_eq_tree (h : Image g ide disk t) (hfs : Mounted g ide fs) {rounds : ℕ}
    (hrounds : 2 ^ 32 ≤ rounds) (part : Buffer) {n : ℕ} (hn : (t.inode n).isSome)
    {path : List UInt8} (hpath : 0 ∉ path) :
    fs.find junk rounds part (some (g.node ide disk junk n)) path =
      (t.find n path).map (Option.map (g.node ide disk junk)) := by
  rw [t.find_eq_calls n hpath part, Ext2.find, Calls.find, Calls.findLoop_eq_walk _ hpath,
    Calls.find, Calls.findLoop_eq_walk _ hpath, List.drop_zero]
  refine Calls.walk_map (P := fun m => (t.inode m).isSome) (fun m hm word hword => ?_)
    (fun m hm word hword number hnumber hzero => ?_) hn
  · obtain ⟨i, hi⟩ := Option.isSome_iff_exists.mp hm
    obtain ⟨hnul, hne⟩ := mem_parts hpath hword
    exact (h.represents m i junk hi).findEntry hi hrounds hnul hne
  · have hsome : (t.inode number).isSome := by
      change t.findEntry m word = .ok number at hnumber
      unfold Tree.findEntry at hnumber
      split at hnumber
      · rename_i entries hdir
        obtain rfl := Except.ok.inj hnumber
        exact t.isSome_lookup hdir hzero
      · cases hnumber
    obtain ⟨hpos, hle⟩ := h.number number hsome
    exact ⟨number, if_pos hsome, hfs.getNode h.drive junk hpos hle, hsome⟩

theorem walkable_of_resolves (h : Image g ide disk t) (hfs : Mounted g ide fs) {rounds : ℕ}
    (hrounds : 2 ^ 32 ≤ rounds) {path : List UInt8} (hpath : 0 ∉ path) {n m : ℕ}
    (hn : (t.inode n).isSome) (hresolves : Resolves t n (parts path) (some m)) :
    fs.Walkable junk rounds (some (g.node ide disk junk n)) path := by
  have hparts : ∀ part ∈ parts path, 0 ∉ part ∧ part ≠ [] := fun part => mem_parts hpath
  suffices hall : (∀ part ∈ parts path, part.length ≤ 256) ∧ ∀ node part,
      fs.LooksUp junk rounds (some (g.node ide disk junk n)) path node part → node.data.isDir ∧
        ∃ number, node.find junk part rounds = some (.ok number) ∧
          (number = 0 ∨ ∃ m, fs.getNode junk number = .ok m) from
    ⟨hpath, hall.1, fun node part hlook => (hall.2 node part hlook).1,
      fun node part hlook _ => (hall.2 node part hlook).2⟩
  unfold LooksUp
  generalize parts path = words at hparts hresolves ⊢
  generalize hr : some m = r at hresolves
  induction hresolves with
  | done n =>
    refine ⟨fun part hpart => absurd hpart List.not_mem_nil, ?_⟩
    rintro node part ⟨pre, post, heq, -⟩
    exact absurd heq.symm (List.append_ne_nil_of_right_ne_nil pre (List.cons_ne_nil part post))
  | missing => cases hr
  | @step n entries part rest r hdir hlen hfound hrest ih =>
    obtain ⟨hnul, hne⟩ := hparts part List.mem_cons_self
    obtain ⟨hisDir, hfind⟩ := (h.represents n _ junk hdir).find_eq junk hrounds hnul hne
    have hsome := t.isSome_lookup hdir hfound
    obtain ⟨hpos, hle⟩ := h.number _ hsome
    have hget := hfs.getNode h.drive junk hpos hle
    have hstep : (fs.calls junk rounds).step (some (g.node ide disk junk n)) part =
        .ok (some (g.node ide disk junk (Tree.lookup entries part))) := by
      change ((g.node ide disk junk n).find junk part rounds).getD _ >>= _ = _
      rw [hfind, Option.getD_some, ok_bind, if_neg hfound]
      change fs.getNode junk _ >>= _ = _
      rw [hget]
      rfl
    obtain ⟨hshort, hall⟩ := ih hsome (fun w hw => hparts w (List.mem_cons_of_mem part hw)) hr
    refine ⟨List.forall_mem_cons.mpr ⟨hlen, hshort⟩, fun node word hlook => ?_⟩
    rcases (Calls.lookUp_cons _ hstep).mp hlook with ⟨hnode, rfl⟩ | hlater
    · obtain rfl := Option.some.inj hnode
      exact ⟨hisDir, _, hfind, .inr ⟨_, hget⟩⟩
    · exact hall node word hlater

section Example

def smallProgram : List UInt8 :=
  [0x7F, 69, 76, 70, 1, 1, 1, 0, 0, 0, 0, 0, 0, 0, 0, 0, 2, 0, 3, 0, 1, 0, 0, 0, 0, 0, 0, 0x80,
    52, 0, 0, 0, 0, 0, 0, 0, 0, 0, 0, 0, 52, 0, 32, 0, 1, 0, 0, 0, 0, 0, 0, 0,
    1, 0, 0, 0, 0, 0, 0, 0, 0, 0, 0, 0x80, 0, 0, 0, 0, 4, 0, 0, 0, 4, 0, 0, 0, 7, 0, 0, 0, 0, 0, 0, 0]

/-- The root directory: itself, a program "a" and a link "b" to it. -/
def rootEntries : List Entry :=
  [⟨2, 2, [46], [0, 0, 0], by decide, by decide, by decide, by decide, by decide⟩, liveA,
    ⟨13, 7, [98], List.replicate 991 0, liveB.inode_lt, liveB.name_lt, liveB.nulFree,
      by decide +kernel, by decide +kernel⟩]

/-- A disk of 64 blocks: the root directory in block 20, and the program in block 21. -/
def smallDisk (i : ℕ) : UInt8 :=
  if i = 1024 then 16
  else if i = 1028 then 64
  else if i = 1057 then 32
  else if i = 1064 then 16
  else if i = 1112 then 128
  else if i = 2056 then 5
  else if 5248 ≤ i ∧ i < 5376 then Node.dirData.bits (i - 5248)
  else if i = 6529 then 0x80
  else if i = 6532 then 84
  else if i = 6556 then 2
  else if i = 6568 then 21
  else if i = 6657 then 0xa0
  else if i = 6660 then 1
  else if i = 6696 then 97
  else if 20480 ≤ i ∧ i < 21504 then (rootEntries.flatMap Entry.bytes).getD (i - 20480) 0
  else if 21504 ≤ i ∧ i < 21588 then smallProgram.getD (i - 21504) 0
  else 0

def smallDrive : Ide :=
  ⟨fun b p buffer => .ok (put p 512 (fun i => smallDisk (b * 512 + i)) buffer)⟩

def smallGeometry : Geometry where
  logBlockSize := 0
  inodes := 16
  blocks := 64
  blocksPerGroup := 8192
  inodesPerGroup := 16
  inodeSize := 128
  table _ := 5
  logBlockSize_le := by decide
  blocksPerGroup_pos := by decide
  blocksPerGroup_le := by decide
  inodesPerGroup_pos := by decide
  inodeSize_le := by decide
  root_le := by decide
  inodes_le := by decide
  reach := by decide
  groups_le := by decide
  table_le := by decide

def smallInode : ℕ → Option Inode
  | 2 => some (.dir [(2, [46]), (12, [97]), (13, [98])])
  | 12 => some .file
  | 13 => some (.symlink [97])
  | _ => none

theorem smallInode_cases {n : ℕ} {i : Inode} (h : smallInode n = some i) :
    (n = 2 ∧ i = .dir [(2, [46]), (12, [97]), (13, [98])]) ∨ (n = 12 ∧ i = .file) ∨
      (n = 13 ∧ i = .symlink [97]) := by
  unfold smallInode at h
  split at h
  · exact Or.inl ⟨rfl, (Option.some.inj h).symm⟩
  · exact Or.inr (Or.inl ⟨rfl, (Option.some.inj h).symm⟩)
  · exact Or.inr (Or.inr ⟨rfl, (Option.some.inj h).symm⟩)
  · cases h

theorem smallInode_dir {n : ℕ} {entries : List (ℕ × List UInt8)}
    (h : smallInode n = some (.dir entries)) : entries = [(2, [46]), (12, [97]), (13, [98])] := by
  rcases smallInode_cases h with ⟨-, hi⟩ | ⟨-, hi⟩ | ⟨-, hi⟩
  · exact Inode.dir.inj hi
  · cases hi
  · cases hi

def smallVolume : Volume where
  inode := smallInode
  root := ⟨_, rfl⟩
  closed n entries h := by
    rw [smallInode_dir h]
    decide
  names n entries h := by
    rw [smallInode_dir h]
    decide
  contents n := if n = 12 then smallProgram else []

theorem smallDrive_holds : smallDrive.io.Holds smallDisk :=
  ⟨show 0 < 512 by decide, show 2 ^ 32 - 1 < 2 ^ 32 by decide, fun _ _ _ _ => rfl⟩

theorem small_stored {node : Node} {b : ℕ} (hide : node.ide = smallDrive)
    (hblock : node.blockSize = 1024) (hsize : node.data.sizeLow ≤ 1024)
    (hsectors : 2 ≤ node.data.nSectors) (hdirect : node.data.direct 0 = b) (hb : 0 < b ∧ b < 64) :
    node.Stored smallDisk ∧
      node.contents smallDisk = slice smallDisk (b * 1024) node.data.sizeLow := by
  have hfirst : (node.pointers smallDisk)[0]? = some b :=
    (Node.getElem?_pointers_direct node smallDisk (by decide)).trans (congrArg some hdirect)
  have hstored : node.Stored smallDisk := by
    refine ⟨hide ▸ smallDrive_holds, ⟨0, hblock⟩, ?_, ?_, fun h => ?_, fun i hi => ?_⟩
    · rw [hblock]
      omega
    · rw [hblock]
      omega
    · rw [hblock] at h
      omega
    · rw [hblock] at hi
      obtain rfl : i = 0 := by omega
      exact ⟨b, hfirst, by omega, by rw [Node.Reachable, hblock]; omega⟩
  refine ⟨hstored, List.ext_getElem? fun i => ?_⟩
  by_cases hi : i < node.data.sizeLow
  · have hdiv : i / node.blockSize = 0 := Nat.div_eq_of_lt (by omega)
    rw [hstored.getElem?_contents hi (hdiv ▸ hfirst), getElem?_slice _ _ hi,
      Nat.mod_eq_of_lt (by omega), hblock]
  · rw [List.getElem?_eq_none (by rw [hstored.length_contents]; omega),
      List.getElem?_eq_none (by rw [length_slice]; omega)]

theorem small_fields (n : ℕ) (junk : Buffer) :
    (smallGeometry.node smallDrive smallDisk junk n).data.getType =
        le16 smallDisk (smallGeometry.slot n) / 2 ^ 12 ∧
      ∀ p, p + 4 ≤ 128 → le32 (smallGeometry.node smallDrive smallDisk junk n).data.bits p =
        le32 smallDisk (smallGeometry.slot n + p) := by
  constructor
  · rw [Geometry.node, NodeData.getType, NodeData.mode, le16_put (by decide), le16_shift,
      Nat.add_zero]
  · intro p hp
    rw [Geometry.node, le32_put hp, le32_shift]

theorem smallDisk_root {i : ℕ} (hi : i < 1024) :
    smallDisk (20480 + i) = (rootEntries.flatMap Entry.bytes).getD i 0 := by
  have hne : ∀ k, k < 20480 → 20480 + i ≠ k := fun k hk => by omega
  have hbits : ¬ (5248 ≤ 20480 + i ∧ 20480 + i < 5376) := by omega
  unfold smallDisk
  simp only [hne _ (by decide : 1024 < 20480), hne _ (by decide : 1028 < 20480),
    hne _ (by decide : 1057 < 20480), hne _ (by decide : 1064 < 20480),
    hne _ (by decide : 1112 < 20480), hne _ (by decide : 2056 < 20480), hbits,
    hne _ (by decide : 6529 < 20480), hne _ (by decide : 6532 < 20480),
    hne _ (by decide : 6556 < 20480), hne _ (by decide : 6568 < 20480),
    hne _ (by decide : 6657 < 20480), hne _ (by decide : 6660 < 20480),
    hne _ (by decide : 6696 < 20480), if_false]
  rw [if_pos (by omega), Nat.add_sub_cancel_left]

theorem smallDisk_rootSlice :
    slice smallDisk (20 * 1024) 1024 = rootEntries.flatMap Entry.bytes := by
  have hlength : (rootEntries.flatMap Entry.bytes).length = 1024 := by decide +kernel
  refine List.ext_getElem? fun i => ?_
  by_cases hi : i < 1024
  · rw [getElem?_slice _ _ hi, smallDisk_root hi, List.getD_eq_getElem _ _ (by omega),
      List.getElem?_eq_getElem]
  · rw [List.getElem?_eq_none (by rw [length_slice]; omega), List.getElem?_eq_none (by omega)]

theorem smallImage : Filled smallGeometry smallDrive smallDisk smallVolume := by
  have hfile : ∀ junk, (smallGeometry.node smallDrive smallDisk junk 12).RegularFile smallDisk ∧
      (smallGeometry.node smallDrive smallDisk junk 12).contents smallDisk = smallProgram := by
    intro junk
    obtain ⟨htype, hword⟩ := small_fields 12 junk
    have hsize : _ = 84 := (hword 4 (by decide)).trans (by decide +kernel)
    have hsectors : _ = 2 := (hword 28 (by decide)).trans (by decide +kernel)
    have hdirect : _ = 21 := (hword 40 (by decide)).trans (by decide +kernel)
    obtain ⟨hstored, hcontents⟩ := small_stored rfl rfl (hsize.le.trans (by decide)) hsectors.ge
      hdirect (by decide)
    refine ⟨⟨hstored, htype.trans (by decide +kernel)⟩, ?_⟩
    rw [hcontents, NodeData.sizeLow, hsize]
    decide +kernel
  refine ⟨⟨smallDrive_holds, ⟨by decide, by decide, by decide, by decide, by decide, by decide,
    by decide⟩, fun n hn => ?_, fun n i junk hi => ?_⟩, fun n junk hi => ?_⟩
  · obtain ⟨i, hi⟩ := Option.isSome_iff_exists.mp hn
    rcases smallInode_cases hi with ⟨rfl, -⟩ | ⟨rfl, -⟩ | ⟨rfl, -⟩ <;> decide
  · obtain ⟨htype, hword⟩ := small_fields n junk
    rcases smallInode_cases hi with ⟨rfl, rfl⟩ | ⟨rfl, rfl⟩ | ⟨rfl, rfl⟩
    · have hsize : _ = 1024 := (hword 4 (by decide)).trans (by decide +kernel)
      have hsectors : _ = 2 := (hword 28 (by decide)).trans (by decide +kernel)
      have hdirect : _ = 20 := (hword 40 (by decide)).trans (by decide +kernel)
      obtain ⟨hstored, hcontents⟩ := small_stored rfl rfl hsize.le hsectors.ge hdirect (by decide)
      refine ⟨rootEntries, ⟨htype.trans (by decide +kernel), hstored, ?_, by decide⟩, by decide⟩
      rw [hcontents, NodeData.sizeLow, hsize]
      exact smallDisk_rootSlice
    · exact (hfile junk).1.isFile
    · have hsize : _ = 1 := (hword 4 (by decide)).trans (by decide +kernel)
      refine ⟨htype.trans (by decide +kernel), hsize, fun _ j hj => ?_, fun h => absurd h (by decide)⟩
      obtain rfl : j = 0 := by simpa using hj
      have hput := put_of_mem (p := 0) (fun i => smallDisk (smallGeometry.slot 13 + i)) junk
        (show 40 < 128 by decide)
      rw [Nat.zero_add] at hput
      exact hput.trans (show smallDisk (6656 + 40) = 97 by decide +kernel)
  · rcases smallInode_cases hi with ⟨-, hdir⟩ | ⟨rfl, -⟩ | ⟨-, hlink⟩
    · cases hdir
    · exact hfile junk
    · cases hlink

end Example

/-! ## The mounted file system -/

/-- Mounting finds the tree, with its root: from every node and for every path the walk through the
file system has the result of the walk through the tree. -/
theorem mount_find_eq (h : Image g ide disk t) (junk : Buffer) :
    ∃ fs, mount ide junk = .ok (fs, g.node ide disk junk 2) ∧
      ∀ rounds part n path, 2 ^ 32 ≤ rounds → (t.inode n).isSome → 0 ∉ path →
        fs.find junk rounds part (some (g.node ide disk junk n)) path =
          (t.find n path).map (Option.map (g.node ide disk junk)) := by
  obtain ⟨fs, hmount, hfs⟩ := mount_of_formatted h.formatted h.drive junk
  exact ⟨fs, hmount, fun rounds part n path hrounds hn hpath =>
    find_eq_tree h hfs hrounds part hn hpath⟩

theorem smallImage_find : ∃ fs, mount smallDrive (fun _ => 7) =
      .ok (fs, smallGeometry.node smallDrive smallDisk (fun _ => 7) 2) ∧
    ∀ rounds part n path, 2 ^ 32 ≤ rounds → (smallVolume.inode n).isSome → 0 ∉ path →
      fs.find (fun _ => 7) rounds part
          (some (smallGeometry.node smallDrive smallDisk (fun _ => 7) n)) path =
        (smallVolume.find n path).map
          (Option.map (smallGeometry.node smallDrive smallDisk fun _ => 7)) :=
  mount_find_eq smallImage.toImage fun _ => 7

theorem root_isSome (t : Tree) : (t.inode 2).isSome := by
  obtain ⟨entries, hroot⟩ := t.root
  exact Option.isSome_iff_exists.mpr ⟨_, hroot⟩

/-- The walk along "/.//a": its components are looked up in the root and again in the root. -/
theorem smallImage_lookups : ∃ (fs : Ext2) (root node : Node),
    mount smallDrive (fun _ => 7) = .ok (fs, root) ∧
      fs.lookups (fun _ => 7) (2 ^ 32) (some root) [slash, 46, slash, slash, 97] = .ok (some node) := by
  obtain ⟨fs, hmount, hfs⟩ := mount_of_formatted smallImage.formatted smallImage.drive fun _ => 7
  have hpath : 0 ∉ [slash, 46, slash, slash, 97] := by decide
  have hfound : smallVolume.find 2 [slash, 46, slash, slash, 97] = .ok (some 12) := by
    rw [Tree.find_eq_walk]
    decide
  have hwalkable : fs.Walkable (fun _ => 7) (2 ^ 32)
      (some (smallGeometry.node smallDrive smallDisk (fun _ => 7) 2)) _ :=
    walkable_of_resolves smallImage.toImage hfs le_rfl hpath (root_isSome smallVolume.toTree)
      (smallVolume.find_ok_iff.mp hfound)
  have htree : fs.find (fun _ => 7) (2 ^ 32) (fun _ => 9)
      (some (smallGeometry.node smallDrive smallDisk (fun _ => 7) 2)) _ = _ :=
    find_eq_tree smallImage.toImage hfs le_rfl (fun _ => 9) (root_isSome smallVolume.toTree) hpath
  rw [hfound] at htree
  exact ⟨fs, _, _, hmount, (find_correct hwalkable fun _ => 9).1.symm.trans htree⟩

/-- A file that a path from the root leads to is read as the tree has it, in whatever pieces. -/
theorem read_by_path (h : Filled g ide disk v) (junk part : Buffer) {rounds : ℕ}
    (hrounds : 2 ^ 32 ≤ rounds) {path : List UInt8} (hpath : 0 ∉ path) {n : ℕ}
    (hfound : v.find 2 path = .ok (some n)) (hfile : v.inode n = some .file)
    (hsmall : (v.contents n).length < 2 ^ 31) (k : ℕ) (calls : List ActualFile.Call)
    (hbuffer : ∀ call ∈ calls, 0x80000000 ≤ call.buffer) :
    ∃ (fs : Ext2) (root node : Node) (pieces : List (List UInt8)), mount ide junk = .ok (fs, root) ∧
      fs.find junk rounds part (some root) path = .ok (some node) ∧ node.data.isFile ∧
      ((⟨some node, 0⟩ : ActualFile).seek k).reads calls =
        .ok (pieces.map fun piece => ((piece.length : ℤ), piece),
          (⟨some node, 0⟩ : ActualFile).seek (k + pieces.flatten.length)) ∧
      pieces.flatten = ((v.contents n).drop k).take (calls.map ActualFile.Call.n).sum := by
  obtain ⟨fs, hmount, hfs⟩ := mount_of_formatted h.formatted h.drive junk
  obtain ⟨hregular, hcontents⟩ := h.files n junk hfile
  have hcontains := ActualFile.contains_of_stored hregular.toStored
  rw [hcontents] at hcontains
  have hfind : fs.find junk rounds part (some (g.node ide disk junk 2)) path = _ :=
    find_eq_tree h.toImage hfs hrounds part (root_isSome v.toTree) hpath
  rw [hfound] at hfind
  have hpieces := ActualFile.flatten_splitLengths_eq_take ((v.contents n).drop k)
    (calls.map ActualFile.Call.n)
  have hreads := ActualFile.reads_eq (f := (⟨some (g.node ide disk junk n), 0⟩ : ActualFile).seek k)
    rfl calls (hcontains.delivers _ _) hsmall hbuffer
  have hlength : (((v.contents n).drop k).take (calls.map ActualFile.Call.n).sum).length =
      min (calls.map ActualFile.Call.n).sum ((v.contents n).length - k) := by
    rw [List.length_take, List.length_drop]
  refine ⟨fs, _, g.node ide disk junk n, (calls.map ActualFile.Call.n).splitLengths
    ((v.contents n).drop k), hmount, hfind, hregular.isFile, ?_, hpieces⟩
  rw [hpieces, hlength]
  exact hreads

theorem smallImage_read : ∃ (fs : Ext2) (root node : Node) (pieces : List (List UInt8)),
    mount smallDrive (fun _ => 7) = .ok (fs, root) ∧
      fs.find (fun _ => 7) (2 ^ 32) (fun _ => 9) (some root) [slash, 97] = .ok (some node) ∧
      node.data.isFile ∧
      ((⟨some node, 0⟩ : ActualFile).seek 1).reads [⟨fun _ => 7, fun _ => 0, 0x80000000, 3⟩] =
        .ok (pieces.map fun piece => ((piece.length : ℤ), piece),
          (⟨some node, 0⟩ : ActualFile).seek (1 + pieces.flatten.length)) ∧
      pieces.flatten = ((smallVolume.contents 12).drop 1).take 3 := by
  have hfound : smallVolume.find 2 [slash, 97] = .ok (some 12) := by
    rw [Tree.find_eq_walk]
    decide
  exact read_by_path smallImage (fun _ => 7) (fun _ => 9) le_rfl (by decide) hfound rfl (by decide) 1
    [⟨fun _ => 7, fun _ => 0, 0x80000000, 3⟩] (by simp)

end OsShell.Ext2
