import OsShell.Ext2.Entries
import OsShell.Ext2.Tree

/-!
# Looking a name up

A directory on the disk is a chain of entries, and one with the number 0 is an
unused slot that keeps the name of the file that it stood for. `find` goes through
the whole chain and takes the number of the last entry with the name, a live one or
not.
-/

namespace OsShell.Ext2

open Bytes Stopping

/-- An entry as it stands on the disk; `pad` fills it up to its length. -/
structure Entry where
  inode : ℕ
  fileType : UInt8
  name : List UInt8
  pad : List UInt8
  inode_lt : inode < 2 ^ 32
  name_lt : name.length < 2 ^ 8
  nulFree : 0 ∉ name
  recLen_lt : 8 + name.length + pad.length < 2 ^ 16
  aligned : 4 ∣ 8 + name.length + pad.length

namespace Entry

def recLen (e : Entry) : ℕ := 8 + e.name.length + e.pad.length

def bytes (e : Entry) : List UInt8 :=
  word e.inode ++ ([.ofNat e.recLen, .ofNat (e.recLen / 2 ^ 8), .ofNat e.name.length, e.fileType] ++
    (e.name ++ e.pad))

def pair (e : Entry) : ℕ × List UInt8 := (e.inode, e.name)

theorem length_bytes (e : Entry) : e.bytes.length = e.recLen := by
  simp only [bytes, recLen, List.length_append, length_word, List.length_cons, List.length_nil]
  omega

end Entry

structure Directory (node : Node) (disk : Buffer) (entries : List Entry) : Prop where
  isDir : node.data.isDir
  stored : node.Stored disk
  contents : node.contents disk = entries.flatMap Entry.bytes
  distinct : (entries.filter (·.inode ≠ 0)).Pairwise fun e d => e.name ≠ d.name

def liveNumber (entries : List Entry) (name : List UInt8) : ℕ :=
  ((entries.find? fun e => e.inode ≠ 0 ∧ e.name = name).map Entry.inode).getD 0

def Unshadowed (entries : List Entry) (name : List UInt8) : Prop :=
  entries.Pairwise fun e s => e.inode ≠ 0 → e.name = name → s.name = name → s.inode ≠ 0

instance (entries : List Entry) (name : List UInt8) : Decidable (Unshadowed entries name) :=
  inferInstanceAs (Decidable (List.Pairwise _ _))

/-! ## What the loop reads -/

theorem streq_iff {a b : List UInt8} (ha : 0 ∉ a) (hb : 0 ∉ b) : Node.streq a b = true ↔ a = b := by
  induction a generalizing b with
  | nil =>
    cases b with
    | nil => simp [Node.streq]
    | cons y b =>
      have hy : y ≠ 0 := fun h => hb (h ▸ List.mem_cons_self)
      simp [Node.streq, hy]
  | cons x a ih =>
    have hx : x ≠ 0 := fun h => ha (h ▸ List.mem_cons_self)
    rw [Node.streq]
    cases b with
    | nil => simp [hx]
    | cons y b =>
      have htail := ih (fun h => ha (List.mem_cons_of_mem _ h)) fun h => hb (List.mem_cons_of_mem y h)
      by_cases hxy : x = y
      · simp [hxy ▸ hx, hxy, htail]
      · simp [hxy]

namespace Node

variable {node : Node} {disk content junk : Buffer} {offset : ℕ}

theorem readEntry_of_spells (h : (node.io junk).Holds content) {e : Entry}
    (hspells : Spells content offset e.bytes) (hfit : offset + e.recLen ≤ node.data.sizeLow) :
    node.readEntry junk offset = .ok ⟨e.inode, e.recLen, e.name⟩ := by
  obtain ⟨hinode, hrest⟩ := spells_append.mp hspells
  obtain ⟨hfields, hname⟩ := spells_append.mp hrest
  obtain ⟨hname, -⟩ := spells_append.mp hname
  simp only [length_word, List.length_cons, List.length_nil, Nat.reduceAdd] at hfields hname
  have hlow : content (offset + 4) = .ofNat e.recLen := hfields 0 (by simp)
  have hhigh : content (offset + 4 + 1) = .ofNat (e.recLen / 2 ^ 8) := hfields 1 (by simp)
  have hlength : content (offset + 4 + 2) = .ofNat e.name.length := hfields 2 (by simp)
  have hcount : (content (offset + 6)).toNat = e.name.length := by
    rw [show offset + 6 = offset + 4 + 2 by omega, hlength, UInt8.toNat_ofNat',
      Nat.mod_eq_of_lt e.name_lt]
  have hrecLen : le16 content (offset + 4) = e.recLen := by
    have hlt := e.recLen_lt
    rw [le16, hlow, hhigh, UInt8.toNat_ofNat', UInt8.toNat_ofNat']
    rw [Entry.recLen]
    omega
  have hslice : slice content (offset + 8) e.name.length = e.name := by
    refine List.ext_getElem (length_slice ..) fun i hi hi' => ?_
    simp only [slice, List.getElem_map, List.getElem_range]
    exact hname i hi'
  rw [readEntry_of_holds h (by rw [hcount]; unfold Entry.recLen at hfit; omega), hcount, hrecLen,
    hslice, le32_of_spells hinode e.inode_lt]

theorem entriesLoop_of_spells {σ : Type} {work : ℕ → List UInt8 → σ → σ}
    (h : (node.io junk).Holds content) {es : List Entry} {s : σ}
    (hspells : Spells content offset (es.flatMap Entry.bytes))
    (hstop : offset + (es.flatMap Entry.bytes).length = node.data.sizeLow) :
    node.entriesLoop junk work (es.length + 1) offset s =
      some (.ok (es.foldl (fun s e => work e.inode e.name s) s)) := by
  have hsize : node.data.sizeLow < 2 ^ 32 := le32_lt _ _
  induction es generalizing offset s with
  | nil =>
    rw [List.flatMap_nil, List.length_nil, Nat.add_zero] at hstop
    rw [List.length_nil, entriesLoop, if_neg (by omega)]
    rfl
  | cons e es ih =>
    rw [List.flatMap_cons] at hspells hstop
    rw [List.length_append, e.length_bytes] at hstop
    obtain ⟨hfirst, hrest⟩ := spells_append.mp hspells
    rw [e.length_bytes] at hrest
    have hpos : 0 < e.recLen := by
      unfold Entry.recLen
      omega
    rw [List.length_cons, entriesLoop, if_pos (by omega),
      readEntry_of_spells h hfirst (by omega)]
    simp only [List.foldl_cons]
    rw [Nat.mod_eq_of_lt (by omega)]
    exact ih hrest (by omega)

theorem find_eq_lookup {es : List Entry} (D : Directory node disk es) {name : List UInt8}
    (hname : 0 ∉ name) :
    node.find junk name (es.length + 1) = some (.ok (Tree.lookup (es.map Entry.pair) name)) := by
  obtain ⟨content, hholds, hcontent⟩ := D.stored.exists_content junk
  have hlen := D.stored.length_contents
  have hspells : Spells content 0 (es.flatMap Entry.bytes) := by
    rw [← D.contents]
    intro i hi
    have := hcontent i (by omega)
    rw [List.getElem?_eq_getElem hi] at this
    rw [Nat.zero_add, Option.some.inj this]
  rw [find, entries, if_pos D.isDir, entriesLoop_of_spells hholds hspells (by
    rw [← D.contents, Nat.zero_add, hlen]), Tree.lookup, List.foldl_map]
  congr 3
  funext out e
  have hstreq := streq_iff hname e.nulFree
  by_cases heq : name = e.name
  · rw [if_pos (hstreq.mpr heq), Entry.pair, if_pos heq]
  · rw [if_neg (hstreq.not.mpr heq), Entry.pair, if_neg heq]

end Node

/-! ## Which entry counts -/

section Lookup

variable {es : List Entry} {name : List UInt8}

theorem lookup_of_unused (h : ∀ e ∈ es, e.name = name → e.inode = 0) (out : ℕ) :
    (es.map Entry.pair).foldl (fun out e => if name = e.2 then e.1 else out) out =
      if ∃ e ∈ es, e.name = name then 0 else out := by
  induction es generalizing out with
  | nil => simp
  | cons e es ih =>
    rw [List.map_cons, List.foldl_cons, ih fun d hd => h d (List.mem_cons_of_mem e hd)]
    have hzero := h e List.mem_cons_self
    by_cases hname : e.name = name
    · simp [Entry.pair, hname, hzero hname]
    · simp [Entry.pair, hname, Ne.symm hname]

theorem lookup_append {pre post : List Entry} {e : Entry}
    (hname : e.name = name) (hpost : ∀ d ∈ post, d.name = name → d.inode = 0) :
    Tree.lookup ((pre ++ e :: post).map Entry.pair) name =
      if ∃ d ∈ post, d.name = name then 0 else e.inode := by
  rw [Tree.lookup, List.map_append, List.foldl_append, List.map_cons, List.foldl_cons,
    lookup_of_unused hpost]
  simp [Entry.pair, hname]

theorem unshadowed_of_unused (h : ∀ e ∈ es, e.name = name → e.inode = 0) : Unshadowed es name := by
  refine List.pairwise_iff_forall_sublist.mpr fun {e s} hsub hlive hname => ?_
  have he := hsub.subset (List.mem_cons_self (a := e))
  exact absurd (h e he hname) hlive

theorem unshadowed_append {pre post : List Entry} {e : Entry} (hlive : e.inode ≠ 0)
    (hname : e.name = name) (hpre : ∀ d ∈ pre, d.name = name → d.inode = 0)
    (hpost : ∀ d ∈ post, d.name = name → d.inode = 0) :
    Unshadowed (pre ++ e :: post) name ↔ ¬ ∃ d ∈ post, d.name = name := by
  rw [Unshadowed, List.pairwise_append, List.pairwise_cons]
  constructor
  · rintro ⟨-, ⟨hbehind, -⟩, -⟩ ⟨d, hd, hdname⟩
    exact hbehind d hd hlive hname hdname (hpost d hd hdname)
  · intro hno
    refine ⟨unshadowed_of_unused hpre, ⟨fun d hd _ _ hdname => absurd ⟨d, hd, hdname⟩ hno,
      unshadowed_of_unused hpost⟩, fun d hd _ _ hdlive hdname => absurd (hpre d hd hdname) hdlive⟩

theorem live_cases (hdistinct : (es.filter (·.inode ≠ 0)).Pairwise fun e d => e.name ≠ d.name)
    (name : List UInt8) :
    (liveNumber es name = 0 ∧ ∀ e ∈ es, e.name = name → e.inode = 0) ∨
    ∃ pre e post, es = pre ++ e :: post ∧ e.inode ≠ 0 ∧ e.name = name ∧
      liveNumber es name = e.inode ∧ (∀ d ∈ pre, d.name = name → d.inode = 0) ∧
      ∀ d ∈ post, d.name = name → d.inode = 0 := by
  unfold liveNumber
  cases hfind : es.find? fun e => e.inode ≠ 0 ∧ e.name = name with
  | none =>
    refine Or.inl ⟨rfl, fun e he hname => ?_⟩
    have := List.find?_eq_none.mp hfind e he
    simpa [hname] using this
  | some e =>
    obtain ⟨hlive, pre, post, rfl, hpre⟩ := List.find?_eq_some_iff_append.mp hfind
    simp only [ne_eq, decide_eq_true_eq] at hlive
    refine Or.inr ⟨pre, e, post, rfl, hlive.1, hlive.2, rfl, fun d hd hname => ?_,
      fun d hd hname => ?_⟩
    · simpa [hname] using hpre d hd
    · by_contra hdlive
      rw [List.filter_append, List.filter_cons_of_pos (by simpa using hlive.1)] at hdistinct
      have := (List.pairwise_cons.mp (List.pairwise_append.mp hdistinct).2.1).1 d
        (List.mem_filter.mpr ⟨hd, by simpa using hdlive⟩)
      exact this (hlive.2.trans hname.symm)

theorem lookup_eq_live_iff
    (hdistinct : (es.filter (·.inode ≠ 0)).Pairwise fun e d => e.name ≠ d.name)
    (name : List UInt8) :
    Tree.lookup (es.map Entry.pair) name = liveNumber es name ↔ Unshadowed es name := by
  rcases live_cases hdistinct name with
    ⟨hnumber, hunused⟩ | ⟨pre, e, post, rfl, hlive, hname, hnumber, hpre, hpost⟩
  · rw [hnumber, Tree.lookup, lookup_of_unused hunused, ite_self]
    exact iff_of_true rfl (unshadowed_of_unused hunused)
  · rw [hnumber, lookup_append hname hpost, unshadowed_append hlive hname hpre hpost]
    by_cases hslot : ∃ d ∈ post, d.name = name
    · rw [if_pos hslot]
      exact iff_of_false (Ne.symm hlive) (not_not.mpr hslot)
    · rw [if_neg hslot]
      exact iff_of_true rfl hslot

end Lookup

/-- The number of the live entry is found if and only if no unused slot with its name stands
behind it. -/
theorem find_live_iff {node : Node} {disk : Buffer} {es : List Entry} (D : Directory node disk es)
    (junk : Buffer) {name : List UInt8} (hname : 0 ∉ name) :
    (∃ rounds, node.find junk name rounds = some (.ok (liveNumber es name))) ↔
      Unshadowed es name := by
  rw [← lookup_eq_live_iff D.distinct name]
  constructor
  · rintro ⟨rounds, hfind⟩
    exact Except.ok.inj (Node.find_unique (Node.find_eq_lookup D hname) hfind)
  · intro heq
    exact ⟨_, heq ▸ Node.find_eq_lookup D hname⟩

def liveA : Entry := ⟨12, 1, [97], [0, 0, 0], by decide, by decide, by decide, by decide, by decide⟩

def staleA : Entry :=
  ⟨0, 1, [97], List.replicate 1003 0, by decide, by decide, by decide, by decide +kernel, by decide +kernel⟩

def liveB : Entry :=
  ⟨13, 1, [98], List.replicate 1003 0, by decide, by decide, by decide, by decide +kernel, by decide +kernel⟩

theorem oneBlock_directory {es : List Entry} (hlen : (es.flatMap Entry.bytes).length = 1024)
    (hdistinct : (es.filter (·.inode ≠ 0)).Pairwise fun e d => e.name ≠ d.name) :
    Directory (Node.oneBlock Node.dirData (es.flatMap Entry.bytes))
      (Node.oneBlock.disk (es.flatMap Entry.bytes)) es where
  isDir := show Node.dirData.isDir by decide
  stored := Node.oneBlock_stored (by decide) (by decide) (by decide) _
  contents := Node.oneBlock_contents (by decide) (by decide) (by decide) (by rw [hlen]; decide)
  distinct := hdistinct

/-- Among live entries the name is found. -/
theorem liveA_found : ∃ rounds, (Node.oneBlock Node.dirData ([liveA, liveB].flatMap Entry.bytes)).find
    (fun _ => 7) [97] rounds = some (.ok (liveNumber [liveA, liveB] [97])) := by
  have hlen : ([liveA, liveB].flatMap Entry.bytes).length = 1024 := by decide +kernel
  have D := oneBlock_directory hlen (by decide)
  exact (find_live_iff D (fun _ => 7) (by decide)).mpr (by decide)

/-- The file is there, and is not found: the slot behind it has its name. -/
theorem liveA_hidden :
    Directory (Node.oneBlock Node.dirData ([liveA, staleA].flatMap Entry.bytes))
      (Node.oneBlock.disk ([liveA, staleA].flatMap Entry.bytes)) [liveA, staleA] ∧
    liveNumber [liveA, staleA] [97] = 12 ∧
    (Node.oneBlock Node.dirData ([liveA, staleA].flatMap Entry.bytes)).find (fun _ => 7) [97] 3 =
      some (.ok 0) := by
  have hlen : ([liveA, staleA].flatMap Entry.bytes).length = 1024 := by decide +kernel
  have D := oneBlock_directory hlen (by decide)
  exact ⟨D, by decide, Node.find_eq_lookup D (by decide)⟩

end OsShell.Ext2
