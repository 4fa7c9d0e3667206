import OsShell.Exec.AllOrNothing
import OsShell.Exec.Stack

/-!
# The image in memory

Every segment of a program is two stores, its part of the file and the zeros behind
it. One segment leaves its bytes and nothing else; a row of segments that do not
overlap leaves the bytes of all of them, by induction on the row, as a later
segment does not reach into an earlier one. What lies in a block that cannot be read
is never loaded.
-/

namespace OsShell.Exec

open Bytes Stopping Vmm

namespace ProgramHeader

variable (phdr : ProgramHeader)

/-- The address is one of the segment's memory; headers of other types have none. -/
def Covers (a : ℕ) : Prop :=
  phdr.type = 1 ∧ phdr.vaddr ≤ a ∧ a < phdr.vaddr + phdr.memsz

structure Loadable (c : Config) (f : File) : Prop where
  present : ∀ k < phdr.filesz, phdr.offset + k < f.bytes.length
  filesz_le : phdr.filesz ≤ phdr.memsz
  zeros_lt : phdr.memsz - phdr.filesz < 2 ^ 31
  clear : Exec.Clear c phdr.vaddr phdr.memsz

structure Loaded (f : File) (mem : Buffer) : Prop where
  file : ∀ k < phdr.filesz, f.bytes[phdr.offset + k]? = some (mem (phdr.vaddr + k))
  zeros : ∀ k, phdr.filesz ≤ k → k < phdr.memsz → mem (phdr.vaddr + k) = 0

end ProgramHeader

variable {c : Config} {f : File} {phdr : ProgramHeader} {mem mem' : Buffer}

theorem ProgramHeader.Loaded.congr (h : phdr.Loaded f mem) (htype : phdr.type = 1)
    (hle : phdr.filesz ≤ phdr.memsz) (heq : ∀ a, phdr.Covers a → mem' a = mem a) :
    phdr.Loaded f mem' := by
  have hsame : ∀ k < phdr.memsz, mem' (phdr.vaddr + k) = mem (phdr.vaddr + k) := fun k hk =>
    heq _ ⟨htype, by omega, by omega⟩
  refine ⟨fun k hk => ?_, fun k hk hk' => ?_⟩
  · rw [hsame k (by omega)]
    exact h.file k hk
  · rw [hsame k hk']
    exact h.zeros k hk hk'

section Segment

variable (h : phdr.Loadable c f)
include h

theorem fits_of_loadable : phdr.filesz = 0 ∨ phdr.offset + phdr.filesz ≤ f.bytes.length := by
  by_cases hzero : phdr.filesz = 0
  · exact .inl hzero
  · have := h.present (phdr.filesz - 1) (by omega)
    exact .inr (by omega)

theorem length_filePart : ((f.bytes.drop phdr.offset).take phdr.filesz).length = phdr.filesz := by
  have := fits_of_loadable h
  rw [List.length_take, List.length_drop]
  omega

variable (htype : phdr.type = 1)
include htype

theorem parts_touches {st : Store} (hst : st ∈ f.parts phdr) {a : ℕ} (ha : st.Touches a) :
    phdr.Covers a := by
  have hle := h.filesz_le
  have hclear := h.clear
  unfold Clear at hclear
  rw [File.parts, if_pos htype, List.mem_cons, List.mem_singleton] at hst
  obtain ⟨i, hi, rfl⟩ := ha
  refine ⟨htype, ?_⟩
  rcases hst with rfl | rfl
  · rw [length_filePart h] at hi
    simp only
    omega
  · rw [List.length_replicate] at hi
    simp only
    omega

theorem parts_loaded (mem : Buffer) : phdr.Loaded f ((f.parts phdr).foldl Store.apply mem) := by
  have hle := h.filesz_le
  have hclear := h.clear
  have hlen := length_filePart h
  unfold Clear at hclear
  rw [File.parts, if_pos htype, List.foldl_cons, List.foldl_cons, List.foldl_nil]
  constructor
  · intro k hk
    -- the zeros do not reach back
    have hzeros : ¬ Store.Touches ⟨(phdr.vaddr + phdr.filesz) % 2 ^ 32,
        List.replicate (phdr.memsz - phdr.filesz) 0⟩ (phdr.vaddr + k) := by
      rintro ⟨i, hi, heq⟩
      rw [List.length_replicate] at hi
      simp only at heq
      omega
    have hk' : k < ((f.bytes.drop phdr.offset).take phdr.filesz).length := by omega
    have hfit : phdr.vaddr + ((f.bytes.drop phdr.offset).take phdr.filesz).length ≤ 2 ^ 32 := by
      omega
    have hbyte : Store.apply mem ⟨phdr.vaddr, (f.bytes.drop phdr.offset).take phdr.filesz⟩
        (phdr.vaddr + k) = ((f.bytes.drop phdr.offset).take phdr.filesz)[k] :=
      Store.apply_of_mem hfit hk'
    rw [Store.apply_of_not_touches (by omega) hzeros, hbyte, List.getElem_take,
      List.getElem_drop, List.getElem?_eq_getElem]
  · intro k hk hk'
    have hwrap : (phdr.vaddr + phdr.filesz) % 2 ^ 32 = phdr.vaddr + phdr.filesz := by omega
    have hadd : phdr.vaddr + k = phdr.vaddr + phdr.filesz + (k - phdr.filesz) := by omega
    have hlt : k - phdr.filesz < (List.replicate (phdr.memsz - phdr.filesz) (0 : UInt8)).length := by
      rw [List.length_replicate]
      omega
    have hfit : phdr.vaddr + phdr.filesz +
        (List.replicate (phdr.memsz - phdr.filesz) (0 : UInt8)).length ≤ 2 ^ 32 := by
      rw [List.length_replicate]
      omega
    rw [hwrap, hadd]
    exact (Store.apply_of_mem hfit hlt).trans (List.getElem_replicate _)

end Segment

theorem segments_loaded {phdrs : List ProgramHeader}
    (hload : ∀ phdr ∈ phdrs, phdr.type = 1 → phdr.Loadable c f)
    (hdisjoint : phdrs.Pairwise fun p q => ∀ a, ¬ (p.Covers a ∧ q.Covers a)) (mem : Buffer) :
    (∀ phdr ∈ phdrs, phdr.type = 1 →
      phdr.Loaded f ((phdrs.flatMap f.parts).foldl Store.apply mem)) ∧
    ∀ a < 2 ^ 32, (∀ phdr ∈ phdrs, ¬ phdr.Covers a) →
      (phdrs.flatMap f.parts).foldl Store.apply mem a = mem a := by
  induction phdrs generalizing mem with
  | nil => exact ⟨fun _ h => absurd h List.not_mem_nil, fun _ _ _ => rfl⟩
  | cons p phdrs ih =>
    obtain ⟨hfirst, hrest⟩ := List.pairwise_cons.mp hdisjoint
    have hall := ih (fun q hq => hload q (List.mem_cons_of_mem p hq)) hrest
      ((f.parts p).foldl Store.apply mem)
    rw [List.flatMap_cons, List.foldl_append]
    refine ⟨fun phdr hphdr htype => ?_, fun a ha hno => ?_⟩
    · rcases List.mem_cons.mp hphdr with rfl | hphdr
      · have hp := hload phdr List.mem_cons_self htype
        refine (parts_loaded hp htype mem).congr htype hp.filesz_le fun a hcovers => ?_
        have hlt : a < 2 ^ 32 := by
          have hclear := hp.clear
          have hrange := hcovers.2
          unfold Clear at hclear
          omega
        exact hall.2 a hlt fun q hq hq' => hfirst q hq a ⟨hcovers, hq'⟩
      · exact hall.1 phdr hphdr htype
    · rw [hall.2 a ha fun q hq => hno q (List.mem_cons_of_mem p hq)]
      refine Store.foldl_apply ha fun st hst htouches => ?_
      by_cases htype : p.type = 1
      · exact hno p List.mem_cons_self
          (parts_touches (hload p List.mem_cons_self htype) htype hst htouches)
      · rw [File.parts, if_neg htype] at hst
        exact absurd hst List.not_mem_nil

structure File.Loadable (c : Config) (f : File) : Prop where
  header : 52 ≤ f.bytes.length
  headers : ∀ i < f.header.phnum, f.headerOffset i + 32 ≤ f.bytes.length
  segments : ∀ i < f.header.phnum, (f.programHeader i).type = 1 → (f.programHeader i).Loadable c f
  disjoint : ∀ i < f.header.phnum, ∀ j < f.header.phnum, i ≠ j → ∀ a,
    ¬ ((f.programHeader i).Covers a ∧ (f.programHeader j).Covers a)

theorem image_leaves (h : f.Loadable c) (mem : Buffer) :
    (∀ i < f.header.phnum, (f.programHeader i).type = 1 →
      (f.programHeader i).Loaded f (f.image.foldl Store.apply mem)) ∧
    ∀ a < 2 ^ 32, (∀ i < f.header.phnum, ¬ (f.programHeader i).Covers a) →
      f.image.foldl Store.apply mem a = mem a := by
  have hstores : f.image = ((List.range f.header.phnum).map f.programHeader).flatMap f.parts := by
    rw [File.image, List.flatMap_map]
  have hdisjoint : ((List.range f.header.phnum).map f.programHeader).Pairwise
      fun p q => ∀ a, ¬ (p.Covers a ∧ q.Covers a) := by
    rw [List.pairwise_map]
    refine List.pairwise_lt_range.imp_of_mem fun {i j} hi hj hlt => ?_
    exact h.disjoint i (List.mem_range.mp hi) j (List.mem_range.mp hj) hlt.ne
  obtain ⟨hloaded, hframe⟩ := segments_loaded (c := c) (f := f) (fun phdr hphdr htype => by
    obtain ⟨i, hi, rfl⟩ := List.mem_map.mp hphdr
    exact h.segments i (List.mem_range.mp hi) htype) hdisjoint mem
  rw [← hstores] at hloaded hframe
  refine ⟨fun i hi => ?_, fun a ha hno => hframe a ha ?_⟩
  · exact hloaded _ (List.mem_map_of_mem (List.mem_range.mpr hi))
  · intro phdr hphdr
    obtain ⟨i, hi, rfl⟩ := List.mem_map.mp hphdr
    exact hno i (List.mem_range.mp hi)

/-- `ELF::load` where `free` frames were left, and `done` has been touched since. -/
def ELF.loadWithin (c : Config) (free : ℕ) (done : List ℕ) (file : File) : Writing ℕ :=
  if framesNeeded c (done ++ addresses (load file).1) ≤ free then load file
  else ((load file).1, .error (.panic "no more frames"))

/-- `load` returns the entry and leaves the bytes of every segment in memory; all other bytes are as
they were. -/
structure File.Loads (c : Config) (free : ℕ) (done : List ℕ) (f : File) (mem : Buffer) : Prop where
  entry : (ELF.loadWithin c free done f).2 = .ok f.header.entry
  segments : ∀ i < f.header.phnum, (f.programHeader i).type = 1 →
    (f.programHeader i).Loaded f ((ELF.loadWithin c free done f).1.foldl Store.apply mem)
  frame : ∀ a < 2 ^ 32, (∀ i < f.header.phnum, ¬ (f.programHeader i).Covers a) →
    (ELF.loadWithin c free done f).1.foldl Store.apply mem a = mem a

theorem load_loadable (h : f.Loadable c) (hintact : f.Intact) :
    ELF.load f = (f.image, .ok f.header.entry) :=
  load_eq h.header h.headers hintact fun i hi => segment_eq fun htype =>
    have hseg := h.segments i hi htype
    ⟨fits_of_loadable hseg, hseg.filesz_le, hseg.zeros_lt, hintact.segments i hi htype⟩

/-- A file is loaded as it describes where it can be read and there are frames for it; of the files
that are read as they are, no others are. -/
theorem load_image_iff (h : f.Loadable c) (free : ℕ) (done : List ℕ) (mem : Buffer) :
    (f.Intact ∧ framesNeeded c (done ++ addresses f.image) ≤ free → f.Loads c free done mem) ∧
    (f.Truthful → f.Loads c free done mem →
      f.Intact ∧ framesNeeded c (done ++ addresses f.image) ≤ free) := by
  constructor
  · rintro ⟨hintact, hframes⟩
    have hload : ELF.loadWithin c free done f = (f.image, .ok f.header.entry) := by
      rw [ELF.loadWithin, load_loadable h hintact, if_pos hframes]
    obtain ⟨hsegments, hframe⟩ := image_leaves h mem
    exact ⟨by rw [hload], by rwa [hload], by rwa [hload]⟩
  · intro htruthful hloads
    have hentry := hloads.entry
    unfold ELF.loadWithin at hentry
    split_ifs at hentry with hframes
    have hintact := Intact.of_load htruthful hentry fun i hi htype =>
      fits_of_loadable (h.segments i hi htype)
    rw [load_loadable h hintact] at hframes
    exact ⟨hintact, hframes⟩

theorem oneSegment_loadable : (oneSegment 0x80000000).Loadable apics := by
  have hphnum : (oneSegment 0x80000000).header.phnum = 1 := by decide +kernel
  refine ⟨by decide, fun i hi => ?_, fun i hi _ => ?_, fun i hi j hj hne => by omega⟩
  · obtain rfl : i = 0 := by omega
    decide +kernel
  · obtain rfl : i = 0 := by omega
    exact ⟨by decide +kernel, by decide +kernel, by decide +kernel, by decide +kernel⟩

/-- The segment of four bytes is in memory, and the byte behind it is as it was. -/
theorem oneSegment_image :
    ((oneSegment 0x80000000).programHeader 0).Loaded (oneSegment 0x80000000)
      ((ELF.loadWithin apics 2 [] (oneSegment 0x80000000)).1.foldl Store.apply fun _ => 9) ∧
    (ELF.loadWithin apics 2 [] (oneSegment 0x80000000)).1.foldl Store.apply (fun _ => 9)
      0x80000004 = 9 := by
  have hphnum : (oneSegment 0x80000000).header.phnum = 1 := by decide +kernel
  have hback : ∀ offset n, (oneSegment 0x80000000).Back offset n := fun offset n i _ =>
    File.stored_readsBack _
  obtain ⟨-, hloaded, hframe⟩ := (load_image_iff oneSegment_loadable 2 [] fun _ => 9).1
    ⟨⟨hback _ _, fun i _ => hback _ _, fun i _ _ => hback _ _⟩, by decide +kernel⟩
  refine ⟨hloaded 0 (by omega) (by decide +kernel), hframe _ (by decide) fun i hi hcovers => ?_⟩
  obtain rfl : i = 0 := by omega
  exact absurd hcovers.2 (by decide +kernel)

/-- The segment lies in a hole; and a segment finds no frame for its page. -/
theorem withHole_load :
    (withHole.Loadable apics ∧ ¬ withHole.Loads apics 4 [] fun _ => 9) ∧
      (oneSegment 0x80000000).Loadable apics ∧
        ¬ (oneSegment 0x80000000).Loads apics 1 [] fun _ => 9 := by
  have hphnum : withHole.header.phnum = 1 := by decide +kernel
  have hloadable : withHole.Loadable apics := by
    refine ⟨by decide +kernel, fun i hi => ?_, fun i hi _ => ?_, fun i hi j hj hne => by omega⟩
    · obtain rfl : i = 0 := by omega
      decide +kernel
    · obtain rfl : i = 0 := by omega
      exact ⟨by decide +kernel, by decide +kernel, by decide +kernel, by decide +kernel⟩
  refine ⟨⟨hloadable, fun h => ?_⟩, oneSegment_loadable, fun h => ?_⟩
  · exact absurd h.entry (by decide +kernel)
  · exact absurd h.entry (by decide +kernel)

end OsShell.Exec
