import OsShell.Exec.Reads

/-!
# Where a program is loaded

`ELF::load` takes the addresses of the program headers as they are. Which of its
stores happen is decided byte by byte: the kernel's pages and those of the APICs are
always there, a page of the private half is made when it is touched, as long as there
are frames, and at any other address the process ends. What is written stays in the
private half and off the APIC pages exactly when the first address for which that
does not hold is never reached, or is not there.
-/

namespace OsShell.Exec

open Bytes Stopping Vmm

def Private (c : Config) (a : ℕ) : Prop :=
  0x80000000 ≤ a ∧ a < 2 ^ 32 ∧ ¬ (c.ioAPIC ≤ a ∧ a < c.ioAPIC + 4096) ∧
    ¬ (c.localAPIC ≤ a ∧ a < c.localAPIC + 4096)

instance (c : Config) (a : ℕ) : Decidable (Private c a) := inferInstanceAs (Decidable (_ ∧ _))

def Clear (c : Config) (start n : ℕ) : Prop :=
  n = 0 ∨ 0x80000000 ≤ start ∧ start + n ≤ 2 ^ 32 ∧
    (start + n ≤ c.ioAPIC ∨ c.ioAPIC + 4096 ≤ start) ∧
    (start + n ≤ c.localAPIC ∨ c.localAPIC + 4096 ≤ start)

instance (c : Config) (start n : ℕ) : Decidable (Clear c start n) :=
  inferInstanceAs (Decidable (_ ∨ _))

theorem apart_of_forall {start n page : ℕ} (hn : 0 < n) (hfit : start + n ≤ 2 ^ 32)
    (h : ∀ i < n, ¬ (page ≤ (start + i) % 2 ^ 32 ∧ (start + i) % 2 ^ 32 < page + 4096)) :
    start + n ≤ page ∨ page + 4096 ≤ start := by
  by_contra hmeet
  have hlt : max page start - start < n := by omega
  have hmod : (start + (max page start - start)) % 2 ^ 32 = max page start := by
    rw [Nat.mod_eq_of_lt (by omega)]
    omega
  have := h _ hlt
  rw [hmod] at this
  omega

theorem clear_iff {start n : ℕ} (hstart : start < 2 ^ 32) :
    (∀ i < n, Private c ((start + i) % 2 ^ 32)) ↔ Clear c start n := by
  constructor
  · intro h
    by_cases hn : n = 0
    · exact Or.inl hn
    right
    have hlow : 0x80000000 ≤ start := by
      have := (h 0 (by omega)).1
      rwa [Nat.add_zero, Nat.mod_eq_of_lt hstart] at this
    have hfit : start + n ≤ 2 ^ 32 := by
      -- a range that wraps around writes to address zero
      by_contra hwrap
      have := (h (2 ^ 32 - start) (by omega)).1
      rw [show start + (2 ^ 32 - start) = 2 ^ 32 by omega, Nat.mod_self] at this
      omega
    exact ⟨hlow, hfit, apart_of_forall (by omega) hfit fun i hi => (h i hi).2.2.1,
      apart_of_forall (by omega) hfit fun i hi => (h i hi).2.2.2⟩
  · rintro (hn | ⟨hlow, hfit, hio, hlocal⟩) i hi
    · omega
    · rw [Nat.mod_eq_of_lt (by omega)]
      unfold Private
      omega

/-! ## The addresses of a segment -/

/-- How many bytes of its file part a segment finds in the file, in front of the first that is in a
block that cannot be read. -/
def ProgramHeader.copied (file : File) (phdr : ProgramHeader) : ℕ :=
  ((List.range (min phdr.filesz (file.bytes.length - phdr.offset))).takeWhile
    fun i => file.Readable (phdr.offset + i)).length

/-- How many zeros `bzero` writes behind it; `memsz` may be below `filesz`. -/
def ProgramHeader.zeroed (phdr : ProgramHeader) : ℕ :=
  if (phdr.memsz + 2 ^ 32 - phdr.filesz) % 2 ^ 32 < 2 ^ 31 then
    (phdr.memsz + 2 ^ 32 - phdr.filesz) % 2 ^ 32
  else 0

def stretch (start n : ℕ) : List ℕ := (List.range n).map fun i => (start + i) % 2 ^ 32

def addresses (stores : List Store) : List ℕ :=
  stores.flatMap fun st => stretch st.address st.bytes.length

/-- The addresses that a loadable segment is stored to; the zeros come when its file part has been
read. -/
def ProgramHeader.targets (file : File) (phdr : ProgramHeader) : List ℕ :=
  if phdr.type = 1 then
    stretch phdr.vaddr (phdr.copied file) ++
      if file.CanRead phdr.offset phdr.filesz then
        stretch ((phdr.vaddr + phdr.filesz) % 2 ^ 32) phdr.zeroed
      else []
  else []

variable {c : Config} {file : File}

theorem mem_addresses {stores : List Store} {a : ℕ} :
    a ∈ addresses stores ↔ ∃ st ∈ stores, st.Touches a := by
  simp only [addresses, stretch, List.mem_flatMap, List.mem_map, List.mem_range, Store.Touches,
    eq_comm]

theorem addresses_append (stores stores' : List Store) :
    addresses (stores ++ stores') = addresses stores ++ addresses stores' :=
  List.flatMap_append ..

theorem addresses_andThen {α β : Type} (w : Writing α) (f : α → Writing β) :
    addresses (w.andThen f).1 = addresses w.1 ++
      match w.2 with
      | .error _ => []
      | .ok a => addresses (f a).1 := by
  obtain ⟨stores, e | a⟩ := w
  · exact (List.append_nil _).symm
  · exact addresses_append _ _

theorem segment_ok_iff {phdr : ProgramHeader} : (ELF.segment file phdr).2 = .ok () ↔
    (phdr.type = 1 → file.CanRead phdr.offset phdr.filesz) := by
  unfold ELF.segment
  by_cases htype : phdr.type = 1
  · rw [if_pos htype, imp_iff_right htype, ← File.readAll_ok_iff]
    generalize file.readAll phdr.offset phdr.filesz = r
    obtain ⟨bytes, e | cnt⟩ := r
    · exact iff_of_false nofun fun ⟨_, h⟩ => nomatch h
    · exact iff_of_true rfl ⟨cnt, rfl⟩
  · rw [if_neg htype]
    exact iff_of_true rfl fun h => absurd h htype

theorem addresses_segment (phdr : ProgramHeader) :
    addresses (ELF.segment file phdr).1 = phdr.targets file := by
  unfold ELF.segment ProgramHeader.targets
  by_cases htype : phdr.type = 1
  · have hok : (∃ cnt, (file.readAll phdr.offset phdr.filesz).2 = .ok cnt) ↔
        file.CanRead phdr.offset phdr.filesz := File.readAll_ok_iff
    have hlen := File.length_readAll (f := file) phdr.offset phdr.filesz
    rw [if_pos htype, if_pos htype, ProgramHeader.copied, ← hlen]
    generalize file.readAll phdr.offset phdr.filesz = r at hok ⊢
    obtain ⟨bytes, e | cnt⟩ := r
    · rw [if_neg fun h => nomatch (hok.mpr h).choose_spec]
      simp [Writing.andThen, addresses]
    · rw [if_pos (hok.mp ⟨cnt, rfl⟩)]
      simp [Writing.andThen, addresses, bzero, ProgramHeader.zeroed]
  · rw [if_neg htype, if_neg htype]
    rfl

namespace ELF

/-- The program headers that `load` reads: `phnum` of them, or those before the first that it cannot
read or that has a file part which it cannot read. -/
def headersFrom (file : File) (phentsize : ℕ) : ℕ → ℕ → List ProgramHeader
  | 0, _ => []
  | n + 1, hoff =>
    match file.readThing hoff 32 with
    | .error _ => []
    | .ok bits =>
      let phdr : ProgramHeader := ⟨bits⟩
      phdr :: if phdr.type = 1 → file.CanRead phdr.offset phdr.filesz then
        headersFrom file phentsize n ((hoff + phentsize) % 2 ^ 32)
      else []

def headers (file : File) : List ProgramHeader :=
  match file.readThing 0 52 with
  | .error _ => []
  | .ok bits =>
    let hdr : ElfHeader := ⟨bits⟩
    headersFrom file hdr.phentsize hdr.phnum hdr.phoff

theorem addresses_segments (phentsize n hoff : ℕ) :
    addresses (segments file phentsize n hoff).1 =
      (headersFrom file phentsize n hoff).flatMap (ProgramHeader.targets file) := by
  induction n generalizing hoff with
  | zero => rfl
  | succ n ih =>
    unfold segments headersFrom
    cases file.readThing hoff 32 with
    | error e => rfl
    | ok bits =>
      have hok : (segment file ⟨bits⟩).2 = .ok () ↔ _ := segment_ok_iff
      simp only [addresses_andThen, addresses_segment, List.flatMap_cons]
      congr 1
      cases hr : (segment file ⟨bits⟩).2 with
      | error e =>
        rw [if_neg fun h => nomatch hr.symm.trans (hok.mpr h)]
        rfl
      | ok u =>
        rw [if_pos (hok.mp hr)]
        exact ih _

theorem addresses_load : addresses (load file).1 =
    (headers file).flatMap (ProgramHeader.targets file) := by
  unfold load headers
  cases file.readThing 0 52 with
  | error e => rfl
  | ok bits => exact addresses_segments _ _ _

end ELF

/-! ## Which of them are written -/

/-- The pages of the private half, without the APIC pages. -/
def pages (c : Config) (as : List ℕ) : Finset ℕ :=
  (as.map fun a => a / 4096 * 4096).toFinset.filter fun va => ¬ isSpecial c va

/-- A frame for each page, and one for each of their tables: after `clear_private` only those of the
APIC pages are left. -/
def framesNeeded (c : Config) (as : List ℕ) : ℕ :=
  (pages c as).card + (((pages c as).image fun va => va / 2 ^ 22).filter fun pdi =>
    pdi ≠ c.ioAPIC / 2 ^ 22 ∧ pdi ≠ c.localAPIC / 2 ^ 22).card

theorem framesNeeded_append (c : Config) (as bs : List ℕ) :
    framesNeeded c as ≤ framesNeeded c (as ++ bs) := by
  have hpages : pages c as ⊆ pages c (as ++ bs) := by
    refine Finset.filter_subset_filter _ fun va hva => ?_
    rw [List.map_append, List.toFinset_append]
    exact Finset.mem_union_left _ hva
  exact Nat.add_le_add (Finset.card_le_card hpages)
    (Finset.card_le_card (Finset.filter_subset_filter _ (Finset.image_subset_image hpages)))

/-- The address is on a page that `clear_private` leaves: one of the kernel's, from the second up to
`memSize`, or of an APIC. -/
def Present (c : Config) (a : ℕ) : Prop :=
  4096 ≤ a ∧ a < 0x80000000 ∧ a / 4096 * 4096 < c.memSize ∨
    c.ioAPIC ≤ a ∧ a < c.ioAPIC + 4096 ∨ c.localAPIC ≤ a ∧ a < c.localAPIC + 4096

instance (c : Config) (a : ℕ) : Decidable (Present c a) := inferInstanceAs (Decidable (_ ∨ _))

/-- Of the addresses in their order those that are written, with `free` frames for them and for
`done`, which have been touched before. A page fault below the private half ends the process, and one
for which there are no frames stops the kernel. -/
def written (c : Config) (free : ℕ) : List ℕ → List ℕ → List ℕ
  | _, [] => []
  | done, a :: as =>
    if Present c a ∨ 0x80000000 ≤ a ∧ framesNeeded c (done ++ [a]) ≤ free then
      a :: written c free (done ++ [a]) as
    else []

/-- What `ELF::load` writes, when the stack has been built. -/
def ELF.writes (c : Config) (free : ℕ) (argv : List CString) (file : File) : List ℕ :=
  if framesNeeded c (addresses (SYS.buildStack argv).2) ≤ free then
    written c free (addresses (SYS.buildStack argv).2) (addresses (load file).1)
  else []

theorem present_of_not_private {a : ℕ} (hlow : 0x80000000 ≤ a) (hlt : a < 2 ^ 32)
    (h : ¬ Private c a) : Present c a := by
  unfold Private at h
  unfold Present
  omega

theorem written_private_iff {free : ℕ} {done as : List ℕ}
    (hdone : framesNeeded c done ≤ free) (hlt : ∀ a ∈ as, a < 2 ^ 32) :
    (∀ a ∈ written c free done as, Private c a) ↔ ∀ pre a post, as = pre ++ a :: post →
      (∀ b ∈ pre, Private c b) → framesNeeded c (done ++ pre) ≤ free →
        Private c a ∨ ¬ Present c a := by
  induction as generalizing done with
  | nil => exact iff_of_true (fun a ha => absurd ha List.not_mem_nil) fun pre a post h => by simp at h
  | cons x as ih =>
    have hx := hlt x List.mem_cons_self
    -- a private page is never one of those that are there from the beginning
    have habsent : Private c x → ¬ Present c x := fun h => by
      unfold Private at h
      unfold Present
      omega
    rw [written]
    by_cases hprivate : Private c x
    · by_cases hfits : framesNeeded c (done ++ [x]) ≤ free
      · rw [if_pos (.inr ⟨hprivate.1, hfits⟩), List.forall_mem_cons, and_iff_right hprivate,
          ih hfits fun a ha => hlt a (List.mem_cons_of_mem x ha)]
        constructor
        · rintro h (_ | ⟨y, pre⟩) a post heq hpre hframes
          · obtain ⟨rfl, -⟩ := List.cons.inj heq
            exact .inl hprivate
          · obtain ⟨rfl, htail⟩ := List.cons.inj heq
            refine h pre a post htail (fun b hb => hpre b (List.mem_cons_of_mem _ hb)) ?_
            rwa [List.append_assoc]
        · intro h pre a post heq hpre hframes
          refine h (x :: pre) a post (by rw [heq, List.cons_append])
            (List.forall_mem_cons.mpr ⟨hprivate, hpre⟩) ?_
          rwa [List.append_assoc] at hframes
      · rw [if_neg fun h => h.elim (habsent hprivate) fun h => hfits h.2]
        refine iff_of_true (fun a ha => absurd ha List.not_mem_nil) ?_
        rintro (_ | ⟨y, pre⟩) a post heq hpre hframes
        · obtain ⟨rfl, -⟩ := List.cons.inj heq
          exact .inl hprivate
        · obtain ⟨rfl, -⟩ := List.cons.inj heq
          refine absurd ((framesNeeded_append c (done ++ [x]) pre).trans ?_) hfits
          rwa [List.append_assoc]
    · by_cases hpresent : Present c x
      · rw [if_pos (.inl hpresent)]
        refine iff_of_false (fun h => hprivate (h x List.mem_cons_self)) fun h => ?_
        rcases h [] x as rfl (fun b hb => absurd hb List.not_mem_nil) (by simpa using hdone) with h | h
        · exact hprivate h
        · exact h hpresent
      · have hstop : ¬ (Present c x ∨ 0x80000000 ≤ x ∧ framesNeeded c (done ++ [x]) ≤ free) :=
          fun h => h.elim hpresent fun h => hpresent (present_of_not_private h.1 hx hprivate)
        rw [if_neg hstop]
        refine iff_of_true (fun a ha => absurd ha List.not_mem_nil) ?_
        rintro (_ | ⟨y, pre⟩) a post heq hpre hframes
        · obtain ⟨rfl, -⟩ := List.cons.inj heq
          exact .inr hpresent
        · obtain ⟨rfl, -⟩ := List.cons.inj heq
          exact absurd (hpre x List.mem_cons_self) hprivate

theorem lt_of_mem_addresses {stores : List Store} {a : ℕ} (h : a ∈ addresses stores) : a < 2 ^ 32 := by
  obtain ⟨st, -, i, -, rfl⟩ := mem_addresses.mp h
  exact Nat.mod_lt _ (by decide)

def ProgramHeader.Clear (c : Config) (file : File) (phdr : ProgramHeader) : Prop :=
  phdr.type = 1 → Exec.Clear c phdr.vaddr (phdr.copied file) ∧
    Exec.Clear c ((phdr.vaddr + phdr.filesz) % 2 ^ 32) phdr.zeroed

theorem ProgramHeader.Clear.private_targets {phdr : ProgramHeader} (h : phdr.Clear c file) :
    ∀ a ∈ phdr.targets file, Private c a := by
  unfold targets
  split_ifs with htype hread
  · obtain ⟨hcopied, hzeroed⟩ := h htype
    simp only [stretch, List.forall_mem_append, List.forall_mem_map, List.mem_range]
    exact ⟨(clear_iff (le32_lt _ _)).mpr hcopied, (clear_iff (Nat.mod_lt _ (by decide))).mpr hzeroed⟩
  · simp only [stretch, List.append_nil, List.forall_mem_map, List.mem_range]
    exact (clear_iff (le32_lt _ _)).mpr (h htype).1
  · exact fun a ha => absurd ha List.not_mem_nil

theorem written_subset (c : Config) (free : ℕ) (done as : List ℕ) : written c free done as ⊆ as := by
  induction as generalizing done with
  | nil => exact List.Subset.refl _
  | cons a as ih =>
    rw [written]
    split_ifs
    · exact List.cons_subset_cons a (ih _)
    · exact List.nil_subset _

theorem writes_private (h : ∀ phdr ∈ ELF.headers file, phdr.Clear c file) (free : ℕ)
    (argv : List CString) : ∀ a ∈ ELF.writes c free argv file, Private c a := by
  unfold ELF.writes
  split_ifs
  · intro a ha
    have ha := written_subset _ _ _ _ ha
    rw [ELF.addresses_load, List.mem_flatMap] at ha
    obtain ⟨phdr, hphdr, ha⟩ := ha
    exact (h phdr hphdr).private_targets a ha
  · exact fun a ha => absurd ha List.not_mem_nil

def apics : Config := ⟨0x8000000, 0xFEC00000, 0xFEE00000⟩

/-- A program of one segment: the four bytes that the file begins with. -/
def oneSegment (vaddr : ℕ) : File :=
  .stored 8 1024 ([0x7F, 69, 76, 70, 1, 1, 1, 0] ++ List.replicate 8 0 ++
    [2, 0, 3, 0] ++ word 1 ++ word 0x80000000 ++ word 52 ++ word 0 ++ word 0 ++
    [52, 0, 32, 0, 1, 0, 0, 0, 0, 0, 0, 0] ++
    word 1 ++ word 0 ++ word vaddr ++ word 0 ++ word 4 ++ word 4 ++ word 7 ++ word 0)
    (by decide) (by simp)

end OsShell.Exec
