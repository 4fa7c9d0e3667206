import OsShell.Debug
import OsShell.Library.Bytes

/-!
# The processors of the machine

`configInit` looks for the tables that describe the machine and goes through the entries of
the one that lists the processors. The loop steps to the next entry before it looks at it,
so that it does not look at the first entry, but at what stands behind the last one.
-/

namespace OsShell.Acpi

open Bytes

structure MemInfo where
  ax : ℕ
  bx : ℕ
  cx : ℕ
  dx : ℕ

structure ApicInfo where
  processorId : UInt8
  apicId : UInt8
  flags : ℕ
deriving DecidableEq

def maxProcs : ℕ := 16

/-- The array `apicInfo` has `maxProcs` elements. -/
structure Config where
  memSize : ℕ
  nOtherProcs : ℕ
  totalProcs : ℕ
  localAPIC : ℕ
  madtFlags : ℕ
  ioAPIC : ℕ
  apicInfo : ℕ → ApicInfo
  oemid : List UInt8

def memAbove1M (memInfo : MemInfo) : Except Halt ℕ := do
  assert (memInfo.cx = 15 * 1024 ∨ memInfo.dx = 0)
    "(memInfo.cx == 15 * 1024) || (memInfo.dx == 0)"
  return ((memInfo.ax ||| memInfo.cx) * 2 ^ 10 + (memInfo.bx ||| memInfo.dx) * 2 ^ 16) % 2 ^ 32

section Code

variable (memory : Buffer)

def iseq (a : ℕ) (b : List UInt8) (len : ℕ) : Bool :=
  (List.range len).all fun i => memory (a + i) = b.getD i 0

/-- `for (i = start; i < end; i += 16)`, with as many rounds as there are such numbers. -/
def findRSDFrom : ℕ → ℕ → ℕ
  | 0, _ => 0
  | rounds + 1, i => if iseq memory i (chars "RSD PTR ") 8 then i else findRSDFrom rounds (i + 16)

def findRSDInRange (start stop : ℕ) : ℕ := findRSDFrom memory ((stop - start + 15) / 16) start

def findRSD : ℕ :=
  let it := findRSDInRange memory 0x000E0000 0x00100000
  if it = 0 then
    let base := le16 memory 0x40E * 2 ^ 4
    findRSDInRange memory base (base + 2 ^ 10)
  else it

/-- The addresses behind the header of the root table. -/
def others (rsdt : ℕ) : List ℕ :=
  let entries := (le32 memory (rsdt + 4) + 2 ^ 32 - 36) % 2 ^ 32 / 4
  (List.range entries).map fun i => le32 memory (rsdt + 36 + 4 * i)

def findSDT (rsdp : ℕ) (name : List UInt8) : ℕ :=
  ((others memory (le32 memory (rsdp + 16))).find? fun h => iseq memory h name 4).getD 0

def apicInfoAt (p : ℕ) : ApicInfo := ⟨memory (p + 2), memory (p + 3), le32 memory (p + 4)⟩

def look (c : Config) (p : ℕ) : Config :=
  if memory p = 0 then
    if memory (p + 2) = 0 then c
    else
      { c with
        nOtherProcs := c.nOtherProcs + 1
        apicInfo := Function.update c.apicInfo c.nOtherProcs (apicInfoAt memory p) }
  else if memory p = 1 then { c with ioAPIC := le32 memory (p + 4) }
  else c

/-- The variables of the loop, and the places that it has taken for entries. -/
structure Scan where
  entryPtr : ℕ
  bytesForEntries : ℤ
  looked : List ℕ
  config : Config

def lenAt (p : ℕ) : ℕ := (memory (p + 1)).toNat

def scan : ℕ → Scan → Option Scan
  | 0, _ => none
  | rounds + 1, s =>
    if 0 < s.bytesForEntries then
      let len := lenAt memory s.entryPtr
      let entryPtr := (s.entryPtr + len) % 2 ^ 32
      scan rounds ⟨entryPtr, s.bytesForEntries - len, s.looked ++ [entryPtr],
        look memory s.config entryPtr⟩
    else some s

def beforeLoop (rsdp madt above : ℕ) (config : Config) : Config :=
  { config with
    memSize := (above + 2 ^ 20) % 2 ^ 32
    oemid := if rsdp ≠ 0 then slice memory (rsdp + 9) 6 ++ [0] else config.oemid
    localAPIC := le32 memory (madt + 36)
    madtFlags := le32 memory (madt + 40)
    nOtherProcs := 0 }

@[simp] theorem beforeLoop_nOtherProcs (rsdp madt above : ℕ) (config : Config) :
    (beforeLoop memory rsdp madt above config).nOtherProcs = 0 := by
  rw [beforeLoop]

@[simp] theorem beforeLoop_ioAPIC (rsdp madt above : ℕ) (config : Config) :
    (beforeLoop memory rsdp madt above config).ioAPIC = config.ioAPIC := by
  rw [beforeLoop]

/-- The loop, from the beginning of the entries. The length is unsigned, and `bytesForEntries` is
not. -/
def scanTable (rounds madt : ℕ) (config : Config) : Option Scan :=
  scan memory rounds
    ⟨madt + 44, ((le32 memory (madt + 4) : ℤ) - 44).bmod (2 ^ 32), [], config⟩

/-- The configuration, and the places that have been taken for entries. -/
def configInit (memInfo : MemInfo) (rounds : ℕ) (config : Config) :
    Option (Except Halt (Config × List ℕ)) :=
  match memAbove1M memInfo with
  | .error h => some (.error h)
  | .ok above =>
    let rsdp := findRSD memory
    let madt := findSDT memory rsdp (chars "APIC")
    (scanTable memory rounds madt (beforeLoop memory rsdp madt above config)).map fun s =>
      .ok ({ s.config with totalProcs := s.config.nOtherProcs + 1 }, s.looked)

/-! ## What the table says -/

/-- From `p` on the entries stand at the given places, and the last one ends at `stop`. -/
inductive Entries (stop : ℕ) : ℕ → List ℕ → Prop
  | done : Entries stop stop []
  | entry {p : ℕ} {places : List ℕ} (hlen : 2 ≤ lenAt memory p)
    (hapic : memory p = 0 → 8 ≤ lenAt memory p) (hio : memory p = 1 → 12 ≤ lenAt memory p)
    (rest : Entries stop (p + lenAt memory p) places) : Entries stop p (p :: places)

def tableEnd (madt : ℕ) : ℕ := madt + le32 memory (madt + 4)

structure Madt (madt : ℕ) (places : List ℕ) : Prop where
  entries : Entries memory (tableEnd memory madt) (madt + 44) places
  fits : tableEnd memory madt ≤ 2 ^ 32
  few : (places.filter fun p => memory p = 0).length ≤ maxProcs

def otherProcs (places : List ℕ) : List ApicInfo :=
  (places.filter fun p => memory p = 0 ∧ memory (p + 2) ≠ 0).map (apicInfoAt memory)

def ioApics (places : List ℕ) : List ℕ :=
  (places.filter fun p => memory p = 1).map fun p => le32 memory (p + 4)

structure Found (places : List ℕ) (c c' : Config) : Prop where
  nOtherProcs : c'.nOtherProcs = (otherProcs memory places).length
  apicInfo : ∀ i (h : i < (otherProcs memory places).length),
    c'.apicInfo i = (otherProcs memory places)[i]
  totalProcs : c'.totalProcs = (otherProcs memory places).length + 1
  ioAPIC : c'.ioAPIC = (ioApics memory places).getLast?.getD c.ioAPIC

/-- Where the entries end, the first one, the second one, and so on. -/
def ends (stop : ℕ) : List ℕ → List ℕ
  | [] => []
  | _ :: places => places ++ [stop % 2 ^ 32]

/-- The places that the loop takes for entries. From `2 ^ 31` bytes on it makes no round. -/
def visited (madt : ℕ) (places : List ℕ) : List ℕ :=
  if le32 memory (madt + 4) - 44 < 2 ^ 31 then ends (tableEnd memory madt) places else []

end Code

/-! ## The loop -/

variable {memory : Buffer} {c c' c'' : Config} {ps qs places : List ℕ} {p stop madt : ℕ}

theorem otherProcs_append (ps qs : List ℕ) :
    otherProcs memory (ps ++ qs) = otherProcs memory ps ++ otherProcs memory qs := by
  rw [otherProcs, List.filter_append, List.map_append]
  rfl

theorem ioApics_append (ps qs : List ℕ) :
    ioApics memory (ps ++ qs) = ioApics memory ps ++ ioApics memory qs := by
  rw [ioApics, List.filter_append, List.map_append]
  rfl

structure Adds (memory : Buffer) (ps : List ℕ) (c c' : Config) : Prop where
  nOtherProcs : c'.nOtherProcs = c.nOtherProcs + (otherProcs memory ps).length
  before : ∀ i < c.nOtherProcs, c'.apicInfo i = c.apicInfo i
  added : ∀ i (h : i < (otherProcs memory ps).length),
    c'.apicInfo (c.nOtherProcs + i) = (otherProcs memory ps)[i]
  ioAPIC : c'.ioAPIC = (ioApics memory ps).getLast?.getD c.ioAPIC

theorem Adds.nil (c : Config) : Adds memory [] c c where
  nOtherProcs := rfl
  before _ _ := rfl
  added i h := absurd h (Nat.not_lt_zero i)
  ioAPIC := rfl

theorem Adds.append (h : Adds memory ps c c') (h' : Adds memory qs c' c'') :
    Adds memory (ps ++ qs) c c'' where
  nOtherProcs := by
    rw [h'.nOtherProcs, h.nOtherProcs, otherProcs_append, List.length_append, Nat.add_assoc]
  before i hi := by
    have hn := h.nOtherProcs
    rw [h'.before i (by omega), h.before i hi]
  added i hi := by
    have hn := h.nOtherProcs
    simp only [otherProcs_append]
    rw [otherProcs_append, List.length_append] at hi
    by_cases hlt : i < (otherProcs memory ps).length
    · rw [h'.before _ (by omega), h.added i hlt, List.getElem_append_left hlt]
    · obtain ⟨k, rfl⟩ := Nat.exists_eq_add_of_le (Nat.not_lt.mp hlt)
      rw [← Nat.add_assoc, ← hn, h'.added k (by omega), List.getElem_append_right (by omega)]
      simp only [Nat.add_sub_cancel_left]
  ioAPIC := by
    rw [h'.ioAPIC, h.ioAPIC, ioApics_append, List.getLast?_append]
    cases (ioApics memory qs).getLast? <;> rfl

theorem look_adds (c : Config) (p : ℕ) : Adds memory [p] c (look memory c p) := by
  rw [look]
  split
  · rename_i htype
    have hne : memory p ≠ 1 := fun h => absurd (htype.symm.trans h) (by decide)
    split
    · rename_i hzero
      constructor <;> simp [otherProcs, ioApics, htype, hzero]
    · rename_i hother
      have hprocs : otherProcs memory [p] = [apicInfoAt memory p] := by
        simp [otherProcs, htype, hother]
      refine ⟨by rw [hprocs]; rfl, fun i hi => Function.update_of_ne hi.ne _ _, fun i hi => ?_, ?_⟩
      · obtain rfl : i = 0 := by simpa [hprocs] using hi
        simp [hprocs]
      · simp [ioApics, hne]
  · rename_i htype
    split
    · rename_i hio
      constructor <;> simp [otherProcs, ioApics, hio]
    · rename_i hio
      constructor <;> simp [otherProcs, ioApics, htype, hio]

theorem foldl_look_adds (ps : List ℕ) (c : Config) :
    Adds memory ps c (ps.foldl (look memory) c) := by
  induction ps generalizing c with
  | nil => exact .nil c
  | cons p ps ih => exact (look_adds c p).append (ih _)

theorem Entries.le (h : Entries memory stop p ps) : p + 2 * ps.length ≤ stop := by
  induction h with
  | done => rfl
  | entry hlen hapic hio rest ih =>
    rw [List.length_cons]
    omega

theorem ends_cons (h : Entries memory stop p ps) (hstop : stop ≤ 2 ^ 32) :
    p % 2 ^ 32 :: ends stop ps = ps ++ [stop % 2 ^ 32] := by
  cases h with
  | done => rfl
  | entry hlen hapic hio rest =>
    have hle := rest.le
    rw [Nat.mod_eq_of_lt (by omega)]
    rfl

theorem scan_of_entries (h : Entries memory stop p ps) (hstop : stop ≤ 2 ^ 32) {s : Scan}
    (hptr : ps ≠ [] → s.entryPtr = p) (hbytes : s.bytesForEntries = stop - p) :
    ∃ s', scan memory (ps.length + 1) s = some s' ∧ s'.looked = s.looked ++ ends stop ps ∧
      s'.config = (ends stop ps).foldl (look memory) s.config := by
  induction h generalizing s with
  | done =>
    refine ⟨s, ?_, (List.append_nil _).symm, rfl⟩
    rw [List.length_nil, scan, if_neg (by omega)]
  | @entry p ps hlen hapic hio rest ih =>
    have hle := rest.le
    have hends := ends_cons rest hstop
    have hp := hptr (List.cons_ne_nil p ps)
    obtain ⟨s', hscan, hlooked, hconfig⟩ := ih
      (s := ⟨(p + lenAt memory p) % 2 ^ 32, s.bytesForEntries - lenAt memory p,
        s.looked ++ [(p + lenAt memory p) % 2 ^ 32],
        look memory s.config ((p + lenAt memory p) % 2 ^ 32)⟩)
      (fun hne => Nat.mod_eq_of_lt (by have := List.length_pos_of_ne_nil hne; omega))
      (by change s.bytesForEntries - _ = _; rw [hbytes, Nat.cast_add, sub_sub])
    refine ⟨s', ?_, ?_, ?_⟩
    · rw [List.length_cons, scan, if_pos (by omega), hp]
      exact hscan
    · rw [hlooked, List.append_assoc, List.singleton_append, hends]
      rfl
    · rw [hconfig, ← List.foldl_cons, hends]
      rfl

theorem Madt.length_ge (h : Madt memory madt places) : 44 ≤ le32 memory (madt + 4) := by
  have hle := h.entries.le
  unfold tableEnd at hle
  omega

theorem scanTable_spec (h : Madt memory madt places) (c : Config) :
    ∃ s, scanTable memory (places.length + 1) madt c = some s ∧
      s.looked = visited memory madt places ∧
      s.config = (visited memory madt places).foldl (look memory) c := by
  have hge := h.length_ge
  have hlt := le32_lt memory (madt + 4)
  rw [visited, scanTable]
  by_cases hsmall : le32 memory (madt + 4) - 44 < 2 ^ 31
  · rw [if_pos hsmall]
    refine scan_of_entries h.entries h.fits (fun _ => rfl) ?_
    change ((le32 memory (madt + 4) : ℤ) - 44).bmod (2 ^ 32) =
      tableEnd memory madt - (madt + 44 : ℕ)
    rw [Int.bmod_eq_of_le (by omega) (by omega), tableEnd]
    omega
  · have hneg : ¬ 0 < ((le32 memory (madt + 4) : ℤ) - 44).bmod (2 ^ 32) := by
      rw [Int.bmod_def]
      omega
    rw [if_neg hsmall]
    exact ⟨_, if_neg hneg, rfl, rfl⟩

theorem configInit_spec {memInfo : MemInfo} (hassert : memInfo.cx = 15 * 1024 ∨ memInfo.dx = 0)
    (hmadt : findSDT memory (findRSD memory) (chars "APIC") = madt) (h : Madt memory madt places)
    (c : Config) :
    ∃ c', configInit memory memInfo (places.length + 1) c =
        some (.ok (c', visited memory madt places)) ∧
      Found memory (visited memory madt places) c c' := by
  obtain ⟨above, habove⟩ : ∃ above, memAbove1M memInfo = .ok above := by
    rw [memAbove1M, assert_true hassert]
    exact ⟨_, rfl⟩
  obtain ⟨s, hscan, hlooked, hconfig⟩ :=
    scanTable_spec h (beforeLoop memory (findRSD memory) madt above c)
  have hadds := @foldl_look_adds memory (visited memory madt places)
    (beforeLoop memory (findRSD memory) madt above c)
  rw [← hconfig] at hadds
  have hcount : s.config.nOtherProcs = (otherProcs memory (visited memory madt places)).length :=
    hadds.nOtherProcs.trans (Nat.zero_add _)
  rw [configInit, habove]
  dsimp only
  rw [hmadt, hscan, Option.map_some, hlooked]
  refine ⟨_, rfl, hcount, fun i hi => ?_, congrArg (· + 1) hcount, ?_⟩
  · have hadded := hadds.added i hi
    rw [beforeLoop_nOtherProcs, Nat.zero_add] at hadded
    exact hadded
  · have hio := hadds.ioAPIC
    rw [beforeLoop_ioAPIC] at hio
    exact hio

theorem ends_outside (h : Madt memory madt places) (hne : places ≠ []) :
    ∃ p ∈ ends (tableEnd memory madt) places, ¬ (madt + 44 ≤ p ∧ p < tableEnd memory madt) := by
  have hfits := h.fits
  obtain ⟨p, ps, rfl⟩ := List.exists_cons_of_ne_nil hne
  refine ⟨tableEnd memory madt % 2 ^ 32, List.mem_append_right ps (List.mem_singleton_self _), ?_⟩
  omega

theorem found_iff_of_none (h : Found memory [] c c') : Found memory places c c' ↔
    otherProcs memory places = [] ∧ (ioApics memory places).getLast?.getD c.ioAPIC = c.ioAPIC := by
  have hcount : c'.nOtherProcs = 0 := h.nOtherProcs
  have hio : c'.ioAPIC = c.ioAPIC := h.ioAPIC
  constructor
  · intro hfound
    exact ⟨List.length_eq_zero_iff.mp (hfound.nOtherProcs.symm.trans hcount),
      hfound.ioAPIC.symm.trans hio⟩
  · rintro ⟨hprocs, hlast⟩
    refine ⟨by rw [hprocs]; exact hcount, fun i hi => ?_, by rw [hprocs]; exact h.totalProcs,
      hio.trans hlast.symm⟩
    rw [hprocs] at hi
    exact absurd hi (Nat.not_lt_zero i)

/-- `configInit` ends, having looked at the ends of the entries. It finds what the table says and
looks at nothing outside of the table if and only if there are no entries, or so many that it looks
at none and nothing is to be found in them. -/
theorem configInit_correct_iff {memInfo : MemInfo}
    (hassert : memInfo.cx = 15 * 1024 ∨ memInfo.dx = 0)
    (hmadt : findSDT memory (findRSD memory) (chars "APIC") = madt) (h : Madt memory madt places)
    (c : Config) :
    ∃ c' looked, configInit memory memInfo (places.length + 1) c = some (.ok (c', looked)) ∧
      looked = visited memory madt places ∧ Found memory looked c c' ∧
      (Found memory places c c' ∧ (∀ p ∈ looked, madt + 44 ≤ p ∧ p < tableEnd memory madt) ↔
        places = [] ∨ 2 ^ 31 ≤ le32 memory (madt + 4) - 44 ∧ otherProcs memory places = [] ∧
          (ioApics memory places).getLast?.getD c.ioAPIC = c.ioAPIC) := by
  obtain ⟨c', hrun, hfound⟩ := configInit_spec hassert hmadt h c
  refine ⟨c', _, hrun, rfl, hfound, ?_⟩
  rw [visited] at hfound ⊢
  by_cases hsmall : le32 memory (madt + 4) - 44 < 2 ^ 31
  · rw [if_pos hsmall] at hfound ⊢
    by_cases hempty : places = []
    · subst hempty
      exact iff_of_true ⟨hfound, fun p hp => absurd hp (by simp [ends])⟩ (.inl rfl)
    · obtain ⟨p, hp, houtside⟩ := ends_outside h hempty
      refine iff_of_false (fun hcorrect => houtside (hcorrect.2 p hp)) ?_
      rintro (hnil | ⟨hlarge, -⟩)
      · exact hempty hnil
      · exact Nat.not_le.mpr hsmall hlarge
  · rw [if_neg hsmall] at hfound ⊢
    have hnone : ∀ p ∈ ([] : List ℕ), madt + 44 ≤ p ∧ p < tableEnd memory madt := by simp
    rw [and_iff_left hnone, found_iff_of_none hfound, and_iff_right (Nat.not_lt.mp hsmall)]
    refine (or_iff_right_of_imp fun hnil => ?_).symm
    rw [hnil]
    exact ⟨rfl, rfl⟩

def machine (entries : List UInt8) : Buffer := fun i =>
  if 0xE0000 ≤ i then
    (chars "RSD PTR " ++ [0] ++ chars "BOCHS " ++ [0] ++ word 0x1000).getD (i - 0xE0000) 0
  else if 0x2000 ≤ i then
    (chars "APIC" ++ word (44 + entries.length) ++ List.replicate 28 0 ++ word 0xFEE00000 ++
      word 1 ++ entries).getD (i - 0x2000) 0
  else if 0x1000 ≤ i then
    (chars "RSDT" ++ word 40 ++ List.replicate 28 0 ++ word 0x2000).getD (i - 0x1000) 0
  else 0

def twoEntries : List UInt8 :=
  [0, 8, 1, 1, 1, 0, 0, 0] ++ [1, 12, 2, 0, 0, 0, 0xC0, 0xFE, 0, 0, 0, 0]

theorem twoEntries_findSDT : findSDT (machine twoEntries) (findRSD (machine twoEntries))
    (chars "APIC") = 0x2000 := by
  decide +kernel

theorem twoEntries_madt : Madt (machine twoEntries) 0x2000 [0x202C, 0x2034] where
  entries := .entry (by decide) (by decide) (by decide)
    (.entry (by decide) (by decide) (by decide) .done)
  fits := by decide
  few := by decide

def memInfo16M : MemInfo := ⟨0, 0, 15 * 1024, 0⟩

theorem memInfo16M_assert : memInfo16M.cx = 15 * 1024 ∨ memInfo16M.dx = 0 := .inl rfl

def blankConfig : Config := ⟨0, 0, 0, 0, 0, 0, fun _ => ⟨0, 0, 0⟩, []⟩

theorem twoEntries_looked : ∃ c' looked,
    configInit (machine twoEntries) memInfo16M 3 blankConfig = some (.ok (c', looked)) ∧
    looked = [0x2034, 0x2040] := by
  obtain ⟨c', looked, hrun, hlooked, -⟩ := configInit_correct_iff memInfo16M_assert
    twoEntries_findSDT twoEntries_madt blankConfig
  exact ⟨c', looked, hrun, hlooked.trans (by decide)⟩

/-- The processor is not found, and what stands behind the table is looked at. -/
theorem twoEntries_not_found : Madt (machine twoEntries) 0x2000 [0x202C, 0x2034] ∧ ∃ c' looked,
    configInit (machine twoEntries) memInfo16M 3 blankConfig = some (.ok (c', looked)) ∧
    c'.totalProcs = 1 ∧ otherProcs (machine twoEntries) [0x202C, 0x2034] = [⟨1, 1, 1⟩] ∧
    0x2040 ∈ looked ∧ tableEnd (machine twoEntries) 0x2000 = 0x2040 := by
  obtain ⟨c', hrun, hfound⟩ := configInit_spec memInfo16M_assert twoEntries_findSDT twoEntries_madt
    blankConfig
  have htotal := hfound.totalProcs.trans (by decide : _ = 1)
  exact ⟨twoEntries_madt, c', _, hrun, htotal, by decide, by decide, by decide⟩

end OsShell.Acpi
