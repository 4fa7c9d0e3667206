import OsShell.Vmm.Mappings

/-!
# Faults that make progress

A process gets on after a page fault if the processor's walk lets user code use
the page, and both words of the walk have a say in that. The flags of a table
are those of the page it was made for, and in the slots of the APICs that is a
page of the kernel.
-/

namespace OsShell.Vmm

open PhysMem Stopping FrameTree Runs

/-- Present, writable and open to user code. -/
def userWritable (e : ℕ) : Prop := e &&& 7 = 7

instance (e : ℕ) : Decidable (userWritable e) := inferInstanceAs (Decidable (_ = _))

def UserMaps (m : Machine) (pd va : ℕ) : Prop :=
  userWritable (m.mem (pd + 4 * (va >>> 22))) ∧ userWritable (pteAt m pd va)

theorem or_flags_user {f flags : ℕ} (hf : frameSize ∣ f) (hflags : flags = 3 ∨ flags = 7) :
    userWritable (f ||| flags) ↔ flags = 7 := by
  have hlow : (f ||| flags) &&& 7 = flags &&& 7 :=
    Words.and_low_or (k := 12) (c := 3) hf (by omega) (by norm_num)
  rw [userWritable, hlow]
  rcases hflags with rfl | rfl <;> decide

section

variable {c : Config} {r : Pool} {low : ℕ → ℕ} {shared : ℕ} {m m' : Machine} {A : List ℕ}
  {occ : Role → Option ℕ} {pd cr3 saved va : ℕ}

theorem Layout.table_user (h : Layout c r low ∅ shared m A occ) {i t : ℕ}
    (hpd : occ (.dir pd) = some pd) (hi : 512 ≤ i ∧ i < 1024) (ht : occ (.table pd i) = some t) :
    userWritable (m.mem (pd + 4 * i)) ↔ ¬ apicSlot c i := by
  have hpde : m.mem (pd + 4 * i) = word (tableFlags c i) (occ (.table pd i)) :=
    h.tree.entry (.table pd i) (.dir pd) i pd (if_pos hi) hpd
  rw [hpde, ht, word, or_flags_user (h.aligned ht).1 (tableFlags_cases c i), tableFlags]
  split
  case isTrue hs => simp [hs]
  case isFalse hs => simp [hs]

/-- The words of the walk after a fault: the handler's entry is the page's own, the one in the
directory may be older. -/
theorem pageFault_words (h : Layout c r low ∅ shared m A occ) (C : Closed c occ)
    (hpd : occ (.dir pd) = some pd) (hlo : 0x80000000 ≤ va) (hva : va < 2 ^ 32)
    (hcall : pageFault c cr3 saved pd va m = .ok m') :
    (userWritable (m'.mem (pd + 4 * (va >>> 22))) ↔ ¬ apicSlot c (va >>> 22)) ∧
      (userWritable (pteAt m' pd va) ↔ ¬ isSpecial c (framedown va)) := by
  have hi : 512 ≤ va >>> 22 ∧ va >>> 22 < 1024 := ⟨slot_private hlo, slot_lt hva⟩
  obtain ⟨pa, m₁, A', occ', t, M, -⟩ := (pageFault_mapped h C hpd hva cr3 saved).of_ok hcall
  rw [(framedown_slot va).1, (framedown_slot va).2] at M
  have hdir : occ' (.dir pd) = some pd := (M.others _ (by simp) (by simp)).trans hpd
  refine ⟨M.layout.table_user hdir hi M.table, ?_⟩
  have hframe : frameOf (m'.mem (pd + 4 * (va >>> 22))) = t := by
    rcases M.layout.read_slot hdir hi with ⟨hnone, -⟩ | ⟨t', ht', -, hframe⟩
    · rw [M.table] at hnone
      cases hnone
    · rw [M.table] at ht'
      cases ht'
      exact hframe
  have hpte : pteAt m' pd va = pa ||| kernelFlags c (framedown va) := by
    rw [pteAt, hframe, M.entry]
  rw [hpte, or_flags_user (M.layout.aligned M.data).1 (kernelFlags_cases c _), kernelFlags_eq]
  split
  case isTrue hs => simp [hs]
  case isFalse hs => simp [hs]

end

/-- A fault that the handler survives lets the process go on unless the page shares its 4 MB with
a page of an APIC. -/
theorem pageFault_progress_iff {c : Config} (P : Platform c) {s : State}
    (h : Reachable (Init c) (Step c) s) {pd cr3 saved va : ℕ} {m : Machine} (hpd : pd ∈ s.live)
    (hlo : 0x80000000 ≤ va) (hva : va < 2 ^ 32) (hpage : ¬ isSpecial c (framedown va))
    (hcall : pageFault c cr3 saved pd va s.machine = .ok m) :
    UserMaps m pd va ↔ ¬ apicSlot c (va >>> 22) := by
  obtain ⟨r, -, low, A, occ, I⟩ := inv_of_reachable P h
  obtain ⟨hdir, hentry⟩ :=
    pageFault_words I.layout I.closed ((I.live pd).mp hpd) hlo hva hcall
  rw [UserMaps, hdir, hentry]
  exact and_iff_left hpage

theorem small_fault {va : ℕ} (hlo : 0x80000000 ≤ va) (hva : va < 2 ^ 32) :
    ∃ (s : State) (pd : ℕ) (m : Machine), Reachable (Init smallConfig) (Step smallConfig) s ∧
      pd ∈ s.live ∧ pageFault smallConfig pd pd pd va s.machine = .ok m := by
  obtain ⟨s, pd, h, hlive⟩ := small_process
  have hpd : pd ∈ s.live := by simp [hlive]
  obtain ⟨m, hfault, -⟩ := h.fault va (by decide) hpd hva hlo
  exact ⟨s, pd, m, h.reachable, hpd, hfault⟩

theorem firstPage_progress : ∃ (s : State) (pd : ℕ) (m : Machine), pd ∈ s.live ∧
    pageFault smallConfig pd pd pd 0x80000123 s.machine = .ok m ∧ UserMaps m pd 0x80000123 := by
  have hlo : 0x80000000 ≤ 0x80000123 := by norm_num
  have hva : 0x80000123 < 2 ^ 32 := by norm_num
  obtain ⟨s, pd, m, hs, hpd, hfault⟩ := small_fault hlo hva
  exact ⟨s, pd, m, hpd, hfault,
    (pageFault_progress_iff smallPlatform hs hpd hlo hva (by decide) hfault).mpr (by decide)⟩

/-- The page above the one of the I/O APIC: user code faults there again and again. -/
theorem apicSlot_stuck : ∃ (s : State) (pd : ℕ) (m : Machine),
    Reachable (Init smallConfig) (Step smallConfig) s ∧ pd ∈ s.live ∧
      ¬ isSpecial smallConfig (framedown 0xFEC01000) ∧
      pageFault smallConfig pd pd pd 0xFEC01000 s.machine = .ok m ∧ ¬ UserMaps m pd 0xFEC01000 := by
  have hlo : 0x80000000 ≤ 0xFEC01000 := by norm_num
  have hva : 0xFEC01000 < 2 ^ 32 := by norm_num
  obtain ⟨s, pd, m, hs, hpd, hfault⟩ := small_fault hlo hva
  obtain ⟨r, -, low, A, occ, I⟩ := inv_of_reachable smallPlatform hs
  have hwords := pageFault_words I.layout I.closed ((I.live pd).mp hpd) hlo hva hfault
  have hslot : apicSlot smallConfig (0xFEC01000 >>> 22) := by decide
  exact ⟨s, pd, m, hs, hpd, by decide, hfault, fun huser => hwords.1.mp huser.1 hslot⟩

end OsShell.Vmm
