import OsShell.Vmm.Copy

/-!
# The shared directory

At boot every frame of memory but the first gets a page in the shared directory
at its own address. No private role exists yet.
-/

namespace OsShell.Vmm

open PhysMem Stopping FrameTree

/-- The frames that `PhysMem` is given start here; the kernel and its heap are below. -/
def vmmFrames : ℕ := 6 * 1024 * 1024

def poolSize (c : Config) : ℕ := (c.memSize + 2 ^ 32 - vmmFrames) % 2 ^ 32

/-- `PhysMem::init` and then `VMM::global_init`, from the memory the machine comes up with. -/
def boot (c : Config) (mem : ℕ → ℕ) : Except Halt (ℕ × Machine) := do
  let m ← init mem vmmFrames (poolSize c)
  globalInit c m

/-- The configurations considered: at most 2 GB of memory, and APIC pages above it that are no
frames of the pool. -/
structure Platform (c : Config) : Prop where
  memSize : c.memSize ≤ 0x80000000
  ioAligned : frameSize ∣ c.ioAPIC
  ioPrivate : 0x80000000 ≤ c.ioAPIC
  ioWord : c.ioAPIC < 2 ^ 32
  ioOutside : ∀ i < poolSize c / frameSize, (vmmFrames + frameSize * i) % 2 ^ 32 ≠ c.ioAPIC
  localAligned : frameSize ∣ c.localAPIC
  localPrivate : 0x80000000 ≤ c.localAPIC
  localWord : c.localAPIC < 2 ^ 32
  localOutside : ∀ i < poolSize c / frameSize, (vmmFrames + frameSize * i) % 2 ^ 32 ≠ c.localAPIC

theorem Platform.memSize_ge {c : Config} (P : Platform c) : vmmFrames ≤ c.memSize := by
  by_contra hlt
  have h₁ := P.ioPrivate
  have h₂ := P.ioWord
  obtain ⟨q, hq⟩ := P.ioAligned
  refine P.ioOutside (q - 1536) ?_ ?_
  · simp only [poolSize, vmmFrames, frameSize] at *
    omega
  · simp only [vmmFrames, frameSize] at *
    omega

theorem Platform.valid {c : Config} (P : Platform c) {r : Pool} (hstart : r.start = vmmFrames)
    (hcount : frameSize * r.count = poolSize c) : Valid c r := by
  have h₁ := P.memSize
  have h₂ := P.memSize_ge
  refine ⟨h₁, ?_, P.ioAligned, P.ioPrivate, P.ioWord, P.localAligned, P.localPrivate, P.localWord⟩
  rw [hstart, hcount]
  simp only [poolSize, vmmFrames] at *
  omega

structure Booting (c : Config) (r : Pool) (shared : ℕ) (m : Machine) (A : List ℕ)
    (occ : Role → Option ℕ) : Prop where
  owned : Owned r m A
  tree : Tree (shape c (fun _ => 0) ∅) m.mem {f | f ∈ A} occ
  sharedDir : occ .sharedDir = some shared
  bare : ∀ x : Role, x.isPrivate → occ x = none
  ranged : ∀ x : Role, x.InRange ∨ occ x = none
  high : ∀ i, sharedSlots c ≤ i → occ (.sharedTable i) = none

variable {c : Config} {r : Pool} {shared : ℕ} {m : Machine} {A : List ℕ} {occ : Role → Option ℕ}
  {E : Halt → Prop}

theorem Booting.write (h : Booting c r shared m A occ) {i j t : ℕ}
    (ht : occ (.sharedTable i) = some t) (hj : j < 1024) (v : ℕ) :
    Booting c r shared (m.store (t + 4 * j) v) A occ := by
  have htA := h.tree.held _ t ht
  refine { h with owned := h.owned.store htA (Nat.le_add_right _ _) ?_ v,
                  tree := h.tree.agree fun x y k f hx hy => Function.update_of_ne ?_ _ _ }
  · simp only [frameSize]
    omega
  · intro heq
    have hk := Role.parent_lt hx
    have hft : f = t := within_unique (h.tree.frames f (h.tree.held y f hy)).1
      (h.tree.frames t htA).1 (within_cell f hk) (by
        have : f + 4 * k = t + 4 * j := heq
        rw [this]
        exact within_cell t hj)
    obtain rfl : y = .sharedTable i := h.tree.inj _ _ t (hft ▸ hy) ht
    cases x <;> simp [shape, Role.parent] at hx

theorem mapShared_spec (h : Booting c r shared m A occ) {va n : ℕ} (hva : va < c.memSize)
    (hmem : c.memSize ≤ 0x80000000) (htables : ∀ k, occ (.sharedTable k) = none ↔ n ≤ k)
    (hn : va >>> 22 ≤ n) (hlen : A.length = 1 + n) :
    Outcome (map c shared va va m) (fun m' => ∃ A' occ', Booting c r shared m' A' occ' ∧
        (∀ k, occ' (.sharedTable k) = none ↔ max n (va >>> 22 + 1) ≤ k) ∧
        A'.length = 1 + max n (va >>> 22 + 1) ∧ (Tidy A occ → Tidy A' occ'))
      fun _ => r.count < 1 + sharedSlots c := by
  have hflags : kernelFlags c va = 3 := by
    have hs : isSpecial c va := Or.inl (by omega)
    rw [kernelFlags_eq, if_pos hs]
  have hi : va >>> 22 < 1024 := slot_lt (by omega)
  have hslots : va >>> 22 < sharedSlots c := by
    simp only [sharedSlots, Nat.shiftRight_eq_div_pow]
    omega
  have hj := index_lt va
  simp only [map, hflags]
  generalize va >>> 22 = i at *
  generalize (va >>> 12) &&& 0x3FF = j at *
  have hparent : (Role.sharedTable i).parent = some (.sharedDir, i) := if_pos hi
  have hentry : m.mem (shared + 4 * i) = word 3 (occ (.sharedTable i)) :=
    h.tree.entry (.sharedTable i) .sharedDir i shared hparent h.sharedDir
  rw [hentry]
  rcases word_present (Or.inl rfl) (fun f hf => h.tree.frames f (h.tree.held _ f hf)) with
    ⟨hnone, hpde⟩ | ⟨t, ht, hpde, hframe⟩
  · rw [if_pos hpde]
    have hni : n = i := le_antisymm ((htables i).mp hnone) hn
    refine .bind ((alloc_tree h.owned h.tree).weaken ?_ fun _ he => by omega)
    rintro ⟨t, m₁⟩ ⟨hO, hT, hloose, -⟩
    have hta := hT.frames t List.mem_cons_self
    have hlink := hT.link (x := .sharedTable i) (v := t ||| 3) hparent h.sharedDir hloose rfl
      fun z k hz => by cases z <;> simp [shape, Role.parent] at hz
    have hB : Booting c r shared (m₁.store (shared + 4 * i) (t ||| 3)) (t :: A)
        (Function.update occ (.sharedTable i) (some t)) := by
      refine ⟨hO.store (List.mem_cons_of_mem t (h.tree.held _ _ h.sharedDir))
        (Nat.le_add_right _ _) (by simp only [frameSize]; omega) _, hlink, ?_, fun x hx => ?_,
        fun x => ?_, fun k hk => ?_⟩
      · rw [Function.update_of_ne (by simp)]
        exact h.sharedDir
      · rw [Function.update_of_ne (by rintro rfl; exact hx)]
        exact h.bare x hx
      · by_cases hx : x = .sharedTable i
        · exact Or.inl (hx ▸ hi)
        · rw [Function.update_of_ne hx]
          exact h.ranged x
      · rw [Function.update_of_ne (by simp only [ne_eq, Role.sharedTable.injEq]; omega)]
        exact h.high k hk
    simp only [ok_bind, or_flags_frame hta.1 hta.2 (Or.inl rfl)]
    refine .ok ⟨_, _, hB.write (Function.update_self ..) hj _, fun k => ?_, ?_,
      fun hT' => hT'.cons hnone⟩
    · rw [Nat.max_eq_right (by omega)]
      by_cases hk : k = i
      · rw [hk, Function.update_self]
        simp
      · rw [Function.update_of_ne (by simpa using hk), htables]
        omega
    · rw [List.length_cons]
      omega
  · have hin : i < n := by
      by_contra hge
      rw [(htables i).mpr (by omega)] at ht
      cases ht
    rw [if_neg (by simp [hpde])]
    simp only [ok_bind, hframe]
    rw [Nat.max_eq_left (by omega)]
    exact .ok ⟨A, occ, h.write ht hj _, htables, hlen, id⟩

theorem globalInit_spec (h : Holds r m [] [] 0) (hmem : c.memSize ≤ 0x80000000) :
    Outcome (globalInit c m) (fun s => ∃ A occ, Booting c r s.1 s.2 A occ ∧
      A.length ≤ 1 + sharedSlots c ∧ Tidy A occ) fun _ => r.count < 1 + sharedSlots c := by
  have hT : Tree (shape c (fun _ => 0) ∅) m.mem {f | f ∈ ([] : List ℕ)} fun _ => none :=
    ⟨nofun, nofun, nofun, nofun⟩
  refine .bind ((alloc_tree ⟨[], 0, h⟩ hT).weaken ?_ fun _ (he : 0 = r.count) => by omega)
  rintro ⟨shared, m₁⟩ ⟨hO, hT₁, hloose, hF⟩
  have hplant := hT₁.plant (x := .sharedDir) rfl hloose fun z j hz => by
    cases z with
    | sharedTable i =>
      simp only [shape, Role.parent, Option.ite_none_right_eq_some, Option.some.injEq,
        Prod.mk.injEq, true_and] at hz
      have hcell := within_cell shared (hz.2 ▸ hz.1 : j < 1024)
      exact hF.zero _ hcell.1 hcell.2
    | _ => simp [shape, Role.parent] at hz
  have hB : Booting c r shared m₁ [shared]
      (Function.update (fun _ => none) .sharedDir (some shared)) := by
    refine ⟨hO, hplant, Function.update_self .., fun x hx => ?_, fun x => ?_, fun i _ => ?_⟩
    · rw [Function.update_of_ne (by rintro rfl; exact hx)]
    · by_cases hx : x = .sharedDir
      · exact Or.inl (hx ▸ trivial)
      · exact Or.inr (Function.update_of_ne hx _ _)
    · rw [Function.update_of_ne (by simp)]
  have hshared : Tidy [shared] (Function.update (fun _ => none) Role.sharedDir (some shared)) :=
    Tidy.cons (fun f hf => absurd hf List.not_mem_nil) rfl
  -- the slots with tables are those of the addresses seen so far
  refine .bind ((Outcome.forRange (fun i m' => ∃ A occ n, Booting c r shared m' A occ ∧
    (∀ k, occ (.sharedTable k) = none ↔ n ≤ k) ∧ A.length = 1 + n ∧ i ≤ 1024 * n + 1 ∧
    n ≤ (i + 1023) / 1024 ∧ Tidy A occ)
    ⟨_, _, 0, hB, by simp, rfl, by omega, by omega, hshared⟩ ?_).mono ?_)
  · rintro i m' hlo hi ⟨A', occ', n, hB', htables, hlen, hni, hn, htidy⟩
    have hshift : (frameSize * i) >>> 22 = i / 1024 := by
      rw [Nat.shiftRight_eq_div_pow]
      simp only [frameSize]
      omega
    refine (mapShared_spec hB' ?_ hmem htables ?_ hlen).mono ?_
    · simp only [frameSize] at *
      omega
    · rw [hshift]
      omega
    · rw [hshift]
      rintro m'' ⟨A'', occ'', hB'', htables'', hlen'', htidy''⟩
      exact ⟨A'', occ'', _, hB'', htables'', hlen'', by omega, by omega, htidy'' htidy⟩
  · rintro m' ⟨A', occ', n, hB', htables, hlen, -, -, htidy⟩
    have hle : n ≤ sharedSlots c := (htables _).mp (hB'.high _ le_rfl)
    exact .ok ⟨A', occ', hB', by omega, htidy⟩

theorem Booting.layout (h : Booting c r shared m A occ) :
    Layout c r (fun i => word 3 (occ (.sharedTable i))) ∅ shared m A occ := by
  refine ⟨h.owned, { h.tree with entry := fun x y i f hx hy => ?_ }, h.sharedDir, fun pd f hf => ?_,
    h.ranged, fun _ => rfl, h.high⟩
  · have hold := h.tree.entry x y i f hx hy
    cases x with
    | «alias» q k =>
      simp only [shape, Role.parent, Option.ite_none_right_eq_some, Option.some.injEq,
        Prod.mk.injEq] at hx
      rw [← hx.2.1, h.bare (.dir q) trivial] at hy
      cases hy
    | _ => exact hold
  · rw [h.bare (.dir pd) trivial] at hf
    cases hf

end OsShell.Vmm
