import OsShell.Vmm.Operations

/-!
# Page faults and the end of an address space

`deletePrivate` empties an address space and `deletePd` takes it down. Both
walk the private slots; the first clears each word before it frees what the
word names, the second frees the frames and leaves the words in them.
-/

namespace OsShell.Vmm

open PhysMem Stopping FrameTree

section

variable {c : Config} {r : Pool} {low : ℕ → ℕ} {pending : Set (ℕ × ℕ)} {shared : ℕ}
  {m : Machine} {A : List ℕ} {occ : Role → Option ℕ} {pd i t : ℕ} {E : Halt → Prop}

theorem Layout.loose_of_update (h : Layout c r low pending shared m A occ) {x : Role} {f : ℕ}
    (hx : occ x = some f) : Loose {f | f ∈ A} (Function.update occ x none) f := by
  refine ⟨h.tree.held x f hx, fun y hy => ?_⟩
  by_cases hyx : y = x
  · rw [hyx, Function.update_self] at hy
    cases hy
  · rw [Function.update_of_ne hyx] at hy
    exact hyx (h.tree.inj y x f hy hx)

theorem Mapped.closed {j v : ℕ} {o : Option ℕ} {m' : Machine} {A' : List ℕ}
    {occ' : Role → Option ℕ} (M : Mapped c r low pending shared m A occ pd i j v o m' A' occ' t)
    (hpd : occ (.dir pd) = some pd) (C : Closed c occ) : Closed c occ' := by
  have hdir : ∀ q, occ' (.dir q) = occ (.dir q) := fun q => M.others _ (by simp) (by simp)
  have htab : ∀ q k, occ' (.table q k) = none → occ (.table q k) = none := by
    intro q k hn
    by_cases hq : Role.table q k = .table pd i
    · rw [hq, M.table] at hn
      cases hn
    · rwa [M.others _ hq (by simp)] at hn
  refine ⟨fun q k hq => ?_, fun q k l hq => ?_, fun q k hq hk hn => ?_⟩
  · rw [hdir] at hq
    by_cases hqi : Role.table q k = .table pd i
    · cases hqi
      rw [hpd] at hq
      cases hq
    · rw [M.others _ hqi (by simp)]
      exact C.tables q k hq
  · by_cases hqi : Role.data q k l = .data pd i j
    · cases hqi
      rw [M.table] at hq
      cases hq
    · rw [M.others _ (by simp) hqi]
      exact C.pages q k l (htab q k hq)
  · rw [hdir] at hq
    exact C.apics q k hq hk (htab q k hn)

theorem framedown_slot (va : ℕ) :
    framedown va >>> 22 = va >>> 22 ∧ (framedown va >>> 12) &&& 0x3FF = (va >>> 12) &&& 0x3FF := by
  have h₁ : framedown va / 2 ^ 22 = va / 2 ^ 22 := by
    simp only [framedown, frameSize]
    omega
  have h₂ : framedown va / 2 ^ 12 = va / 2 ^ 12 := by
    simp only [framedown, frameSize]
    omega
  simp only [Nat.shiftRight_eq_div_pow, h₁, h₂, and_self]

theorem pageFault_mapped (h : Layout c r low ∅ shared m A occ) (C : Closed c occ)
    (hpd : occ (.dir pd) = some pd) {va : ℕ} (hva : va < 2 ^ 32) (cr3 saved : ℕ) :
    Outcome (pageFault c cr3 saved pd va m) (fun m' => ∃ pa m₁ A' occ' t,
        Mapped c r low ∅ shared m₁ (pa :: A) occ pd (framedown va >>> 22)
          ((framedown va >>> 12) &&& 0x3FF) (pa ||| kernelFlags c (framedown va)) (some pa) m' A' occ' t ∧
        Fresh r m A pa m₁)
      fun _ => pd ≠ cr3 ∨ saved ≠ cr3 ∨ va < 0x80000000 ∨ r.count < A.length + 2 := by
  have hdvd : frameSize ∣ framedown va := Dvd.intro_left _ rfl
  have hle : framedown va ≤ va := Nat.div_mul_le_self _ _
  have hge : va < framedown va + frameSize := Nat.lt_div_mul_add (by simp [frameSize])
  simp only [pageFault, assert]
  split
  case isFalse hcr3 => exact .error (Or.inl hcr3)
  split
  case isFalse hsaved => exact .error (Or.inr (Or.inl hsaved))
  split
  case isFalse hlow =>
    refine .error (Or.inr (Or.inr (Or.inl ?_)))
    simp only [framedown, frameSize] at *
    omega
  case isTrue hlo =>
    simp only [ok_bind]
    refine .bind (h.alloc.weaken ?_ fun _ he => Or.inr (Or.inr (Or.inr (by omega))))
    rintro ⟨pa, m₁⟩ ⟨hL, hloose, hF⟩
    have hfirst : FirstPage c ∅ occ pd (framedown va >>> 22) (framedown va) := by
      intro hnone
      have hslot : ¬ apicSlot c (framedown va >>> 22) := fun hs =>
        C.apics pd _ (by simp [hpd]) hs hnone
      have hspecial : ¬ isSpecial c (framedown va) := by
        rw [← pageVa_split hdvd]
        exact fun hs => hslot (apicSlot_of_special (slot_private hlo) (index_lt _) hs)
      exact ⟨fun j => C.pages pd _ j hnone,
        by rw [kernelFlags_eq, if_neg hspecial, tableFlags, if_neg hslot],
        fun j hj hs => absurd (apicSlot_of_special (slot_private hlo) hj hs) hslot⟩
    refine (map_spec hL hpd hdvd hlo (hle.trans_lt hva) hfirst (Or.inl ⟨rfl, hloose⟩)).weaken ?_ ?_
    · rintro m' ⟨A', occ', t, M⟩
      exact ⟨pa, m₁, A', occ', t, M, hF⟩
    · rintro e ⟨he, -⟩
      rw [List.length_cons] at he
      exact Or.inr (Or.inr (Or.inr (by omega)))

theorem pageFault_spec (h : Layout c r low ∅ shared m A occ) (C : Closed c occ)
    (hpd : occ (.dir pd) = some pd) {va : ℕ} (hva : va < 2 ^ 32) (cr3 saved : ℕ) :
    Outcome (pageFault c cr3 saved pd va m) (fun m' => ∃ A' occ', Layout c r low ∅ shared m' A' occ' ∧
        Closed c occ' ∧ (∀ q, occ' (.dir q) = occ (.dir q)) ∧ A'.length ≤ A.length + 2)
      fun _ => pd ≠ cr3 ∨ saved ≠ cr3 ∨ va < 0x80000000 ∨ r.count < A.length + 2 := by
  refine (pageFault_mapped h C hpd hva cr3 saved).mono ?_
  rintro m' ⟨pa, m₁, A', occ', t, M, -⟩
  refine ⟨A', occ', M.layout, M.closed hpd C, fun q => M.others _ (by simp) (by simp), ?_⟩
  rcases M.held with ⟨-, rfl⟩ | ⟨-, rfl, -⟩
  · rw [List.length_cons]
    omega
  · rw [List.length_cons, List.length_cons]

theorem apicSlot_iff (V : Valid c r) (hi : 512 ≤ i) :
    apicSlot c i ↔ ∃ j < 1024, isSpecial c (pageVa i j) := by
  constructor
  · rintro (rfl | rfl)
    · exact ⟨_, index_lt c.ioAPIC, Or.inr (Or.inl (pageVa_split V.ioAligned))⟩
    · exact ⟨_, index_lt c.localAPIC, Or.inr (Or.inr (pageVa_split V.localAligned))⟩
  · rintro ⟨j, hj, hs⟩
    exact apicSlot_of_special hi hj hs

def pageRoles (c : Config) (pd i j : ℕ) : Set Role :=
  {x | x = .data pd i j ∧ ¬ isSpecial c (pageVa i j)}

def slotRoles (c : Config) (pd i : ℕ) : Set Role :=
  {x | 512 ≤ i ∧ (x ∈ ⋃ j < 1024, pageRoles c pd i j)} ∪
    {x | 512 ≤ i ∧ x = .table pd i ∧ ¬ apicSlot c i}

theorem deletePrivatePages_spec (h : Layout c r low ∅ shared m A occ)
    (ht : occ (.table pd i) = some t) :
    Outcome (deletePrivatePages c i t m) (fun s => ∃ A' occ', Layout c r low ∅ shared s.2 A' occ' ∧
      (s.1 = true ↔ ∃ j < 1024, isSpecial c (pageVa i j)) ∧
      Erases (⋃ j < 1024, pageRoles c pd i j) occ occ') E := by
  refine (Outcome.forRange (fun k s => ∃ A' occ', Layout c r low ∅ shared s.2 A' occ' ∧
    (s.1 = true ↔ ∃ j < k, isSpecial c (pageVa i j)) ∧
    Erases (⋃ j < k, pageRoles c pd i j) occ occ') ?_ ?_).mono fun s hs => by rwa [Nat.zero_add] at hs
  · refine ⟨A, occ, h, by simp, ?_⟩
    simpa using Erases.refl occ
  · rintro j ⟨found, m₁⟩ - hj ⟨A₁, occ₁, hL, hfound, hE⟩
    rw [Nat.zero_add] at hj
    rw [Set.biUnion_lt_succ]
    have ht₁ : occ₁ (.table pd i) = some t := by
      rw [(hE _).2 (by simp [pageRoles]), ht]
    by_cases hs : isSpecial c (pageVa i j)
    · rw [if_pos hs]
      refine .ok ⟨A₁, occ₁, hL, ⟨fun _ => ⟨j, by omega, hs⟩, fun _ => rfl⟩,
        hE.union (Erases.vacant ?_)⟩
      rintro x ⟨-, hn⟩
      exact absurd hs hn
    · have hfound' : found = true ↔ ∃ k < j + 1, isSpecial c (pageVa i k) := by
        simp only [hfound, Nat.lt_succ_iff_lt_or_eq, or_and_right, exists_or, exists_eq_left, hs,
          or_false]
      rw [if_neg hs]
      rcases hL.read_page ht₁ hj hs with ⟨ho, hpte⟩ | ⟨f, ho, hpte, hframe⟩
      · simp only [hpte, if_true]
        refine .ok ⟨A₁, occ₁, hL, hfound', hE.union (Erases.vacant ?_)⟩
        rintro x ⟨rfl, -⟩
        exact ho
      · have hpte' : ¬ m₁.mem (t + 4 * j) &&& 1 = 0 := by simp [hpte]
        simp only [if_neg hpte', hframe]
        have hclear := hL.clear (x := .data pd i j) (if_pos hj) trivial ht₁
          (v := 0) (Or.inl ⟨rfl, fun _ hs' => absurd hs' hs⟩)
        refine .bind ((hclear.dealloc (hL.loose_of_update ho)).mono ?_)
        rintro m₂ ⟨hL₂, -⟩
        have hroles : pageRoles c pd i j = {.data pd i j} := by
          ext x
          simp [pageRoles, hs]
        refine .ok ⟨_, _, hL₂, hfound', ?_⟩
        rw [hroles]
        exact hE.union (Erases.single occ₁ _)

theorem deletePrivateTable_spec (V : Valid c r) (h : Layout c r low ∅ shared m A occ)
    (hpd : occ (.dir pd) = some pd) (hi : 512 ≤ i ∧ i < 1024)
    (hpages : occ (.table pd i) = none → ∀ j, occ (.data pd i j) = none) :
    Outcome (deletePrivateTable c pd i m) (fun m' => ∃ A' occ', Layout c r low ∅ shared m' A' occ' ∧
      Erases (slotRoles c pd i) occ occ') E := by
  simp only [deletePrivateTable]
  rcases h.read_slot hpd hi with ⟨hnone, hpde⟩ | ⟨t, ht, hpde, hframe⟩
  · rw [if_pos hpde]
    refine .ok ⟨A, occ, h, Erases.vacant ?_⟩
    rintro x (⟨-, hx⟩ | ⟨-, rfl, -⟩)
    · simp only [pageRoles, Set.mem_iUnion] at hx
      obtain ⟨j, -, rfl, -⟩ := hx
      exact hpages hnone j
    · exact hnone
  · have hpde' : ¬ m.mem (pd + 4 * i) &&& 1 = 0 := by simp [hpde]
    rw [if_neg hpde', hframe]
    refine .bind ((deletePrivatePages_spec h ht).mono ?_)
    rintro ⟨found, m₁⟩ ⟨A₁, occ₁, hL, hfound, hE⟩
    rw [← apicSlot_iff V hi.1] at hfound
    have hset : {x | 512 ≤ i ∧ x ∈ ⋃ j < 1024, pageRoles c pd i j} =
        ⋃ j < 1024, pageRoles c pd i j := by
      simp only [hi.1, true_and, Set.ofPred_mem_eq]
    have hlast : slotRoles c pd i = (⋃ j < 1024, pageRoles c pd i j) ∪
        {x | 512 ≤ i ∧ x = .table pd i ∧ ¬ apicSlot c i} := by
      rw [slotRoles, hset]
    rw [hlast]
    have hother : ∀ x, (∀ j, x ≠ .data pd i j) → occ₁ x = occ x := fun x hx =>
      (hE x).2 fun hmem => by
        simp only [pageRoles, Set.mem_iUnion] at hmem
        obtain ⟨j, -, rfl, -⟩ := hmem
        exact hx j rfl
    cases found with
    | true =>
      have hslot : apicSlot c i := hfound.mp rfl
      refine .ok ⟨A₁, occ₁, hL, hE.union (Erases.vacant ?_)⟩
      rintro x ⟨-, -, hn⟩
      exact absurd hslot hn
    | false =>
      have hslot : ¬ apicSlot c i := fun hs => by simpa using hfound.mpr hs
      have hsingle : {x | 512 ≤ i ∧ x = .table pd i ∧ ¬ apicSlot c i} = {Role.table pd i} := by
        ext x
        simp [hi.1, hslot]
      have hpd₁ : occ₁ (.dir pd) = some pd := by rw [hother _ (by simp), hpd]
      have ht₁ : occ₁ (.table pd i) = some t := by rw [hother _ (by simp), ht]
      have hclear := hL.clear (x := .table pd i) (if_pos hi) trivial hpd₁ (v := 0) rfl
      refine (hclear.dealloc (hL.loose_of_update ht₁)).mono ?_
      rintro m₂ ⟨hL₂, -⟩
      refine ⟨_, _, hL₂, ?_⟩
      rw [hsingle]
      exact hE.union (Erases.single occ₁ _)

theorem mem_slotRoles {k : ℕ} {x : Role} (hx : x ∈ ⋃ i < k, slotRoles c pd i) :
    (∃ i j, x = .data pd i j) ∨ ∃ i, x = .table pd i ∧ ¬ apicSlot c i := by
  simp only [slotRoles, pageRoles, Set.mem_iUnion] at hx
  obtain ⟨i, -, ⟨-, hx⟩ | ⟨-, hx⟩⟩ := hx
  · obtain ⟨j, -, hx, -⟩ := hx
    exact Or.inl ⟨i, j, hx⟩
  · exact Or.inr ⟨i, hx⟩

theorem Closed.erase {occ' : Role → Option ℕ} (h : Layout c r low pending shared m A occ)
    (C : Closed c occ) (hE : Erases (⋃ i < 1024, slotRoles c pd i) occ occ') : Closed c occ' := by
  have hdir : ∀ q, occ' (.dir q) = occ (.dir q) := fun q => (hE _).2 fun hx => by
    rcases mem_slotRoles hx with ⟨i, j, hx⟩ | ⟨i, hx, -⟩ <;> cases hx
  refine ⟨fun q i hq => ?_, fun q i j hq => ?_, fun q i hq hi => ?_⟩
  · rw [hdir] at hq
    exact hE.none_of_none (C.tables q i hq)
  · by_cases hmem : Role.table q i ∈ ⋃ i < 1024, slotRoles c pd i
    · rcases mem_slotRoles hmem with ⟨i', j', hx⟩ | ⟨i', hx, hslot⟩
      · cases hx
      cases hx
      rcases h.ranged (.table pd i) with hi | hi
      · rcases h.ranged (.data pd i j) with hj | hj
        · refine (hE _).1 (Set.mem_biUnion (show i < 1024 from hi.2) (Or.inl ⟨hi.1, ?_⟩))
          exact Set.mem_biUnion (show j < 1024 from hj)
            ⟨rfl, fun hs => hslot (apicSlot_of_special hi.1 hj hs)⟩
        · exact hE.none_of_none hj
      · exact hE.none_of_none (C.pages pd i j hi)
    · rw [(hE _).2 hmem] at hq
      exact hE.none_of_none (C.pages q i j hq)
  · rw [hdir] at hq
    rw [(hE _).2 fun hx => ?_]
    · exact C.apics q i hq hi
    · rcases mem_slotRoles hx with ⟨i', j', hx⟩ | ⟨i', hx, hslot⟩
      · cases hx
      · cases hx
        exact hslot hi

theorem deletePrivate_spec (V : Valid c r) (h : Layout c r low ∅ shared m A occ) (C : Closed c occ)
    (hpd : occ (.dir pd) = some pd) (cr3 : ℕ) :
    Outcome (deletePrivate c cr3 pd m) (fun m' => ∃ A' occ', Layout c r low ∅ shared m' A' occ' ∧
      Closed c occ' ∧ Erases (⋃ i < 1024, slotRoles c pd i) occ occ') fun _ => pd ≠ cr3 := by
  simp only [deletePrivate, assert]
  split
  case isFalse hcr3 => exact .error hcr3
  case isTrue =>
    refine (Outcome.forRange (fun k m' => ∃ A' occ', Layout c r low ∅ shared m' A' occ' ∧
      Erases (⋃ i < k, slotRoles c pd i) occ occ') ?_ ?_).mono ?_
    · refine ⟨A, occ, h, Erases.vacant fun x hx => ?_⟩
      simp only [slotRoles, Set.mem_iUnion] at hx
      obtain ⟨i, hi, ⟨hlo, -⟩ | ⟨hlo, -⟩⟩ := hx <;> exact absurd hi (by omega)
    · rintro i m₁ hlo hhi ⟨A₁, occ₁, hL, hE⟩
      have hpd₁ : occ₁ (.dir pd) = some pd := by
        rw [(hE _).2 fun hx => ?_, hpd]
        rcases mem_slotRoles hx with ⟨i', j', hx⟩ | ⟨i', hx, -⟩ <;> cases hx
      have hpages : occ₁ (.table pd i) = none → ∀ j, occ₁ (.data pd i j) = none := by
        intro hn j
        rw [(hE _).2 fun hx => ?_] at hn
        · exact hE.none_of_none (C.pages pd i j hn)
        · simp only [slotRoles, pageRoles, Set.mem_iUnion] at hx
          obtain ⟨i', hi', ⟨-, hx⟩ | ⟨-, hx, -⟩⟩ := hx
          · obtain ⟨j', -, hx, -⟩ := hx
            cases hx
          · cases hx
            exact absurd hi' (lt_irrefl i)
      refine (deletePrivateTable_spec V hL hpd₁ ⟨hlo, by omega⟩ hpages).mono ?_
      rintro m₂ ⟨A₂, occ₂, hL₂, hE₂⟩
      rw [Set.biUnion_lt_succ]
      exact ⟨A₂, occ₂, hL₂, hE.union hE₂⟩
    · rintro m' ⟨A', occ', hL, hE⟩
      exact ⟨A', occ', hL, C.erase h hE, hE⟩

/-! ## Taking an address space down

`deletePd` leaves the words of the directory and of its tables as they are. The
roles are given up before the frames are freed: first that of the directory,
then, slot by slot, that of a table and those of its pages. A frame whose role
is given up stays as it was until it is freed itself.
-/

/-- The frames of `fs` are to be freed later: nobody holds them. Neither they nor the frames still
in roles have changed since `m₀`. -/
structure Doomed (m₀ m : Machine) (A : List ℕ) (occ : Role → Option ℕ) (fs : List ℕ) : Prop where
  loose : ∀ f ∈ fs, Loose {f | f ∈ A} occ f
  kept : Kept m₀ m fs
  still : ∀ x f, occ x = some f → Kept m₀ m [f]

variable {m₀ : Machine} {fs : List ℕ} {x : Role} {f : ℕ}

theorem Doomed.leak (hD : Doomed m₀ m A occ fs) :
    Doomed m₀ m A (Function.update occ x none) fs :=
  ⟨fun g hg => ⟨(hD.loose g hg).1, fun y hy =>
      (hD.loose g hg).2 y ((Erases.single occ x).some_of_some hy)⟩,
    hD.kept, fun y g hy => hD.still y g ((Erases.single occ x).some_of_some hy)⟩

theorem Doomed.doom (hD : Doomed m₀ m A occ fs) (h : Layout c r low pending shared m A occ)
    (ho : occ x = some f) : Doomed m₀ m A (Function.update occ x none) (f :: fs) := by
  refine ⟨fun g hg => ?_, fun g hg => ?_, hD.leak.still⟩
  · rcases List.mem_cons.mp hg with rfl | hg
    · exact h.loose_of_update ho
    · exact hD.leak.loose g hg
  · rcases List.mem_cons.mp hg with rfl | hg
    · exact hD.still x g ho g (List.mem_singleton_self g)
    · exact hD.kept g hg

theorem free_doomed (h : Layout c r low pending shared m A occ) (hf : f ∉ fs)
    (hD : Doomed m₀ m A occ (f :: fs)) :
    Outcome (deallocFrame m f) (fun m' => ∃ A', Layout c r low pending shared m' A' occ ∧
      Doomed m₀ m' A' occ fs) E := by
  have hloose := hD.loose f List.mem_cons_self
  have hfA := (h.tree.frames f hloose.1).1
  have hfirst : Within f f := ⟨le_rfl, Nat.lt_add_of_pos_right (by simp [frameSize])⟩
  refine (h.dealloc hloose).mono fun m' ⟨hL, hm'⟩ => ?_
  have hother : ∀ g, g ≠ f → frameSize ∣ g → ∀ a, Within g a → m'.mem a = m.mem a := by
    intro g hne hg a ha
    refine hm' a ?_
    rintro rfl
    exact hne (within_unique hg hfA ha hfirst)
  refine ⟨_, hL, fun g hg => ?_, fun g hg a ha => ?_, fun x g hx k hk a ha => ?_⟩
  · have hne : g ≠ f := fun heq => hf (heq ▸ hg)
    have hgl := hD.loose g (List.mem_cons_of_mem f hg)
    exact ⟨h.owned.nodup.mem_erase_iff.mpr ⟨hne, hgl.1⟩, hgl.2⟩
  · have hne : g ≠ f := fun heq => hf (heq ▸ hg)
    have hgl := hD.loose g (List.mem_cons_of_mem f hg)
    rw [hother g hne (h.tree.frames g hgl.1).1 a ha]
    exact hD.kept g (List.mem_cons_of_mem f hg) a ha
  · obtain rfl := List.mem_singleton.mp hk
    rw [hother k (hloose.ne hx) (h.aligned hx).1 a ha]
    exact hD.still x k hx k (List.mem_singleton_self k) a ha

end

theorem deletePages_spec {m₀ : Machine} {A₀ : List ℕ} {occ₀ : Role → Option ℕ}
    (h₀ : Layout c r low ∅ shared m₀ A₀ occ₀) (ht : occ₀ (.table pd i) = some t)
    (h : Layout c r low ∅ shared m A occ) (hD : Doomed m₀ m A occ [t, pd])
    (htable : occ (.table pd i) = none)
    (hdata : ∀ j, occ (.data pd i j) = occ₀ (.data pd i j)) :
    Outcome (deletePages c i t m) (fun m' => ∃ A' occ', Layout c r low ∅ shared m' A' occ' ∧
      Doomed m₀ m' A' occ' [t, pd] ∧ Erases (⋃ j < 1024, {Role.data pd i j}) occ occ') E := by
  refine (Outcome.forRange (fun k m' => ∃ A' occ', Layout c r low ∅ shared m' A' occ' ∧
    Doomed m₀ m' A' occ' [t, pd] ∧ Erases (⋃ j < k, {Role.data pd i j}) occ occ') ?_ ?_).mono
    fun s hs => by rwa [Nat.zero_add] at hs
  · refine ⟨A, occ, h, hD, ?_⟩
    simpa using Erases.refl occ
  · rintro j m₁ - hj ⟨A₁, occ₁, hL, hD₁, hE⟩
    rw [Nat.zero_add] at hj
    rw [Set.biUnion_lt_succ]
    have ht₁ : occ₁ (.table pd i) = none := hE.none_of_none htable
    have hj₁ : occ₁ (.data pd i j) = occ₀ (.data pd i j) := by
      rw [(hE _).2 (by simp), hdata]
    have hword : m₁.mem (t + 4 * j) = m₀.mem (t + 4 * j) :=
      hD₁.kept t List.mem_cons_self _ (within_cell t hj)
    have hparent : ∀ y k, (Role.data pd i j).parent = some (y, k) → occ₁ y = none := by
      intro y k hy
      simp only [Role.parent, if_pos hj, Option.some.injEq, Prod.mk.injEq] at hy
      rw [← hy.1, ht₁]
    have hforget := hL.forget (x := .data pd i j) trivial hparent
    have hnext := hE.union (Erases.single occ₁ (.data pd i j))
    rw [hword]
    by_cases hs : isSpecial c (pageVa i j)
    · simp only [if_pos hs, ite_self]
      exact .ok ⟨A₁, _, hforget, hD₁.leak, hnext⟩
    · simp only [if_neg hs]
      rcases h₀.read_page ht hj hs with ⟨ho, hpte⟩ | ⟨f, ho, hpte, hframe⟩
      · simp only [hpte, if_true]
        exact .ok ⟨A₁, _, hforget, hD₁.leak, hnext⟩
      · have hpte' : ¬ m₀.mem (t + 4 * j) &&& 1 = 0 := by simp [hpte]
        rw [if_neg hpte', hframe]
        rw [ho] at hj₁
        have hfresh : f ∉ [t, pd] := fun hmem => (hD₁.loose f hmem).2 _ hj₁
        refine (free_doomed hforget hfresh (hD₁.doom hL hj₁)).mono ?_
        rintro m₂ ⟨A₂, hL₂, hD₂⟩
        exact ⟨A₂, _, hL₂, hD₂, hnext⟩

def privateRoles (pd i : ℕ) : Set Role := {Role.table pd i} ∪ ⋃ j < 1024, {Role.data pd i j}

theorem deleteTable_spec {m₀ : Machine} {A₀ : List ℕ} {occ₀ : Role → Option ℕ}
    (h₀ : Layout c r low ∅ shared m₀ A₀ occ₀) (C : Closed c occ₀) (hpd : occ₀ (.dir pd) = some pd)
    (hi : 512 ≤ i ∧ i < 1024) (h : Layout c r low ∅ shared m A occ) (hD : Doomed m₀ m A occ [pd])
    (hdir : occ (.dir pd) = none) (htable : occ (.table pd i) = occ₀ (.table pd i))
    (hdata : ∀ j, occ (.data pd i j) = occ₀ (.data pd i j)) :
    Outcome (deleteTable c pd i m) (fun m' => ∃ A' occ', Layout c r low ∅ shared m' A' occ' ∧
      Doomed m₀ m' A' occ' [pd] ∧ Erases (privateRoles pd i) occ occ') E := by
  have hword : m.mem (pd + 4 * i) = m₀.mem (pd + 4 * i) :=
    hD.kept pd List.mem_cons_self _ (within_cell pd hi.2)
  simp only [deleteTable, hword]
  rcases h₀.read_slot hpd hi with ⟨hnone, hpde⟩ | ⟨t, ht, hpde, hframe⟩
  · rw [if_pos hpde]
    refine .ok ⟨A, occ, h, hD, Erases.vacant ?_⟩
    rintro x (rfl | hx)
    · rw [htable, hnone]
    · simp only [Set.mem_iUnion] at hx
      obtain ⟨j, -, rfl⟩ := hx
      rw [hdata, C.pages pd i j hnone]
  · have hpde' : ¬ m₀.mem (pd + 4 * i) &&& 1 = 0 := by simp [hpde]
    rw [if_neg hpde', hframe]
    rw [ht] at htable
    have hforget := h.forget (x := .table pd i) trivial fun y k hy => by
      simp only [Role.parent, if_pos hi, Option.some.injEq, Prod.mk.injEq] at hy
      rw [← hy.1, hdir]
    refine .bind ((deletePages_spec h₀ ht hforget (hD.doom h htable) (Function.update_self ..)
      fun j => ?_).mono ?_)
    · rw [Function.update_of_ne (by simp), hdata]
    · rintro m₁ ⟨A₁, occ₁, hL₁, hD₁, hE₁⟩
      have htpd : t ∉ [pd] := fun hmem =>
        (hD.loose t hmem).2 _ htable
      refine (free_doomed hL₁ htpd hD₁).mono ?_
      rintro m₂ ⟨A₂, hL₂, hD₂⟩
      exact ⟨A₂, occ₁, hL₂, hD₂, (Erases.single occ _).union hE₁⟩

theorem mem_privateRoles {k : ℕ} {x : Role} (hx : x ∈ ⋃ i < k, privateRoles pd i) :
    ∃ i < k, x = .table pd i ∨ ∃ j < 1024, x = .data pd i j := by
  simp only [privateRoles, Set.mem_iUnion, Set.mem_union, Set.mem_singleton_iff] at hx
  obtain ⟨i, hi, hx | ⟨j, hj, hx⟩⟩ := hx
  · exact ⟨i, hi, Or.inl hx⟩
  · exact ⟨i, hi, Or.inr ⟨j, hj, hx⟩⟩

theorem Closed.drop {occ' : Role → Option ℕ} (h : Layout c r low pending shared m A occ)
    (C : Closed c occ) (hE : Erases ({Role.dir pd} ∪ ⋃ i < 1024, privateRoles pd i) occ occ') :
    Closed c occ' := by
  have hmem : ∀ q : ℕ, q ≠ pd → ∀ x : Role, x.owner = some q →
      x ∉ ({Role.dir pd} ∪ ⋃ i < 1024, privateRoles pd i : Set Role) := by
    rintro q hq x hx (rfl | hx')
    · exact hq (by simpa [Role.owner] using hx.symm)
    · rcases mem_privateRoles hx' with ⟨i, -, rfl | ⟨j, -, rfl⟩⟩ <;>
        exact hq (by simpa [Role.owner] using hx.symm)
  have htables : ∀ i, occ' (.table pd i) = none := fun i => by
    rcases h.ranged (.table pd i) with hi | hi
    · exact (hE _).1 (Or.inr (Set.mem_biUnion (show i < 1024 from hi.2) (Or.inl rfl)))
    · exact hE.none_of_none hi
  refine ⟨fun q i hq => ?_, fun q i j hq => ?_, fun q i hq hi => ?_⟩
  · by_cases hqp : q = pd
    · rw [hqp, htables]
    · rw [(hE _).2 (hmem q hqp _ rfl)] at hq
      exact hE.none_of_none (C.tables q i hq)
  · by_cases hqp : q = pd
    · rcases h.ranged (.data q i j) with hj | hj
      · rcases h.ranged (.table q i) with hi | hi
        · subst hqp
          exact (hE _).1 (Or.inr (Set.mem_biUnion (show i < 1024 from hi.2)
            (Or.inr (Set.mem_biUnion (show j < 1024 from hj) rfl))))
        · exact hE.none_of_none (C.pages q i j hi)
      · exact hE.none_of_none hj
    · rw [(hE _).2 (hmem q hqp _ rfl)] at hq
      exact hE.none_of_none (C.pages q i j hq)
  · have hqp : q ≠ pd := by
      rintro rfl
      exact hq ((hE _).1 (Or.inl rfl))
    rw [(hE _).2 (hmem q hqp _ rfl)] at hq ⊢
    exact C.apics q i hq hi

theorem deletePd_spec (h : Layout c r low ∅ shared m A occ) (C : Closed c occ)
    (hpd : occ (.dir pd) = some pd) (cr3 : ℕ) :
    Outcome (deletePd c cr3 pd m) (fun m' => ∃ A' occ', Layout c r low ∅ shared m' A' occ' ∧
      Closed c occ' ∧ Erases ({Role.dir pd} ∪ ⋃ i < 1024, privateRoles pd i) occ occ')
      fun _ => pd = cr3 := by
  simp only [deletePd, assert]
  split
  case isFalse hcr3 => exact .error (not_not.mp hcr3)
  case isTrue =>
    have hstart : Doomed m m A (Function.update occ (.dir pd) none) [pd] :=
      Doomed.doom ⟨nofun, nofun, fun _ _ _ _ _ _ _ => rfl⟩ h hpd
    simp only [ok_bind]
    refine .bind ((Outcome.forRange (fun k m' => ∃ A' occ', Layout c r low ∅ shared m' A' occ' ∧
      Doomed m m' A' occ' [pd] ∧ Erases ({Role.dir pd} ∪ ⋃ i < k, privateRoles pd i) occ occ')
      ⟨A, _, h.forget (x := .dir pd) trivial nofun, hstart, ?_⟩ ?_).mono ?_)
    · refine (Erases.single occ _).union (Erases.vacant fun x hx => ?_)
      obtain ⟨i, hi, rfl | ⟨j, -, rfl⟩⟩ := mem_privateRoles hx
      · rw [Function.update_of_ne (by simp)]
        exact (h.ranged _).resolve_left fun hr => absurd hr.1 (by omega)
      · rw [Function.update_of_ne (by simp)]
        exact C.pages pd i j ((h.ranged _).resolve_left fun hr => absurd hr.1 (by omega))
    · rintro i m₁ hlo hhi ⟨A₁, occ₁, hL, hD, hE⟩
      have hnot : ∀ x : Role, (x = .table pd i ∨ ∃ j, x = .data pd i j) → occ₁ x = occ x := by
        intro x hx
        refine (hE x).2 ?_
        rintro (rfl | hx')
        · rcases hx with hx | ⟨j, hx⟩ <;> cases hx
        · obtain ⟨i', hi', rfl | ⟨j', -, rfl⟩⟩ := mem_privateRoles hx'
          · rcases hx with hx | ⟨j, hx⟩ <;> cases hx
            exact absurd hi' (lt_irrefl i)
          · rcases hx with hx | ⟨j, hx⟩ <;> cases hx
            exact absurd hi' (lt_irrefl i)
      refine (deleteTable_spec h C hpd ⟨hlo, by omega⟩ hL hD ((hE _).1 (Or.inl rfl))
        (hnot _ (Or.inl rfl)) fun j => hnot _ (Or.inr ⟨j, rfl⟩)).mono ?_
      rintro m₂ ⟨A₂, occ₂, hL₂, hD₂, hE₂⟩
      refine ⟨A₂, occ₂, hL₂, hD₂, ?_⟩
      rw [Set.biUnion_lt_succ, ← Set.union_assoc]
      exact hE.union hE₂
    · rintro m₁ ⟨A₁, occ₁, hL, hD, hE⟩
      refine (free_doomed hL List.not_mem_nil hD).mono ?_
      rintro m₂ ⟨A₂, hL₂, -⟩
      exact ⟨A₂, occ₁, hL₂, C.drop h hE, hE⟩

end OsShell.Vmm
