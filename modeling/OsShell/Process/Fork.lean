import OsShell.Process.Code
import OsShell.Vmm.Isolation

/-!
# What `fork` returns

The child's address space holds copies of the parent's private pages in new
frames, and its tables hold the parent's handles. Nothing else in use changes.
-/

namespace OsShell.Processes

open PhysMem Vmm Stopping FrameTree Runs

variable {F S U : Type}

/-- The number of frames `alloc_frame` can still hand out, when `fl` is the free list. -/
def freeFrames (m : Machine) (fl : List ℕ) : ℕ := fl.length + (m.limit - m.avail) / frameSize

/-- The frames `fork` takes: those of `makePd`, a table for each slot of the parent that is no
APIC's, and a page for each page of the parent that is no APIC's. -/
def forkFrames (c : Config) (m : Machine) (pd : ℕ) : ℕ :=
  makePdFrames c + ∑ i ∈ Finset.Ico 512 1024,
    if m.mem (pd + 4 * i) &&& 1 = 0 then 0 else
      (if apicSlot c i then 0 else 1) + ∑ j ∈ Finset.range 1024,
        if isSpecial c (pageVa i j) ∨ m.mem (frameOf (m.mem (pd + 4 * i)) + 4 * j) &&& 1 = 0
        then 0 else 1

def UserVa (c : Config) (va : ℕ) : Prop :=
  frameSize ∣ va ∧ 0x80000000 ≤ va ∧ va < 2 ^ 32 ∧ va ≠ c.ioAPIC ∧ va ≠ c.localAPIC

/-- The child `q` after a fork of `p`, next to the state before: `fl` was the free list. -/
structure Copies (c : Config) (s : Vmm.State) (fl : List ℕ) (p q : ℕ) (m : Machine) : Prop where
  mapped : ∀ va, UserVa c va → ((∃ f, Maps m q va f) ↔ ∃ g, Maps s.machine p va g)
  content : ∀ va f g, UserVa c va → Maps m q va f → Maps s.machine p va g →
    ∀ o < frameSize, m.mem (f + o) = s.machine.mem (g + o)
  fresh : ∀ va f, UserVa c va → Maps m q va f → f ∈ fl ∨ s.machine.avail ≤ f
  exclusive : ∀ va f, UserVa c va → Maps m q va f → ∀ x ∈ q :: s.live, ∀ va', frameSize ∣ va' →
    0x80000000 ≤ va' → va' < 2 ^ 32 → Maps m x va' f → x = q ∧ va' = va
  apics : Maps m q c.ioAPIC c.ioAPIC ∧ Maps m q c.localAPIC c.localAPIC
  unchanged : ∀ a, (∃ f, InUse c s f ∧ Within f a) ∨ c.memSize ≤ a → m.mem a = s.machine.mem a

section

variable {c : Config} {r : Pool} {low : ℕ → ℕ} {s : Vmm.State} {A : List ℕ}
  {occ : Role → Option ℕ}

theorem maps_iff (I : Inv c r low s A occ) {pd va f : ℕ} (hpd : pd ∈ s.live) (hva : UserVa c va) :
    Maps s.machine pd va f ↔ occ (.data pd (va >>> 22) ((va >>> 12) &&& 0x3FF)) = some f := by
  obtain ⟨hdvd, hlo, hhi, hio, hlocal⟩ := hva
  have hi : 512 ≤ va >>> 22 ∧ va >>> 22 < 1024 := ⟨slot_private hlo, slot_lt hhi⟩
  have hj := index_lt va
  have hs : ¬ isSpecial c (pageVa (va >>> 22) ((va >>> 12) &&& 0x3FF)) := by
    rw [special_private hi.1 hj, pageVa_split hdvd]
    exact not_or.mpr ⟨hio, hlocal⟩
  refine ⟨fun hmaps => ?_, I.maps hpd hlo hhi hs⟩
  obtain ⟨hpde, hpte, rfl⟩ := hmaps
  obtain ⟨t, ht, hframe, ⟨f, flags, hf, hf', -, -⟩ | ⟨-, hs', -⟩⟩ := I.walk hpd hi hj hpde hpte
  · rw [pteAt, hframe, hf', hf]
  · exact absurd hs' hs

theorem maps_apic (I : Inv c r low s A occ) {pd va : ℕ} (hpd : pd ∈ s.live) (hdvd : frameSize ∣ va)
    (hlo : 0x80000000 ≤ va) (hhi : va < 2 ^ 32) (hva : va = c.ioAPIC ∨ va = c.localAPIC)
    (hbare : occ (.data pd (va >>> 22) ((va >>> 12) &&& 0x3FF)) = none) :
    Maps s.machine pd va va := by
  have hi : 512 ≤ va >>> 22 ∧ va >>> 22 < 1024 := ⟨slot_private hlo, slot_lt hhi⟩
  have hj := index_lt va
  have hsplit := pageVa_split hdvd
  have hslot : apicSlot c (va >>> 22) := by
    rcases hva with rfl | rfl
    exacts [Or.inl rfl, Or.inr rfl]
  have hs : isSpecial c va := Or.inr hva
  have hdir := (I.live pd).mp hpd
  simp only [Maps, pteAt]
  generalize va >>> 22 = i at *
  generalize (va >>> 12) &&& 0x3FF = j at *
  rcases I.layout.read_slot hdir hi with ⟨hnone, -⟩ | ⟨t, ht, hpde, hframe⟩
  · exact absurd hnone (I.closed.apics pd i (by simp [hdir]) hslot)
  · have hframe' : frameOf (s.machine.mem (pd + 4 * i)) = t := hframe
    rw [hframe']
    have hword : s.machine.mem (t + 4 * j) = va ||| 3 := by
      rcases I.layout.tree.entry (.data pd i j) (.table pd i) j t (if_pos hj) ht with
        ⟨-, hp⟩ | ⟨-, -, he⟩
      · exact absurd (hp hbare (by rwa [hsplit])) (Set.notMem_empty _)
      · rw [← hsplit]
        exact he
    refine ⟨hpde, ?_, ?_⟩
    · rw [hword]
      exact or_flags_present hdvd (Or.inl rfl)
    · rw [hword]
      exact (or_flags_frame hdvd hhi (Or.inl rfl)).symm

theorem userVa_role {va : ℕ} (hva : UserVa c va) :
    (512 ≤ va >>> 22 ∧ va >>> 22 < 1024) ∧
      ¬ isSpecial c (pageVa (va >>> 22) ((va >>> 12) &&& 0x3FF)) := by
  obtain ⟨hdvd, hlo, hhi, hio, hlocal⟩ := hva
  refine ⟨⟨slot_private hlo, slot_lt hhi⟩, ?_⟩
  rw [special_private (slot_private hlo) (index_lt va), pageVa_split hdvd]
  exact not_or.mpr ⟨hio, hlocal⟩

theorem forkFrames_eq (I : Inv c r low s A occ) {p q : ℕ} (hp : p ∈ s.live) {m₁ : Machine}
    {A₁ : List ℕ} {occ₁ : Role → Option ℕ} (hpq : p ≠ q)
    (N : NewSpace c r low s.shared s.machine A occ q m₁ A₁ occ₁) :
    forkFrames c s.machine p = makePdFrames c + copyCost c p q occ₁ := by
  rw [forkFrames, copyCost]
  refine congrArg (makePdFrames c + ·) (Finset.sum_congr rfl fun i hi => ?_)
  have hi' : 512 ≤ i ∧ i < 1024 := Finset.mem_Ico.mp hi
  have htable : occ₁ (.table p i) = occ (.table p i) :=
    N.others _ (by simpa [Role.owner] using hpq)
  have hdata : ∀ j, occ₁ (.data p i j) = occ (.data p i j) := fun j =>
    N.others _ (by simpa [Role.owner] using hpq)
  rcases I.layout.read_slot ((I.live p).mp hp) hi' with ⟨hnone, hpde⟩ | ⟨t, ht, hpde, hframe⟩
  · have hnodata := fun j => I.closed.pages p i j hnone
    rw [if_pos hpde]
    simp [slotCost, pageCost, htable, hdata, hnone, hnodata]
  · have hframe' : frameOf (s.machine.mem (p + 4 * i)) = t := hframe
    have hslot := N.tables i
    rw [if_neg (by simp [hpde]), slotCost, hframe', htable, ht]
    refine congrArg₂ (· + ·) ?_ (Finset.sum_congr rfl fun j hj => ?_)
    · by_cases hs : apicSlot c i
      · rw [if_pos hs, if_pos (Or.inl fun hn => hslot.mp hn hs)]
      · rw [if_neg hs, if_neg (by simp [hslot.mpr hs])]
    · rw [pageCost, N.bare, hdata]
      refine if_congr ?_ rfl rfl
      by_cases hs : isSpecial c (pageVa i j)
      · simp [hs]
      · rcases I.layout.read_page ht (Finset.mem_range.mp hj) hs with ⟨hn, hpte⟩ | ⟨f, hf, hpte, -⟩
        · simp [hn, hpte]
        · simp [hs, hf, hpte]

theorem copies_of_copying (P : Platform c) (hstart : r.start = vmmFrames)
    (hcount : frameSize * r.count = poolSize c) (I : Inv c r low s A occ) {p q : ℕ}
    (hp : p ∈ s.live) (hpq : p ≠ q) {m₁ m₂ : Machine} {A₁ A₂ : List ℕ} {occ₁ occ₂ : Role → Option ℕ}
    (N : NewSpace c r low s.shared s.machine A occ q m₁ A₁ occ₁)
    (K : Copying c r low s.shared p q m₁ A₁ occ₁ (Set.Ico 512 1024)
      (Set.Ico 512 1024 ×ˢ Set.Iio 1024) m₂ A₂ occ₂)
    (I₂ : Inv c r low ⟨m₂, s.shared, q :: s.live⟩ A₂ occ₂) {fl : List ℕ}
    (hfl : FreeList s.machine.mem s.machine.firstFree fl) : Copies c s fl p q m₂ := by
  have hq₂ : q ∈ q :: s.live := List.mem_cons_self
  have V := P.valid hstart hcount
  have hge := P.memSize_ge
  have hmem := P.memSize
  have hparent : ∀ i j, occ₁ (.data p i j) = occ (.data p i j) := fun i j =>
    N.others _ (by simpa [Role.owner] using hpq)
  -- what the copy did with one page
  have hpage : ∀ va, UserVa c va →
      (occ (.data p (va >>> 22) ((va >>> 12) &&& 0x3FF)) = none ∧
        occ₂ (.data q (va >>> 22) ((va >>> 12) &&& 0x3FF)) = none) ∨
      ∃ f g, occ (.data p (va >>> 22) ((va >>> 12) &&& 0x3FF)) = some g ∧
        occ₂ (.data q (va >>> 22) ((va >>> 12) &&& 0x3FF)) = some f ∧ f ∉ A₁ ∧
        ∀ o < frameSize, m₂.mem (f + o) = m₁.mem (g + o) := by
    intro va hva
    obtain ⟨hi, hs⟩ := userVa_role hva
    have hdone := K.pageDone _ _ ⟨hi, index_lt va⟩
    rw [Copied, N.bare, hparent] at hdone
    split at hdone
    case isTrue hcase =>
      exact Or.inl ⟨(hcase.resolve_left hs).resolve_left (by simp), hdone⟩
    case isFalse => exact Or.inr hdone
  have hstill : ∀ f ∈ A, ∀ a, Within f a → m₂.mem a = s.machine.mem a := by
    intro f hf a ha
    rw [K.kept f (N.subset f hf) (fun heq => N.fresh (heq ▸ hf))
      (fun i hi => N.newTables i f hi hf) f (List.mem_singleton_self f) a ha]
    exact N.kept f hf a ha
  have hmapsq : ∀ va f, UserVa c va → (Maps m₂ q va f ↔
      occ₂ (.data q (va >>> 22) ((va >>> 12) &&& 0x3FF)) = some f) :=
    fun va f hva => maps_iff I₂ hq₂ hva
  have hmapsp : ∀ va g, UserVa c va → (Maps s.machine p va g ↔
      occ (.data p (va >>> 22) ((va >>> 12) &&& 0x3FF)) = some g) :=
    fun va g hva => maps_iff I hp hva
  have hend : r.start + frameSize * r.count = c.memSize := by
    rw [hstart, hcount]
    simp only [poolSize, vmmFrames] at *
    omega
  have hbare : ∀ va, (va = c.ioAPIC ∨ va = c.localAPIC) → frameSize ∣ va → 0x80000000 ≤ va →
      va < 2 ^ 32 → Maps m₂ q va va := by
    intro va hva hdvd hlo hhi
    refine maps_apic I₂ hq₂ hdvd hlo hhi hva ?_
    have hdone := K.pageDone (va >>> 22) ((va >>> 12) &&& 0x3FF)
      ⟨⟨slot_private hlo, slot_lt hhi⟩, index_lt va⟩
    have hs : isSpecial c va := Or.inr hva
    rw [Copied, pageVa_split hdvd, if_pos (Or.inl hs), N.bare] at hdone
    exact hdone
  refine ⟨fun va hva => ?_, fun va f g hva hf hg => ?_, fun va f hva hf => ?_,
    fun va f hva hf x hx va' hdvd' hlo' hhi' hf' => ?_,
    ⟨hbare _ (Or.inl rfl) P.ioAligned P.ioPrivate P.ioWord,
      hbare _ (Or.inr rfl) P.localAligned P.localPrivate P.localWord⟩, fun a ha => ?_⟩
  · simp only [hmapsq va _ hva, hmapsp va _ hva]
    rcases hpage va hva with ⟨hp', hq'⟩ | ⟨f, g, hg, hf, -, -⟩
    · simp [hp', hq']
    · simp [hg, hf]
  · rw [hmapsq va f hva] at hf
    rw [hmapsp va g hva] at hg
    rcases hpage va hva with ⟨-, hq'⟩ | ⟨f', g', hg', hf', -, hcont⟩
    · rw [hq'] at hf
      cases hf
    · rw [hf] at hf'
      rw [hg] at hg'
      cases hf'
      cases hg'
      intro o ho
      rw [hcont o ho]
      exact N.kept g (I.layout.tree.held _ g hg) (g + o) ⟨by omega, by omega⟩
  · rw [hmapsq va f hva] at hf
    rcases hpage va hva with ⟨-, hq'⟩ | ⟨f', g', -, hf', hnew, -⟩
    · rw [hq'] at hf
      cases hf
    · rw [hf] at hf'
      cases hf'
      obtain ⟨fl₀, k, hH⟩ := I.layout.owned
      obtain rfl := hfl.unique hH.list
      obtain ⟨fl₂, k₂, hH₂⟩ := I₂.layout.owned
      obtain ⟨i, hi, rfl⟩ := Pool.mem_frames.mp (hH₂.perm.mem_iff.mp
        (List.mem_append_left _ (I₂.layout.tree.held _ f hf)))
      by_cases hik : i < k
      · have hmemk := hH.perm.mem_iff.mpr (Pool.mem_frames.mpr ⟨i, hik, rfl⟩)
        rcases List.mem_append.mp hmemk with hA | hfree
        · exact absurd (N.subset _ hA) hnew
        · exact Or.inl hfree
      · refine Or.inr ?_
        have hmod : s.machine.avail ≤ r.frame k := by
          rw [hH.avail]
          exact Nat.mod_le _ _
        refine hmod.trans ?_
        simp only [Pool.frame]
        have := Nat.mul_le_mul_left frameSize (Nat.le_of_not_lt hik)
        omega
  · rw [hmapsq va f hva] at hf
    have hfA := I₂.layout.tree.held _ f hf
    obtain ⟨hpde, hpte, hff⟩ := hf'
    have hi' : 512 ≤ va' >>> 22 ∧ va' >>> 22 < 1024 := ⟨slot_private hlo', slot_lt hhi'⟩
    obtain ⟨t, ht, hframe, hcase⟩ := I₂.walk hx hi' (index_lt va') hpde hpte
    simp only [pteAt] at hff
    rw [hframe] at hff
    rcases hcase with ⟨g, flags, hg, hg', -, -⟩ | ⟨-, hs, he⟩
    · rw [hg'] at hff
      subst hff
      have heq := I₂.layout.tree.inj _ _ f hg hf
      simp only [Role.data.injEq] at heq
      refine ⟨heq.1, ?_⟩
      rw [← pageVa_split hdvd', heq.2.1, heq.2.2, pageVa_split hva.1]
    · rw [pageVa_split hdvd'] at he
      rw [he, frameOf, or_flags_frame hdvd' hhi' (Or.inl rfl)] at hff
      have := I₂.below V hfA
      simp only [frameSize] at this
      omega
  · rcases ha with ⟨f, hf, ha⟩ | ha
    · obtain ⟨ρ, hρ⟩ := I.role_of_inUse hf
      exact hstill f (I.layout.tree.held ρ f (I.plays P hρ)) a ha
    · rw [K.outside a (by omega), N.outside a (by omega)]

theorem freeFrames_eq (V : Valid c r) (hO : Owned r s.machine A) {fl : List ℕ}
    (hfl : FreeList s.machine.mem s.machine.firstFree fl) :
    A.length + freeFrames s.machine fl = r.count := by
  obtain ⟨fl₀, k, hH⟩ := hO
  obtain rfl := hfl.unique hH.list
  have hlen := hH.length
  have hle := hH.le
  have hend := V.poolEnd
  have hk : frameSize * k ≤ frameSize * r.count := Nat.mul_le_mul_left _ hle
  have havail : s.machine.avail = r.frame k := by
    rw [hH.avail]
    refine Nat.mod_eq_of_lt ?_
    simp only [Pool.frame]
    omega
  have hlimit : s.machine.limit = r.frame r.count := by
    rw [hH.limit]
    refine Nat.mod_eq_of_lt ?_
    simp only [Pool.frame]
    omega
  have hdiv : (s.machine.limit - s.machine.avail) / frameSize = r.count - k := by
    rw [havail, hlimit, Pool.frame, Pool.frame, Nat.add_sub_add_left, ← Nat.mul_sub]
    exact Nat.mul_div_cancel_left _ (by simp [frameSize])
  rw [freeFrames, hdiv]
  omega

end

theorem find_free {children : Fin 10 → Option U} {index : Fin 10} (hfree : children index = none)
    (hlow : ∀ k < index, children k ≠ none) :
    (List.finRange 10).find? (fun i => (children i).isNone) = some index := by
  rw [List.find?_eq_some_iff_getElem]
  refine ⟨by simp [hfree], index.val, by simp, by simp, fun j hj => ?_⟩
  have := hlow ⟨j, by omega⟩ hj
  simpa [Option.isSome_iff_ne_none] using this

theorem fork_spec {c : Config} {r : Pool} {low : ℕ → ℕ} {s : Vmm.State} {A : List ℕ}
    {occ : Role → Option ℕ} (P : Platform c) (hstart : r.start = vmmFrames)
    (hcount : frameSize * r.count = poolSize c) (I : Inv c r low s A occ) (p : Process F S U)
    (hp : p.pd ∈ s.live) (output : U) {fl : List ℕ}
    (hfl : FreeList s.machine.mem s.machine.firstFree fl)
    (henough : forkFrames c s.machine p.pd ≤ freeFrames s.machine fl) {index : Fin 10}
    (hfree : p.children index = none) (hlow : ∀ k < index, p.children k ≠ none) :
    ∃ child m₁ m, makePd c s.shared s.machine = .ok (child.pd, m₁) ∧
      copyPrivate p.pd child.pd m₁ = .ok m ∧ child.pd ∉ A ∧
      fork c s.shared output p s.machine = .ok ⟨((PROC ||| index.val : ℕ) : ℤ), some child,
        { p with children := Function.update p.children index (some child.output) }, m⟩ ∧
      Copies c s fl p.pd child.pd m ∧ child.files = p.files ∧ child.sems = p.sems ∧
      child.children = (fun _ => none) ∧ child.output = output := by
  have V := P.valid hstart hcount
  have hcap := freeFrames_eq V I.layout.owned hfl
  have hfork : makePdFrames c ≤ forkFrames c s.machine p.pd := Nat.le_add_right _ _
  obtain ⟨⟨q, m₁⟩, hmake, A₁, occ₁, N⟩ :=
    ((makePd_spec V I.layout I.closed).weaken (fun _ h => h) fun _ _ => by omega).returns
  have N : NewSpace c r low s.shared s.machine A occ q m₁ A₁ occ₁ := N
  have hpA : p.pd ∈ A := I.layout.tree.held _ _ ((I.live p.pd).mp hp)
  have hpq : p.pd ≠ q := fun heq => N.fresh (heq ▸ hpA)
  have I₁ := I.made N
  have hp₁ : p.pd ∈ q :: s.live := List.mem_cons_of_mem q hp
  have hcost := forkFrames_eq I hp hpq N
  have hlen := N.length
  obtain ⟨m₂, hcopy, A₂, occ₂, K, -⟩ :=
    ((copyPrivate_spec N.layout N.closed ((I₁.live _).mp hp₁) N.dir hpq).weaken (fun _ h => h)
      fun _ _ => by omega).returns
  have I₂ : Inv c r low ⟨m₂, s.shared, q :: s.live⟩ A₂ occ₂ :=
    I₁.next K.layout (K.closed N.layout N.closed N.dir) fun x => K.others _ (by simp) (by simp)
  refine ⟨{ files := p.files, sems := p.sems, children := fun _ => none, output, pd := q }, m₁, m₂,
    hmake, hcopy, N.fresh, ?_, copies_of_copying P hstart hcount I hp hpq N K I₂ hfl, rfl, rfl, rfl,
    rfl⟩
  have hsems : (fun i => if (p.sems i).isSome then p.sems i else none) = p.sems := by
    funext i
    cases hi : p.sems i <;> simp
  simp only [fork, find_free hfree hlow, make, hmake, ok_bind, pure, Except.pure, hcopy, hsems]

/-- Every fork of a live process, in every state of every run: with a free child slot and enough
frames it returns a copy, and without a slot it changes nothing. -/
theorem reachable_fork {c : Config} (P : Platform c) {s : Vmm.State}
    (h : Reachable (Init c) (Step c) s) (p : Process F S U) (hp : p.pd ∈ s.live) (output : U) :
    ((∀ i, p.children i ≠ none) →
      fork c s.shared output p s.machine = .ok ⟨-1, none, p, s.machine⟩) ∧
    ∀ fl, FreeList s.machine.mem s.machine.firstFree fl →
      forkFrames c s.machine p.pd ≤ freeFrames s.machine fl →
      ∀ index, p.children index = none → (∀ k < index, p.children k ≠ none) →
      ∃ child m, fork c s.shared output p s.machine = .ok ⟨((PROC ||| index.val : ℕ) : ℤ),
          some child, { p with children := Function.update p.children index (some child.output) }, m⟩ ∧
        Copies c s fl p.pd child.pd m ∧ child.files = p.files ∧ child.sems = p.sems ∧
        child.children = (fun _ => none) ∧ child.output = output ∧ child.pd ∉ s.live ∧
        Reachable (Init c) (Step c) ⟨m, s.shared, child.pd :: s.live⟩ := by
  obtain ⟨r, ⟨hstart, hcount⟩, low, A, occ, I⟩ := inv_of_reachable P h
  refine ⟨fun hall => ?_, fun fl hfl henough index hfree hlow => ?_⟩
  · have hnone : (List.finRange 10).find? (fun i => (p.children i).isNone) = none := by
      rw [List.find?_eq_none]
      intro i _
      simpa using hall i
    simp only [fork, hnone]
  · obtain ⟨child, m₁, m, hmake, hcopy, hnew, hfork, hcopies, hfiles, hsems, hchildren, hout⟩ :=
      fork_spec P hstart hcount I p hp output hfl henough hfree hlow
    have hfresh : child.pd ∉ s.live := fun hmem =>
      hnew (I.layout.tree.held _ _ ((I.live _).mp hmem))
    refine ⟨child, m, hfork, hcopies, hfiles, hsems, hchildren, hout, hfresh, ?_⟩
    have hmade : Reachable (Init c) (Step c) ⟨m₁, s.shared, child.pd :: s.live⟩ :=
      h.step (.makePd hmake)
    exact hmade.step (.copyPrivate p.pd child.pd (List.mem_cons_of_mem _ hp) List.mem_cons_self
      (fun heq => hfresh (heq ▸ hp)) hcopy)

theorem forkFrames_le {c : Config} {r : Pool} {low : ℕ → ℕ} {s : Vmm.State} {A : List ℕ}
    {occ : Role → Option ℕ} (I : Inv c r low s A occ) {pd : ℕ} (hpd : pd ∈ s.live) :
    forkFrames c s.machine pd ≤ makePdFrames c + A.length := by
  refine Nat.add_le_add_left (le_trans ?_ (card_roles_le I pd (Finset.Ico 512 1024)
    (Finset.range 1024))) _
  rw [Finset.card_filter, Finset.card_filter, Finset.sum_product, ← Finset.sum_add_distrib]
  refine Finset.sum_le_sum fun i hi => ?_
  rcases I.layout.read_slot ((I.live pd).mp hpd) (Finset.mem_Ico.mp hi) with
    ⟨-, hpde⟩ | ⟨t, ht, hpde, hframe⟩
  · rw [if_pos hpde]
    exact Nat.zero_le _
  · have hframe' : frameOf (s.machine.mem (pd + 4 * i)) = t := hframe
    have htable : occ (.table pd i) ≠ none := by
      rw [ht]
      nofun
    rw [if_neg (hpde.trans_ne Nat.one_ne_zero), hframe', if_pos htable]
    refine Nat.add_le_add (by split <;> omega) (Finset.sum_le_sum fun j hj => ?_)
    split
    · exact Nat.zero_le _
    · rename_i hpage
      obtain ⟨hs, hpte⟩ := not_or.mp hpage
      rcases I.layout.read_page ht (Finset.mem_range.mp hj) hs with ⟨-, hnone⟩ | ⟨f, hf, -, -⟩
      · exact absurd hnone hpte
      · have hdata : occ (.data pd i j) ≠ none := by
          rw [hf]
          nofun
        rw [if_pos hdata]

theorem enough_of_small {s : Vmm.State} {n : ℕ} {pages : List (ℕ × ℕ)} (h : SmallRun s n pages)
    (hn : n ≤ 1000) {pd : ℕ} (hpd : pd ∈ s.live) :
    ∃ fl, FreeList s.machine.mem s.machine.firstFree fl ∧
      forkFrames smallConfig s.machine pd ≤ freeFrames s.machine fl := by
  obtain ⟨r, low, A, occ, hr, hcount, I, hlen, -⟩ := h.inv
  obtain ⟨fl, hfl, -⟩ := I.layout.owned.freeList
  have hfree := freeFrames_eq (smallPlatform.valid hr.1 hr.2) I.layout.owned hfl
  have hneed := forkFrames_le I hpd
  have hmake : makePdFrames smallConfig = 2 := rfl
  exact ⟨fl, hfl, by omega⟩

/-- A process with a page that it has written to forks: the child gets slot 0. -/
theorem small_fork : ∃ (s : Vmm.State) (p child : Process ℕ ℕ ℕ) (m : Machine) (g : ℕ), ∃ fl,
    UserVa smallConfig 0x80000000 ∧ Maps s.machine p.pd 0x80000000 g ∧ s.machine.mem g = 42 ∧
    fork smallConfig s.shared 7 p s.machine = .ok ⟨0x10000000, some child,
      { p with children := Function.update p.children 0 (some child.output) }, m⟩ ∧
    Copies smallConfig s fl p.pd child.pd m ∧ child.files = p.files ∧ child.sems = p.sems ∧
    child.children = (fun _ => none) ∧ child.output = 7 ∧ child.pd ∉ s.live ∧
    Reachable (Init smallConfig) (Step smallConfig) ⟨m, s.shared, child.pd :: s.live⟩ := by
  obtain ⟨s₀, pd, h, hlive⟩ := small_process
  have hpd : pd ∈ s₀.live := by simp [hlive]
  obtain ⟨m₁, -, h⟩ := h.fault 0x80000000 (by decide) hpd (by decide) (by decide)
  obtain ⟨g, m₂, h, hg, hvalue⟩ := h.write List.mem_cons_self (by decide) (by decide) (by decide) 42
  obtain ⟨fl, hfl, henough⟩ := enough_of_small h (by decide) hpd
  let p : Process ℕ ℕ ℕ := ⟨fun i => some i, fun _ => none, fun _ => none, 5, pd⟩
  obtain ⟨child, m, hfork⟩ := (reachable_fork smallPlatform h.reachable p hpd 7).2 fl hfl henough 0 rfl
    fun k hk => absurd hk (Nat.not_lt_zero _)
  exact ⟨_, p, child, m, g, fl, ⟨by decide, by decide, by decide, by decide, by decide⟩, hg, hvalue,
    hfork⟩

end OsShell.Processes
