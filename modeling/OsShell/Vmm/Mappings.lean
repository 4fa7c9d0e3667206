import OsShell.Vmm.Accounting

/-!
# Mappings stay

The pages of the APICs are mapped to themselves by `makePd`, and what is mapped
is not moved. Both hold as long as faults are taken where no page is present:
the handler maps a new frame whatever it finds.
-/

namespace OsShell.Vmm

open PhysMem Stopping FrameTree Runs

/-- A page that is present before and after is at the same frame. -/
def Keeps (s t : State) : Prop :=
  ∀ pd ∈ s.live, pd ∈ t.live → ∀ va < 2 ^ 32, ∀ f f', Maps s.machine pd va f →
    Maps t.machine pd va f' → f' = f

section

variable {c : Config} {r : Pool} {low : ℕ → ℕ} {occ₀ : Role → Option ℕ} {s t : State}
  {A A' : List ℕ} {occ occ' : Role → Option ℕ}

theorem Filled.maps_iff (F : Filled c r low occ₀ s A occ) {pd va f : ℕ} (hpd : pd ∈ s.live)
    (hlo : 0x80000000 ≤ va) (hva : va < 2 ^ 32) : Maps s.machine pd va f ↔
      occ (.data pd (va >>> 22) ((va >>> 12) &&& 0x3FF)) = some f ∨
        isSpecial c (pageVa (va >>> 22) ((va >>> 12) &&& 0x3FF)) ∧
          f = pageVa (va >>> 22) ((va >>> 12) &&& 0x3FF) := by
  have hi : 512 ≤ va >>> 22 ∧ va >>> 22 < 1024 := ⟨slot_private hlo, slot_lt hva⟩
  have hj := index_lt va
  have hdir := (F.inv.live pd).mp hpd
  simp only [Maps, pteAt]
  generalize va >>> 22 = i at *
  generalize (va >>> 12) &&& 0x3FF = j at *
  have hself : frameOf (pageVa i j ||| 3) = pageVa i j :=
    or_flags_frame (pageVa_aligned i hj) (by rw [pageVa_eq hj]; omega) (Or.inl rfl)
  -- a table that is there is found by the walk
  have htable : ∀ t, occ (.table pd i) = some t →
      present (s.machine.mem (pd + 4 * i)) ∧ frameOf (s.machine.mem (pd + 4 * i)) = t := by
    intro t ht
    rcases F.inv.layout.read_slot hdir hi with ⟨hnone, -⟩ | ⟨t', ht', hpde, hframe⟩
    · rw [hnone] at ht
      cases ht
    · rw [ht'] at ht
      cases ht
      exact ⟨hpde, hframe⟩
  constructor
  · rintro ⟨hpde, hpte, rfl⟩
    obtain ⟨t, -, hframe, ⟨f, flags, hf, hf', -, -⟩ | ⟨-, hs, he⟩⟩ :=
      F.inv.walk hpd hi hj hpde hpte
    · exact Or.inl (by rw [hframe, hf', hf])
    · exact Or.inr ⟨hs, by rw [hframe, he, hself]⟩
  · rintro (hf | ⟨hs, rfl⟩)
    · have hs : ¬ isSpecial c (pageVa i j) := fun hs => by
        rw [F.plain pd i j hs] at hf
        cases hf
      have hne : occ (.table pd i) ≠ none := fun hn => by
        rw [F.inv.closed.pages pd i j hn] at hf
        cases hf
      obtain ⟨t, ht⟩ := Option.ne_none_iff_exists'.mp hne
      obtain ⟨hpde, hframe⟩ := htable t ht
      rw [hframe]
      rcases F.inv.layout.read_page ht hj hs with ⟨hnone, -⟩ | ⟨g, hg, hpte, hg'⟩
      · rw [hnone] at hf
        cases hf
      · rw [hg] at hf
        cases hf
        exact ⟨hpde, hpte, hg'.symm⟩
    · obtain ⟨t, ht⟩ := Option.ne_none_iff_exists'.mp
        (F.inv.closed.apics pd i (by simp [hdir]) (apicSlot_of_special hi.1 hj hs))
      obtain ⟨hpde, hframe⟩ := htable t ht
      rw [hframe]
      have hword : s.machine.mem (t + 4 * j) = pageVa i j ||| 3 := by
        rcases F.inv.layout.tree.entry (.data pd i j) (.table pd i) j t (if_pos hj) ht with
          ⟨-, hp⟩ | ⟨-, -, he⟩
        · exact absurd (hp (F.plain pd i j hs) hs) (Set.notMem_empty _)
        · exact he
      rw [hword, hself]
      exact ⟨hpde, or_flags_present (pageVa_aligned i hj) (Or.inl rfl), rfl⟩

theorem Filled.pteAt_low (F : Filled c r low occ₀ s A occ) (F' : Filled c r low occ₀ t A' occ')
    (hK : SharedKept occ s.machine t.machine) {pd va : ℕ} (hpd : pd ∈ s.live) (hpd' : pd ∈ t.live)
    (hlo : va < 0x80000000) (hpde : present (s.machine.mem (pd + 4 * (va >>> 22)))) :
    pteAt t.machine pd va = pteAt s.machine pd va := by
  have hi : va >>> 22 < 512 := by
    rw [Nat.shiftRight_eq_div_pow]
    omega
  have hj := index_lt va
  have hentry := F.inv.alias_entry hpd hi
  have hsame : t.machine.mem (pd + 4 * (va >>> 22)) = s.machine.mem (pd + 4 * (va >>> 22)) := by
    rw [hentry, F'.inv.alias_entry hpd' hi, F.shared _ rfl, F'.shared _ rfl]
  have hocc := (F.inv.read_low (by omega) hentry hpde).1
  rw [pteAt, pteAt, hsame]
  exact hK _ _ rfl hocc _ (List.mem_singleton_self _) _ (within_cell _ hj)

theorem Filled.keeps (F : Filled c r low occ₀ s A occ) (F' : Filled c r low occ₀ t A' occ')
    (hK : SharedKept occ s.machine t.machine)
    (hpages : ∀ x f f', occ x = some f → occ' x = some f' → f' = f) : Keeps s t := by
  intro pd hpd hpd' va hva f f' hf hf'
  by_cases hlo : va < 0x80000000
  · rw [hf.2.2, hf'.2.2, F.pteAt_low F' hK hpd hpd' hlo hf.1]
  · rw [F.maps_iff hpd (by omega) hva] at hf
    rw [F'.maps_iff hpd' (by omega) hva] at hf'
    rcases hf with hf | ⟨hs, rfl⟩
    · rcases hf' with hf' | ⟨hs, -⟩
      · exact hpages _ f f' hf hf'
      · rw [F.plain _ _ _ hs] at hf
        cases hf
    · rcases hf' with hf' | ⟨-, rfl⟩
      · rw [F'.plain _ _ _ hs] at hf'
        cases hf'
      · rfl

theorem Filled.sharedKept_of_words (F : Filled c r low occ₀ s A occ) (keep : ℕ → Bool) {pd : ℕ}
    {m : Machine} (hpd : pd ∈ s.live)
    (hwords : ∀ a, a ∉ (privateWords c keep pd s.machine).map Prod.fst →
      a ∉ (privateWords c keep pd s.machine).map Prod.snd → a ≠ pd → m.mem a = s.machine.mem a) :
    SharedKept occ s.machine m := by
  have hdir := (F.inv.live pd).mp hpd
  intro x f hx hxf g hg a ha
  obtain rfl := List.mem_singleton.mp hg
  have hself : ∀ f, Within f f := fun f => ⟨le_rfl, Nat.lt_add_of_pos_right (by simp [frameSize])⟩
  have hapart : ∀ y h, y.owner = some pd → occ y = some h → ¬ Within h a := fun y h hy hyh =>
    F.inv.layout.not_within_of_ne hyh hxf (by rintro rfl; rw [hx] at hy; cases hy) ha
  have hboth : ∀ w ∈ privateWords c keep pd s.machine, a ≠ w.1 ∧ a ≠ w.2 := by
    intro w hw
    rw [privateWords_eq F.inv.layout F.inv.closed hdir] at hw
    obtain ⟨y, hy, hyw⟩ := List.mem_filterMap.mp hw
    obtain ⟨z, k, h, e, hparent, hz, he, rfl⟩ := wordOf_eq_some.mp hyw
    have hzo : z.owner = some pd := by
      obtain ⟨i, hi, ⟨j, hj, -, rfl⟩ | ⟨-, rfl⟩⟩ := mem_roleList.mp hy
      · simp only [Role.parent, if_pos hj, Option.some.injEq, Prod.mk.injEq] at hparent
        rw [← hparent.1]
        rfl
      · simp only [Role.parent, if_pos hi, Option.some.injEq, Prod.mk.injEq] at hparent
        rw [← hparent.1]
        rfl
    refine ⟨?_, ?_⟩
    · rintro rfl
      exact hapart z h hzo hz (within_cell h (Role.parent_lt hparent))
    · rintro rfl
      exact hapart y _ (owner_of_roleList hy) he (hself _)
  refine hwords a (fun hmem => ?_) (fun hmem => ?_) ?_
  · obtain ⟨w, hw, heq⟩ := List.mem_map.mp hmem
    exact (hboth w hw).1 heq.symm
  · obtain ⟨w, hw, heq⟩ := List.mem_map.mp hmem
    exact (hboth w hw).2 heq.symm
  · rintro rfl
    exact hapart (.dir a) a rfl hdir (hself a)

theorem Balanced.keeps {b b' : Ledger} (B : Balanced c r low occ₀ b A occ) (V : Valid c r)
    (h : Ledger.Step c b b') : Keeps b.state b'.state := by
  have F := B.filled
  have hgrow : ∀ {occ' : Role → Option ℕ}, (∀ x f, occ x = some f → occ' x = some f) →
      ∀ x f f', occ x = some f → occ' x = some f' → f' = f := fun hkeep x f f' hf hf' => by
    rw [hkeep x f hf] at hf'
    exact (Option.some.inj hf').symm
  have hshrink : ∀ {occ' : Role → Option ℕ}, (∀ x f, occ' x = some f → occ x = some f) →
      ∀ x f f', occ x = some f → occ' x = some f' → f' = f := fun hstay x f f' hf hf' => by
    rw [hstay x f' hf'] at hf
    exact Option.some.inj hf
  cases h with
  | @makePd s got gave pd m hcall =>
    obtain ⟨A', occ', N⟩ := (makePd_spec V F.inv.layout F.inv.closed).of_ok hcall
    exact F.keeps (F.makePd N) (fun x f hx hxf g hg => by
      obtain rfl := List.mem_singleton.mp hg
      exact N.kept g (F.inv.layout.tree.held x g hxf)) (hgrow (N.keep F).2)
  | @pageFault s got gave m pd cr3 saved va hpd hlo hva hnew hcall =>
    obtain ⟨A', occ', F', hkeep, -, hK⟩ := F.pageFault hpd hlo hva hnew hcall
    exact F.keeps F' hK (hgrow hkeep)
  | @copyPrivate s got gave m p q hp hq hpq hcall =>
    obtain ⟨A', occ', F', hkeep, -, hK⟩ := F.copyPrivate hp hq hpq hcall
    exact F.keeps F' hK (hgrow hkeep)
  | @deletePrivate s got gave m pd cr3 hpd hcall =>
    obtain ⟨hwalk, A', occ', D⟩ := F.deletePrivate V hpd hcall
    exact F.keeps D.filled (F.sharedKept_of_words _ hpd fun a hw hf _ => foldlM_clear_mem hwalk hw hf)
      (hshrink D.stay)
  | @deletePd s got gave m pd cr3 hpd hcall =>
    obtain ⟨hwalk, A', occ', D⟩ := F.deletePd hpd hcall
    refine F.keeps D.filled (F.sharedKept_of_words (fun _ => false) hpd fun a _ hf hne =>
      foldlM_dealloc_mem hwalk fun hmem => ?_) (hshrink D.stay)
    rcases List.mem_append.mp hmem with hmem | hmem
    · exact hf hmem
    · exact hne (List.mem_singleton.mp hmem)
  | @write s got gave pd va f v hpd hlo hva hf =>
    have F' : Filled c r low occ₀ ⟨s.machine.store (f + offset va) v, s.shared, s.live⟩ A occ :=
      { F with inv := F.inv.write V hpd hlo hva hf v }
    refine F.keeps F' (fun x g hx hxg k hk a ha => Function.update_of_ne ?_ _ _)
      (hgrow fun _ _ hx => hx)
    obtain rfl := List.mem_singleton.mp hk
    have hoff : offset va < frameSize := by
      rw [offset_eq]
      exact Nat.mod_lt _ (by simp [frameSize])
    rintro rfl
    rcases (F.maps_iff hpd hlo hva).mp hf with hdata | ⟨hs, rfl⟩
    · exact F.inv.layout.not_within_of_ne hdata hxg (by rintro rfl; cases hx) ha
        ⟨Nat.le_add_right _ _, by omega⟩
    · have hbelow := F.inv.below V (F.inv.layout.tree.held x k hxg)
      rw [pageVa_eq (index_lt va)] at ha
      have := slot_private hlo
      simp only [Within] at ha
      omega

theorem Filled.pageFault_moves (F : Filled c r low occ₀ s A occ) (V : Valid c r)
    {pd cr3 saved va f : ℕ} {m : Machine} (hpd : pd ∈ s.live) (hlo : 0x80000000 ≤ va)
    (hva : va < 2 ^ 32) (hcall : Vmm.pageFault c cr3 saved pd va s.machine = .ok m)
    (hf : Maps s.machine pd va f) : ∃ f', Maps m pd va f' ∧ f' ≠ f := by
  obtain ⟨pa, hpa, hfresh, hlt⟩ :=
    pageFault_maps F.inv.layout F.inv.closed ((F.inv.live pd).mp hpd) hlo hva hcall
  have hend := V.poolEnd
  refine ⟨pa, hpa, ?_⟩
  rintro rfl
  rcases (F.maps_iff hpd hlo hva).mp hf with hdata | ⟨-, hself⟩
  · exact hfresh (F.inv.layout.tree.held _ pa hdata)
  · rw [pageVa_eq (index_lt va)] at hself
    have := slot_private hlo
    omega

end

/-- The pages of the APICs are in place and no step moves a page. Of the faults just those on
pages that are not present move none. -/
structure Undisturbed (c : Config) (b : Ledger) : Prop where
  apic : ∀ pd ∈ b.state.live, Maps b.state.machine pd c.ioAPIC c.ioAPIC ∧
    Maps b.state.machine pd c.localAPIC c.localAPIC
  keeps : ∀ b', Ledger.Step c b b' → Keeps b.state b'.state
  fault : ∀ pd ∈ b.state.live, ∀ cr3 saved va m, 0x80000000 ≤ va → va < 2 ^ 32 →
    pageFault c cr3 saved pd va b.state.machine = .ok m →
      (Keeps b.state ⟨m, b.state.shared, b.state.live⟩ ↔ ∀ f, ¬ Maps b.state.machine pd va f)

theorem Balanced.undisturbed {c : Config} {r : Pool} {low : ℕ → ℕ} {occ₀ occ : Role → Option ℕ}
    {b : Ledger} {A : List ℕ} (B : Balanced c r low occ₀ b A occ) (V : Valid c r) :
    Undisturbed c b := by
  have F := B.filled
  have hself : ∀ pd ∈ b.state.live, ∀ va, isSpecial c va → frameSize ∣ va → 0x80000000 ≤ va →
      va < 2 ^ 32 → Maps b.state.machine pd va va := fun pd hpd va hs hdvd hlo hva => by
    refine (F.maps_iff hpd hlo hva).mpr (Or.inr ?_)
    rw [pageVa_split hdvd]
    exact ⟨hs, rfl⟩
  refine ⟨fun pd hpd => ⟨hself pd hpd _ (Or.inr (Or.inl rfl)) V.ioAligned V.ioPrivate V.ioWord,
    hself pd hpd _ (Or.inr (Or.inr rfl)) V.localAligned V.localPrivate V.localWord⟩,
    fun b' h => B.keeps V h, fun pd hpd cr3 saved va m hlo hva hcall => ⟨fun hkeeps f hf => ?_,
    fun hnew => B.keeps V (.pageFault pd cr3 saved va hpd hlo hva hnew hcall)⟩⟩
  obtain ⟨f', hf', hne⟩ := F.pageFault_moves V hpd hlo hva hcall hf
  exact hne (hkeeps pd hpd hpd va hva f f' hf hf')

/-- In every run whose faults are on pages that are not present no mapping is disturbed. -/
theorem reachable_undisturbed {c : Config} (P : Platform c) {b : Ledger}
    (h : Reachable (Ledger.Init c) (Ledger.Step c) b) : Undisturbed c b := by
  obtain ⟨b₀, h₀, hrun⟩ := h
  obtain ⟨r, V, low, occ₀, A, occ, B, -⟩ := run_balanced P h₀ hrun
  exact B.undisturbed V

/-- Two address spaces, after a fault in the first one. -/
theorem small_undisturbed : ∃ (b : Ledger) (p q f : ℕ), b.state.live = [q, p] ∧
    Maps b.state.machine p 0x80000123 f ∧ Undisturbed smallConfig b := by
  obtain ⟨b₀, b, p, q, h₀, h, hlive, -, hrun⟩ := small_ledger
  obtain ⟨f, hf⟩ := hrun.maps List.mem_cons_self (by decide) (by decide) (by decide)
  exact ⟨b, p, q, f, hlive, hf, reachable_undisturbed smallPlatform ⟨b₀, h₀, h⟩⟩

/-- A process in user mode that touches the page of the I/O APIC takes it away from the kernel. -/
theorem apic_moved : ∃ (s : State) (pd : ℕ), Reachable (Init smallConfig) (Step smallConfig) s ∧
    pd ∈ s.live ∧ ¬ Maps s.machine pd smallConfig.ioAPIC smallConfig.ioAPIC := by
  obtain ⟨s, pd, h, hlive⟩ := small_process
  have hpd : pd ∈ s.live := by simp [hlive]
  have hva : smallConfig.ioAPIC < 2 ^ 32 := smallPlatform.ioWord
  have hlo : 0x80000000 ≤ smallConfig.ioAPIC := smallPlatform.ioPrivate
  obtain ⟨m, hfault, h'⟩ := h.fault smallConfig.ioAPIC (by decide) hpd hva hlo
  obtain ⟨r, low, A, occ, hr, -, I, -⟩ := h.inv
  obtain ⟨pa, hpa, -, hlt⟩ := pageFault_maps I.layout I.closed ((I.live pd).mp hpd) hlo hva hfault
  have hend := (smallPlatform.valid hr.1 hr.2).poolEnd
  refine ⟨_, pd, h'.reachable, hpd, fun hmaps => ?_⟩
  have heq : smallConfig.ioAPIC = pa := hmaps.2.2.trans hpa.2.2.symm
  omega

end OsShell.Vmm
