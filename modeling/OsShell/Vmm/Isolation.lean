import OsShell.Vmm.Runs

/-!
# Every frame plays one role

The roles are read from the memory of a state, from the shared directory and
the directories of the live processes down. In every reachable state a frame
that is found there is found in one place only, and no frame on the free list
is found at all.
-/

namespace OsShell.Vmm

open PhysMem Stopping FrameTree Runs

def InPool (c : Config) (f : ℕ) : Prop := vmmFrames ≤ f ∧ f < c.memSize

/-- The frame `f` is in the given role. The page at entry `pti` of the table in slot `pdi` is the
one with the virtual address `pageVa pdi pti`. -/
inductive Plays (c : Config) (s : State) : Role → ℕ → Prop
  | sharedDir : Plays c s .sharedDir s.shared
  | sharedTable (pdi : ℕ) (hi : pdi < 1024) (hpde : present (s.machine.mem (s.shared + 4 * pdi))) :
      Plays c s (.sharedTable pdi) (frameOf (s.machine.mem (s.shared + 4 * pdi)))
  | dir (pd : ℕ) (hpd : pd ∈ s.live) : Plays c s (.dir pd) pd
  | table (pd pdi : ℕ) (hpd : pd ∈ s.live) (hi : 512 ≤ pdi ∧ pdi < 1024)
      (hpde : present (s.machine.mem (pd + 4 * pdi))) :
      Plays c s (.table pd pdi) (frameOf (s.machine.mem (pd + 4 * pdi)))
  | data (pd pdi pti : ℕ) (hpd : pd ∈ s.live) (hi : 512 ≤ pdi ∧ pdi < 1024) (hj : pti < 1024)
      (hpde : present (s.machine.mem (pd + 4 * pdi)))
      (hpte : present (s.machine.mem (frameOf (s.machine.mem (pd + 4 * pdi)) + 4 * pti)))
      (hpool : InPool c (frameOf (s.machine.mem (frameOf (s.machine.mem (pd + 4 * pdi)) + 4 * pti)))) :
      Plays c s (.data pd pdi pti)
        (frameOf (s.machine.mem (frameOf (s.machine.mem (pd + 4 * pdi)) + 4 * pti)))

/-- The frames that the address spaces use: the directories, whatever any of their words names, and
the pages of the processes as far as they are frames of the pool. -/
inductive InUse (c : Config) (s : State) : ℕ → Prop
  | directory (d : ℕ) (hd : d = s.shared ∨ d ∈ s.live) : InUse c s d
  | named (d pdi : ℕ) (hd : d = s.shared ∨ d ∈ s.live) (hi : pdi < 1024)
      (hpde : present (s.machine.mem (d + 4 * pdi))) :
      InUse c s (frameOf (s.machine.mem (d + 4 * pdi)))
  | page (pd pdi pti : ℕ) (hpd : pd ∈ s.live) (hi : 512 ≤ pdi ∧ pdi < 1024) (hj : pti < 1024)
      (hpde : present (s.machine.mem (pd + 4 * pdi)))
      (hpte : present (s.machine.mem (frameOf (s.machine.mem (pd + 4 * pdi)) + 4 * pti)))
      (hpool : InPool c (frameOf (s.machine.mem (frameOf (s.machine.mem (pd + 4 * pdi)) + 4 * pti)))) :
      InUse c s (frameOf (s.machine.mem (frameOf (s.machine.mem (pd + 4 * pdi)) + 4 * pti)))

/-- The frame that a process in user mode may write at `va`: both words of the walk have the
present, the writable and the user bit. -/
def UserPage (m : Machine) (pd va f : ℕ) : Prop :=
  m.mem (pd + 4 * (va >>> 22)) &&& 7 = 7 ∧ pteAt m pd va &&& 7 = 7 ∧ f = frameOf (pteAt m pd va)

structure Isolated (c : Config) (s : State) : Prop where
  role : ∀ f, InUse c s f → ∃! ρ, Plays c s ρ f
  allocated : ∃ fl, FreeList s.machine.mem s.machine.firstFree fl ∧
    ∀ f, InUse c s f → InPool c f ∧ f < s.machine.avail ∧ f ∉ fl
  user : ∀ pd ∈ s.live, ∀ pd' ∈ s.live, ∀ va < 2 ^ 32, ∀ va' < 2 ^ 32, ∀ f,
    UserPage s.machine pd va f → UserPage s.machine pd' va' f → pd = pd' ∧ va >>> 12 = va' >>> 12

section

variable {c : Config} {r : Pool} {low : ℕ → ℕ} {s : State} {A : List ℕ} {occ : Role → Option ℕ}

theorem Inv.read_low (I : Inv c r low s A occ) {d i : ℕ} (hi : i < 1024)
    (hentry : s.machine.mem (d + 4 * i) = word 3 (occ (.sharedTable i)))
    (hpde : present (s.machine.mem (d + 4 * i))) :
    occ (.sharedTable i) = some (frameOf (s.machine.mem (d + 4 * i))) ∧
      Plays c s (.sharedTable i) (frameOf (s.machine.mem (d + 4 * i))) := by
  have hshared : s.machine.mem (s.shared + 4 * i) = word 3 (occ (.sharedTable i)) :=
    I.layout.tree.entry (.sharedTable i) .sharedDir i s.shared (if_pos hi) I.layout.sharedDir
  rw [hentry] at hpde ⊢
  rw [← hshared] at hpde
  have hplays := Plays.sharedTable (c := c) i hi hpde
  rw [hshared] at hpde hplays
  rcases word_present (o := occ (.sharedTable i)) (Or.inl rfl) (fun f hf => I.layout.aligned hf) with
    ⟨-, habs⟩ | ⟨f, hf, -, hframe⟩
  · simp only [present, habs] at hpde
    omega
  · have hframe' : frameOf (word 3 (occ (.sharedTable i))) = f := hframe
    rw [hframe'] at hplays ⊢
    exact ⟨hf, hplays⟩

theorem Inv.shared_entry (I : Inv c r low s A occ) {i : ℕ} (hi : i < 1024) :
    s.machine.mem (s.shared + 4 * i) = word 3 (occ (.sharedTable i)) :=
  I.layout.tree.entry (.sharedTable i) .sharedDir i s.shared (if_pos hi) I.layout.sharedDir

theorem Inv.alias_entry (I : Inv c r low s A occ) {pd i : ℕ} (hpd : pd ∈ s.live) (hi : i < 512) :
    s.machine.mem (pd + 4 * i) = word 3 (occ (.sharedTable i)) := by
  rw [← I.layout.lows]
  exact I.layout.tree.entry (.alias pd i) (.dir pd) i pd (if_pos hi) ((I.live pd).mp hpd)

theorem Inv.plays (I : Inv c r low s A occ) (P : Platform c) {ρ : Role} {f : ℕ}
    (h : Plays c s ρ f) : occ ρ = some f := by
  cases h with
  | sharedDir => exact I.layout.sharedDir
  | sharedTable i hi hpde => exact (I.read_low hi (I.shared_entry hi) hpde).1
  | dir _ hpd => exact (I.live _).mp hpd
  | table pd i hpd hi hpde =>
    rcases I.layout.read_slot ((I.live pd).mp hpd) hi with ⟨-, habs⟩ | ⟨t, ht, -, hframe⟩
    · simp only [present, habs] at hpde
      omega
    · have hframe' : frameOf (s.machine.mem (pd + 4 * i)) = t := hframe
      rw [hframe', ht]
  | data pd i j hpd hi hj hpde hpte hpool =>
    obtain ⟨t, ht, hframe, hcase⟩ := I.walk hpd hi hj hpde hpte
    rw [hframe] at hpool ⊢
    rcases hcase with ⟨f, flags, hf, hf', -, -⟩ | ⟨-, hs, he⟩
    · rw [hf', hf]
    · have hva : pageVa i j < 2 ^ 32 := by
        rw [pageVa_eq hj]
        omega
      have hhigh : 0x80000000 ≤ pageVa i j := by
        rw [pageVa_eq hj]
        omega
      rw [he, frameOf, or_flags_frame (pageVa_aligned i hj) hva (Or.inl rfl)] at hpool
      have h₁ := hpool.2
      have h₂ := P.memSize
      omega

theorem Inv.role_of_inUse (I : Inv c r low s A occ) {f : ℕ} (h : InUse c s f) :
    ∃ ρ, Plays c s ρ f := by
  cases h with
  | directory d hd =>
    rcases hd with rfl | hd
    · exact ⟨_, .sharedDir⟩
    · exact ⟨_, .dir f hd⟩
  | named d i hd hi hpde =>
    rcases hd with rfl | hd
    · exact ⟨_, .sharedTable i hi hpde⟩
    · by_cases hlow : i < 512
      · exact ⟨_, (I.read_low hi (I.alias_entry hd hlow) hpde).2⟩
      · exact ⟨_, .table d i hd ⟨by omega, hi⟩ hpde⟩
  | page pd i j hpd hi hj hpde hpte hpool => exact ⟨_, .data pd i j hpd hi hj hpde hpte hpool⟩

theorem Inv.userPage (I : Inv c r low s A occ) {pd va f : ℕ} (hpd : pd ∈ s.live)
    (hva : va < 2 ^ 32) (h : UserPage s.machine pd va f) :
    occ (.data pd (va >>> 22) ((va >>> 12) &&& 0x3FF)) = some f := by
  obtain ⟨hpde, hpte, rfl⟩ := h
  have hbit : ∀ e : ℕ, e &&& 7 = 7 → present e := by
    intro e he
    have : e &&& 1 = (e &&& 7) &&& 1 := by rw [Nat.and_assoc]; rfl
    rw [present, this, he]
    rfl
  have hkernel : ∀ o : ℕ, frameSize ∣ o → (o ||| 3) &&& 7 ≠ 7 := by
    intro o ho heq
    have hflags := Words.and_low_or (k := 12) (b := 3) (c := 3) ho (by omega) (by omega)
    rw [show 2 ^ 3 - 1 = 7 from rfl, heq] at hflags
    exact absurd hflags (by decide)
  have hi := slot_lt hva
  have hj := index_lt va
  simp only [pteAt] at hpte ⊢
  generalize va >>> 22 = i at *
  generalize (va >>> 12) &&& 0x3FF = j at *
  by_cases hlow : i < 512
  · have hentry := I.alias_entry hpd hlow
    have hocc := (I.read_low hi hentry (hbit _ hpde)).1
    rw [hentry, hocc] at hpde
    exact absurd hpde (hkernel _ (I.layout.aligned hocc).1)
  · have hi' : 512 ≤ i ∧ i < 1024 := ⟨by omega, hi⟩
    obtain ⟨t, ht, hframe, hcase⟩ := I.walk hpd hi' hj (hbit _ hpde) (hbit _ hpte)
    rw [hframe] at hpte ⊢
    rcases hcase with ⟨f, flags, hf, hf', -, -⟩ | ⟨-, -, he⟩
    · rw [hf', hf]
    · rw [he] at hpte
      exact absurd hpte (hkernel _ (pageVa_aligned i hj))

theorem Inv.isolated (I : Inv c r low s A occ) (P : Platform c) (hstart : r.start = vmmFrames)
    (hcount : frameSize * r.count = poolSize c) : Isolated c s := by
  have hge := P.memSize_ge
  have hmem := P.memSize
  have hend : r.start + frameSize * r.count = c.memSize := by
    rw [hstart, hcount]
    simp only [poolSize, vmmFrames] at *
    omega
  refine ⟨fun f hf => ?_, ?_, fun pd hpd pd' hpd' va hva va' hva' f hf hf' => ?_⟩
  · obtain ⟨ρ, hρ⟩ := I.role_of_inUse hf
    exact ⟨ρ, hρ, fun ρ' hρ' => I.layout.tree.inj ρ' ρ f (I.plays P hρ') (I.plays P hρ)⟩
  · obtain ⟨fl, k, hH⟩ := I.layout.owned
    refine ⟨fl, hH.list, fun f hf => ?_⟩
    obtain ⟨ρ, hρ⟩ := I.role_of_inUse hf
    have hA : f ∈ A := I.layout.tree.held ρ f (I.plays P hρ)
    have hbounds := hH.mem_bounds (List.mem_append_left fl hA)
    obtain ⟨i, hi, rfl⟩ := Pool.mem_frames.mp (hH.perm.mem_iff.mp (List.mem_append_left fl hA))
    have havail : s.machine.avail = r.frame k := by
      rw [hH.avail]
      refine Nat.mod_eq_of_lt ?_
      have := Nat.mul_le_mul_left frameSize hH.le
      simp only [Pool.frame]
      omega
    refine ⟨⟨by omega, ?_⟩, ?_, fun hfl => (List.nodup_append.mp hH.nodup).2.2 _ hA _ hfl rfl⟩
    · have : 0 < frameSize := by simp [frameSize]
      omega
    · rw [havail]
      simp only [Pool.frame, frameSize]
      omega
  · have heq := I.layout.tree.inj _ _ f (I.userPage hpd hva hf) (I.userPage hpd' hva' hf')
    have hsame : pd = pd' ∧ va >>> 22 = va' >>> 22 ∧ (va >>> 12) &&& 0x3FF = (va' >>> 12) &&& 0x3FF := by
      simpa using heq
    obtain ⟨hpds, hslots, hpages⟩ := hsame
    have hmask : ∀ n : ℕ, n &&& 0x3FF = n % 2 ^ 10 := fun n => Nat.and_two_pow_sub_one_eq_mod n 10
    rw [hmask, hmask] at hpages
    simp only [Nat.shiftRight_eq_div_pow] at *
    exact ⟨hpds, by omega⟩

theorem Inv.maps (I : Inv c r low s A occ) {pd va f : ℕ} (hpd : pd ∈ s.live)
    (hlo : 0x80000000 ≤ va) (hva : va < 2 ^ 32)
    (hs : ¬ isSpecial c (pageVa (va >>> 22) ((va >>> 12) &&& 0x3FF)))
    (hf : occ (.data pd (va >>> 22) ((va >>> 12) &&& 0x3FF)) = some f) : Maps s.machine pd va f := by
  have hi : 512 ≤ va >>> 22 ∧ va >>> 22 < 1024 := ⟨slot_private hlo, slot_lt hva⟩
  have hj := index_lt va
  simp only [Maps, pteAt]
  generalize va >>> 22 = i at *
  generalize (va >>> 12) &&& 0x3FF = j at *
  rcases I.layout.read_slot ((I.live pd).mp hpd) hi with ⟨hnone, -⟩ | ⟨t, ht, hpde, hframe⟩
  · rw [I.closed.pages pd i j hnone] at hf
    cases hf
  · have hframe' : frameOf (s.machine.mem (pd + 4 * i)) = t := hframe
    rw [hframe']
    rcases I.layout.read_page ht hj hs with ⟨hnone, -⟩ | ⟨g, hg, hpte, hg'⟩
    · rw [hnone] at hf
      cases hf
    · rw [hg] at hf
      cases hf
      exact ⟨hpde, hpte, hg'.symm⟩

theorem pageFault_maps {shared : ℕ} {m m' : Machine} (h : Layout c r low ∅ shared m A occ)
    (C : Closed c occ) {pd cr3 saved va : ℕ} (hpd : occ (.dir pd) = some pd) (hlo : 0x80000000 ≤ va)
    (hva : va < 2 ^ 32) (hcall : pageFault c cr3 saved pd va m = .ok m') :
    ∃ pa, Maps m' pd va pa ∧ pa ∉ A ∧ pa < r.start + frameSize * r.count := by
  have hi : 512 ≤ va >>> 22 ∧ va >>> 22 < 1024 := ⟨slot_private hlo, slot_lt hva⟩
  obtain ⟨pa, m₁, A', occ', t, M, hF⟩ := (pageFault_mapped h C hpd hva cr3 saved).of_ok hcall
  rw [(framedown_slot va).1, (framedown_slot va).2] at M
  have hbound := M.layout.owned.mem_bounds (M.layout.tree.held _ pa M.data)
  have hpos : 0 < frameSize := by simp [frameSize]
  have haligned := M.layout.aligned M.data
  refine ⟨pa, ?_, hF.fresh, by omega⟩
  rcases M.layout.read_slot (M.others (.dir pd) (by simp) (by simp) ▸ hpd) hi with
    ⟨hnone, -⟩ | ⟨t', ht', hpde, hframe⟩
  · rw [M.table] at hnone
    cases hnone
  · rw [M.table] at ht'
    cases ht'
    have hpte : pteAt m' pd va = pa ||| kernelFlags c (framedown va) := by
      rw [pteAt, frameOf, hframe, M.entry]
    refine ⟨hpde, ?_, ?_⟩
    · rw [hpte]
      exact or_flags_present haligned.1 (kernelFlags_cases _ _)
    · rw [hpte]
      exact (or_flags_frame haligned.1 haligned.2 (kernelFlags_cases _ _)).symm

end

/-- In every state of every run the address spaces are isolated from each other. -/
theorem reachable_isolated {c : Config} (P : Platform c) {s : State}
    (h : Reachable (Init c) (Step c) s) : Isolated c s := by
  obtain ⟨r, ⟨hstart, hcount⟩, low, A, occ, I⟩ := inv_of_reachable P h
  exact I.isolated P hstart hcount

theorem card_roles_le {c : Config} {r : Pool} {low : ℕ → ℕ} {s : State} {A : List ℕ}
    {occ : Role → Option ℕ} (I : Inv c r low s A occ) (pd : ℕ) (slots entries : Finset ℕ) :
    (slots.filter fun i => occ (.table pd i) ≠ none).card +
      ((slots ×ˢ entries).filter fun x => occ (.data pd x.1 x.2) ≠ none).card ≤ A.length := by
  let roles : Finset (ℕ ⊕ ℕ × ℕ) := (slots.filter fun i => occ (.table pd i) ≠ none).disjSum
    ((slots ×ˢ entries).filter fun x => occ (.data pd x.1 x.2) ≠ none)
  let role : ℕ ⊕ ℕ × ℕ → Role := Sum.elim (.table pd) fun x => .data pd x.1 x.2
  have hrole : Function.Injective role := by
    rintro (i | x) (i' | x') heq
    all_goals simp_all [role, Prod.ext_iff]
  have hheld : ∀ x ∈ roles, ∃ f, occ (role x) = some f := by
    rintro (i | x) hx
    · exact Option.ne_none_iff_exists'.mp (Finset.mem_filter.mp (Finset.inl_mem_disjSum.mp hx)).2
    · exact Option.ne_none_iff_exists'.mp (Finset.mem_filter.mp (Finset.inr_mem_disjSum.mp hx)).2
  rw [← Finset.card_disjSum]
  refine (Finset.card_le_card_of_injOn (fun x => (occ (role x)).getD 0) (fun x hx => ?_)
    fun x hx y hy heq => ?_).trans (List.toFinset_card_le A)
  · obtain ⟨f, hf⟩ := hheld x (Finset.mem_coe.mp hx)
    simpa [hf] using I.layout.tree.held _ f hf
  · obtain ⟨f, hf⟩ := hheld x (Finset.mem_coe.mp hx)
    obtain ⟨g, hg⟩ := hheld y (Finset.mem_coe.mp hy)
    obtain rfl : f = g := by simpa [hf, hg] using heq
    exact hrole (I.layout.tree.inj _ _ f hf hg)

theorem copyCost_le {c : Config} {r : Pool} {low : ℕ → ℕ} {s : State} {A : List ℕ}
    {occ : Role → Option ℕ} (I : Inv c r low s A occ) (p q : ℕ) : copyCost c p q occ ≤ A.length := by
  refine le_trans ?_ (card_roles_le I p (Finset.Ico 512 1024) (Finset.range 1024))
  rw [Finset.card_filter, Finset.card_filter, Finset.sum_product, ← Finset.sum_add_distrib]
  refine Finset.sum_le_sum fun i _ => Nat.add_le_add ?_ (Finset.sum_le_sum fun j _ => ?_)
  · split_ifs <;> simp_all
  · unfold pageCost
    split_ifs <;> simp_all

def smallConfig : Config := ⟨0x1000000, 0xFEC00000, 0xFEE00000⟩

theorem smallPlatform : Platform smallConfig := by
  have hsize : poolSize smallConfig = 0xA00000 := rfl
  refine ⟨by decide, by decide, by decide, by decide, fun i hi => ?_, by decide, by decide,
    by decide, fun i hi => ?_⟩ <;>
  · simp only [vmmFrames, frameSize, smallConfig] at *
    omega

/-- A run of a small machine in which `n` frames at most are taken and the pages of some addresses
are there. -/
structure SmallRun (s : State) (n : ℕ) (pages : List (ℕ × ℕ)) : Prop where
  reachable : Reachable (Init smallConfig) (Step smallConfig) s
  inv : ∃ (r : Pool) (low : ℕ → ℕ) (A : List ℕ) (occ : Role → Option ℕ),
    (r.start = vmmFrames ∧ frameSize * r.count = poolSize smallConfig) ∧ r.count = 2560 ∧
      Inv smallConfig r low s A occ ∧ A.length ≤ n ∧ ∀ x ∈ pages,
        x.1 ∈ s.live ∧ occ (.data x.1 (x.2 >>> 22) ((x.2 >>> 12) &&& 0x3FF)) ≠ none

theorem small_boot : ∃ s, Init smallConfig s ∧ SmallRun s 5 [] ∧ s.live = [] := by
  have hsize : poolSize smallConfig = 0xA00000 := rfl
  have hslots : sharedSlots smallConfig = 4 := rfl
  have hstop : ¬ (poolSize smallConfig < frameSize * (1 + sharedSlots smallConfig) ∨
      ¬ frameSize ∣ poolSize smallConfig) := by
    rw [hsize, hslots]
    decide
  have hb := Outcome.weaken (boot_spec smallPlatform fun _ => 0) (fun _ h => h) fun _ => hstop
  obtain ⟨⟨shared, m⟩, hboot, r, hr, low, A, occ, I, hlen, -⟩ := hb.returns
  have hcount : r.count = 2560 := by
    have := hr.2
    rw [hsize] at this
    simp only [frameSize] at this
    omega
  exact ⟨_, .boot hboot, ⟨.init (.boot hboot), r, low, A, occ, hr, hcount, I, by omega, by simp⟩, rfl⟩

namespace SmallRun

variable {s : State} {n : ℕ} {pages : List (ℕ × ℕ)} {pd va : ℕ} (h : SmallRun s n pages)

include h

theorem makePd (hn : n ≤ 2000) : ∃ (pd : ℕ) (m : Machine),
    Vmm.makePd smallConfig s.shared s.machine = .ok (pd, m) ∧
      SmallRun ⟨m, s.shared, pd :: s.live⟩ (n + 2) pages := by
  obtain ⟨r, low, A, occ, hr, hcount, I, hlen, hpages⟩ := h.inv
  have hmake : makePdFrames smallConfig = 2 := rfl
  obtain ⟨⟨pd, m⟩, hcall, A', occ', N⟩ := ((makePd_spec (smallPlatform.valid hr.1 hr.2) I.layout
    I.closed).weaken (fun _ h => h) fun _ _ => by omega).returns
  have hlen' := N.length
  refine ⟨pd, m, hcall, h.reachable.step (.makePd hcall), r, low, A', occ', hr, hcount, I.made N, by omega,
    fun x hx => ⟨List.mem_cons_of_mem _ (hpages x hx).1, ?_⟩⟩
  have hne : x.1 ≠ pd := by
    rintro rfl
    exact N.fresh (I.layout.tree.held _ _ ((I.live _).mp (hpages x hx).1))
  rw [N.others _ (by simpa [Role.owner] using hne)]
  exact (hpages x hx).2

theorem fault (va : ℕ) (hn : n ≤ 2000) (hpd : pd ∈ s.live) (hva : va < 2 ^ 32) (hlo : 0x80000000 ≤ va) :
    ∃ m, pageFault smallConfig pd pd pd va s.machine = .ok m ∧
      SmallRun ⟨m, s.shared, s.live⟩ (n + 2) ((pd, va) :: pages) := by
  obtain ⟨r, low, A, occ, hr, hcount, I, hlen, hpages⟩ := h.inv
  have hdir := (I.live pd).mp hpd
  obtain ⟨m, hcall, pa, m₁, A', occ', t, M, -⟩ :=
    ((pageFault_mapped I.layout I.closed hdir hva pd pd).weaken (fun _ h => h)
      fun _ he => by simp at he; omega).returns
  rw [(framedown_slot va).1, (framedown_slot va).2] at M
  have hkept : ∀ x, x ≠ .table pd (va >>> 22) → occ x ≠ none → occ' x ≠ none := by
    intro x hx hne
    by_cases hdata : x = .data pd (va >>> 22) ((va >>> 12) &&& 0x3FF)
    · rw [hdata, M.data]
      nofun
    · rwa [M.others x hx hdata]
  refine ⟨m, hcall, h.reachable.step (.pageFault pd pd pd va hpd hva hcall), r, low, A', occ', hr,
    hcount, I.next M.layout (M.closed hdir I.closed) fun q => M.others _ (by simp) (by simp), ?_, ?_⟩
  · rcases M.held with ⟨-, rfl⟩ | ⟨-, rfl, -⟩
    · rw [List.length_cons]
      omega
    · rw [List.length_cons, List.length_cons]
      omega
  · intro x hx
    rcases List.mem_cons.mp hx with rfl | hx
    · exact ⟨hpd, by rw [M.data]; nofun⟩
    · exact ⟨(hpages x hx).1, hkept _ (by simp) (hpages x hx).2⟩

theorem copyPrivate (hn : n ≤ 1000) {p q : ℕ} (hp : p ∈ s.live) (hq : q ∈ s.live) (hpq : p ≠ q) :
    ∃ m, Vmm.copyPrivate p q s.machine = .ok m := by
  obtain ⟨r, low, A, occ, hr, hcount, I, hlen, -⟩ := h.inv
  have hcost := copyCost_le I p q
  obtain ⟨m, hcall, -⟩ := ((copyPrivate_spec I.layout I.closed ((I.live p).mp hp)
    ((I.live q).mp hq) hpq).weaken (fun _ h => h) fun _ he => by omega).returns
  exact ⟨m, hcall⟩

theorem maps (hx : (pd, va) ∈ pages) (hva : va < 2 ^ 32) (hlo : 0x80000000 ≤ va)
    (hs : ¬ isSpecial smallConfig (pageVa (va >>> 22) ((va >>> 12) &&& 0x3FF))) :
    ∃ f, Maps s.machine pd va f := by
  obtain ⟨r, low, A, occ, -, -, I, -, hpages⟩ := h.inv
  obtain ⟨f, hf⟩ := Option.ne_none_iff_exists'.mp (hpages _ hx).2
  exact ⟨f, I.maps (hpages _ hx).1 hlo hva hs hf⟩

theorem write (hx : (pd, va) ∈ pages) (hva : va < 2 ^ 32) (hlo : 0x80000000 ≤ va)
    (hs : ¬ isSpecial smallConfig (pageVa (va >>> 22) ((va >>> 12) &&& 0x3FF))) (v : ℕ) :
    ∃ f m, SmallRun ⟨m, s.shared, s.live⟩ n pages ∧ Maps m pd va f ∧ m.mem (f + offset va) = v := by
  obtain ⟨r, low, A, occ, hr, hcount, I, hlen, hpages⟩ := h.inv
  obtain ⟨hpd, hne⟩ := hpages _ hx
  obtain ⟨f, hf⟩ := Option.ne_none_iff_exists'.mp hne
  have hmaps := I.maps hpd hlo hva hs hf
  have I' := I.write (smallPlatform.valid hr.1 hr.2) hpd hlo hva hmaps v
  exact ⟨f, _, ⟨h.reachable.step (.write pd va f v hpd hlo hva hmaps), r, low, A, occ, hr, hcount,
    I', hlen, hpages⟩, I'.maps hpd hlo hva hs hf, Function.update_self ..⟩

end SmallRun

theorem small_process : ∃ s pd, SmallRun s 7 [] ∧ s.live = [pd] := by
  obtain ⟨s, -, h, hlive⟩ := small_boot
  obtain ⟨pd, m, -, h⟩ := h.makePd (by decide)
  exact ⟨_, pd, h, by rw [hlive]⟩

/-- Two processes with a page at the same address. -/
theorem small_run_isolated : ∃ s p q f g, s.live = [q, p] ∧ Maps s.machine p 0x80000123 f ∧
    Maps s.machine q 0x80000123 g ∧ Isolated smallConfig s := by
  obtain ⟨s, p, h, hlive⟩ := small_process
  obtain ⟨m, -, h⟩ := h.fault 0x80000123 (by decide) (by rw [hlive]; exact List.mem_singleton_self p)
    (by decide) (by decide)
  obtain ⟨q, m, -, h⟩ := h.makePd (by decide)
  obtain ⟨m, -, h⟩ := h.fault 0x80000123 (by decide) List.mem_cons_self (by decide) (by decide)
  obtain ⟨f, hf⟩ := h.maps (List.mem_cons_of_mem _ List.mem_cons_self) (by decide) (by decide)
    (by decide)
  obtain ⟨g, hg⟩ := h.maps List.mem_cons_self (by decide) (by decide) (by decide)
  exact ⟨_, p, q, f, g, by rw [hlive], hf, hg, reachable_isolated smallPlatform h.reachable⟩

end OsShell.Vmm
