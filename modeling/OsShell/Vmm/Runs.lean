import OsShell.Library.Runs
import OsShell.PhysMem.Runs
import OsShell.Vmm.Boot

/-!
# Runs of the memory manager

Any number of address spaces, whose operations follow each other in any order.
Between them every process writes to the pages it has mapped. What role a frame
plays is read from the memory, by the walk that the processor makes.
-/

namespace OsShell.Vmm

open PhysMem Stopping FrameTree Runs

structure State where
  machine : Machine
  shared : ℕ
  live : List ℕ

def present (e : ℕ) : Prop := e &&& 1 = 1

def frameOf (e : ℕ) : ℕ := e &&& 0xFFFFF000

/-- The word that maps the page of `va`, in the table that the directory `pd` names for it. -/
def pteAt (m : Machine) (pd va : ℕ) : ℕ :=
  m.mem (frameOf (m.mem (pd + 4 * (va >>> 22))) + 4 * ((va >>> 12) &&& 0x3FF))

/-- The processor's walk from `pd` finds the frame `f` for `va`: both words must be present. -/
def Maps (m : Machine) (pd va f : ℕ) : Prop :=
  present (m.mem (pd + 4 * (va >>> 22))) ∧ present (pteAt m pd va) ∧ f = frameOf (pteAt m pd va)

inductive Init (c : Config) : State → Prop
  | boot {mem : ℕ → ℕ} {shared : ℕ} {m : Machine} (hboot : boot c mem = .ok (shared, m)) :
      Init c ⟨m, shared, []⟩

inductive Step (c : Config) : State → State → Prop
  | makePd {s : State} {pd : ℕ} {m : Machine} (hcall : makePd c s.shared s.machine = .ok (pd, m)) :
      Step c s ⟨m, s.shared, pd :: s.live⟩
  | pageFault {s : State} {m : Machine} (pd cr3 saved va : ℕ) (hpd : pd ∈ s.live)
      (hva : va < 2 ^ 32) (hcall : pageFault c cr3 saved pd va s.machine = .ok m) :
      Step c s ⟨m, s.shared, s.live⟩
  | copyPrivate {s : State} {m : Machine} (p q : ℕ) (hp : p ∈ s.live) (hq : q ∈ s.live) (hpq : p ≠ q)
      (hcall : copyPrivate p q s.machine = .ok m) : Step c s ⟨m, s.shared, s.live⟩
  | deletePrivate {s : State} {m : Machine} (pd cr3 : ℕ) (hpd : pd ∈ s.live)
      (hcall : deletePrivate c cr3 pd s.machine = .ok m) : Step c s ⟨m, s.shared, s.live⟩
  | deletePd {s : State} {m : Machine} (pd cr3 : ℕ) (hpd : pd ∈ s.live)
      (hcall : deletePd c cr3 pd s.machine = .ok m) : Step c s ⟨m, s.shared, s.live.erase pd⟩
  | write {s : State} (pd va f v : ℕ) (hpd : pd ∈ s.live) (hlo : 0x80000000 ≤ va)
      (hva : va < 2 ^ 32) (hf : Maps s.machine pd va f) :
      Step c s ⟨s.machine.store (f + offset va) v, s.shared, s.live⟩

/-- Between operations the address spaces of the live processes are laid out in memory. -/
structure Inv (c : Config) (r : Pool) (low : ℕ → ℕ) (s : State) (A : List ℕ)
    (occ : Role → Option ℕ) : Prop where
  layout : Layout c r low ∅ s.shared s.machine A occ
  closed : Closed c occ
  live : ∀ pd, pd ∈ s.live ↔ occ (.dir pd) = some pd
  nodup : s.live.Nodup

section

variable {c : Config} {r : Pool} {low : ℕ → ℕ} {s t : State} {A : List ℕ} {occ : Role → Option ℕ}

theorem Inv.next (I : Inv c r low s A occ) {m : Machine} {A' : List ℕ} {occ' : Role → Option ℕ}
    (hL : Layout c r low ∅ s.shared m A' occ') (C : Closed c occ')
    (hdir : ∀ q, occ' (.dir q) = occ (.dir q)) :
    Inv c r low ⟨m, s.shared, s.live⟩ A' occ' :=
  ⟨hL, C, fun pd => by rw [hdir]; exact I.live pd, I.nodup⟩

theorem Inv.walk (I : Inv c r low s A occ) {pd i j : ℕ} (hpd : pd ∈ s.live)
    (hi : 512 ≤ i ∧ i < 1024) (hj : j < 1024) (hpde : present (s.machine.mem (pd + 4 * i)))
    (hpte : present (s.machine.mem (frameOf (s.machine.mem (pd + 4 * i)) + 4 * j))) :
    ∃ t, occ (.table pd i) = some t ∧ frameOf (s.machine.mem (pd + 4 * i)) = t ∧
      ((∃ f flags, occ (.data pd i j) = some f ∧ frameOf (s.machine.mem (t + 4 * j)) = f ∧
        s.machine.mem (t + 4 * j) = f ||| flags ∧ flags = kernelFlags c (pageVa i j)) ∨
      occ (.data pd i j) = none ∧ isSpecial c (pageVa i j) ∧
        s.machine.mem (t + 4 * j) = pageVa i j ||| 3) := by
  have hdir := (I.live pd).mp hpd
  rcases I.layout.read_slot hdir hi with ⟨-, habs⟩ | ⟨t, ht, -, hframe⟩
  · simp only [present, habs] at hpde
    omega
  · have hframe' : frameOf (s.machine.mem (pd + 4 * i)) = t := hframe
    rw [hframe'] at hpte
    refine ⟨t, ht, hframe', ?_⟩
    rcases I.layout.tree.entry (.data pd i j) (.table pd i) j t (if_pos hj) ht with
      ⟨he, -⟩ | hid
    · have heq : s.machine.mem (t + 4 * j) = word (kernelFlags c (pageVa i j)) (occ (.data pd i j)) :=
        he
      rcases word_present (o := occ (.data pd i j)) (kernelFlags_cases c (pageVa i j))
          (fun f hf => I.layout.aligned hf) with
        ⟨-, habs⟩ | ⟨f, hf, -, hf'⟩
      · rw [heq] at hpte
        simp only [present, habs] at hpte
        omega
      · refine Or.inl ⟨f, _, hf, ?_, ?_, rfl⟩
        · rw [heq]
          exact hf'
        · rw [heq, hf]
          rfl
    · exact Or.inr hid

theorem Inv.below (I : Inv c r low s A occ) (V : Valid c r) {f : ℕ} (hf : f ∈ A) :
    r.start ≤ f ∧ f + frameSize ≤ 0x80000000 := by
  have h₁ := I.layout.owned.mem_bounds hf
  have h₂ := V.poolEnd
  omega

theorem Inv.write (I : Inv c r low s A occ) (V : Valid c r) {pd va f : ℕ} (hpd : pd ∈ s.live)
    (hlo : 0x80000000 ≤ va) (hva : va < 2 ^ 32) (hmaps : Maps s.machine pd va f) (v : ℕ) :
    Inv c r low ⟨s.machine.store (f + offset va) v, s.shared, s.live⟩ A occ := by
  obtain ⟨hpde, hpte, hf⟩ := hmaps
  have hi : 512 ≤ va >>> 22 ∧ va >>> 22 < 1024 := ⟨slot_private hlo, slot_lt hva⟩
  have hoff : offset va < frameSize := by
    rw [offset_eq]
    exact Nat.mod_lt _ (by simp [frameSize])
  obtain ⟨t, ht, hframe, hcase⟩ := I.walk hpd hi (index_lt va) hpde hpte
  refine I.next ?_ I.closed fun _ => rfl
  simp only [pteAt, hframe] at hf
  rcases hcase with ⟨g, flags, hg, hg', -, -⟩ | ⟨-, hs, he⟩
  · obtain rfl : f = g := hf.trans hg'
    refine I.layout.write (I.layout.tree.held _ f hg) (fun x hx => ?_) fun a ha =>
      Function.update_of_ne (by omega) _ _
    exact ⟨pd, _, _, I.layout.tree.inj x _ f hx hg⟩
  · -- the page of an APIC: no frame of the pool is written
    have hhigh : 0x80000000 ≤ f := by
      have hva' : pageVa (va >>> 22) ((va >>> 12) &&& 0x3FF) < 2 ^ 32 := by
        rw [pageVa_eq (index_lt va)]
        have := index_lt va
        omega
      have hge : 0x80000000 ≤ pageVa (va >>> 22) ((va >>> 12) &&& 0x3FF) := by
        rw [pageVa_eq (index_lt va)]
        omega
      rw [he, frameOf, or_flags_frame (pageVa_aligned _ (index_lt va)) hva' (Or.inl rfl)] at hf
      omega
    refine I.layout.agree ?_ fun x f i _ hx hi' => Function.update_of_ne ?_ _ _
    · obtain ⟨fl, k, hH⟩ := I.layout.owned
      refine ⟨fl, k, hH.write fun f hf => Function.update_of_ne ?_ _ _⟩
      have h₁ := hH.mem_bounds (List.mem_append_right A hf)
      have h₂ := V.poolEnd
      simp only [frameSize] at *
      omega
    · have hx' := I.below V (I.layout.tree.held x f hx)
      simp only [frameSize] at hx'
      omega

theorem Inv.made (I : Inv c r low s A occ) {pd : ℕ} {m : Machine} {A' : List ℕ}
    {occ' : Role → Option ℕ} (N : NewSpace c r low s.shared s.machine A occ pd m A' occ') :
    Inv c r low ⟨m, s.shared, pd :: s.live⟩ A' occ' := by
  have hold : occ (.dir pd) ≠ some pd := fun hd => N.fresh (I.layout.tree.held _ pd hd)
  refine ⟨N.layout, N.closed, fun q => ?_, List.nodup_cons.mpr
    ⟨fun hmem => hold ((I.live pd).mp hmem), I.nodup⟩⟩
  rw [List.mem_cons, I.live]
  by_cases hq : q = pd
  · rw [hq]
    simp [N.dir]
  · rw [N.others (.dir q) (by simpa [Role.owner] using hq)]
    simp [hq]

theorem Inv.step (I : Inv c r low s A occ) (V : Valid c r) (h : Step c s t) :
    ∃ A' occ', Inv c r low t A' occ' := by
  cases h with
  | @makePd pd m hcall =>
    obtain ⟨A', occ', N⟩ := (makePd_spec V I.layout I.closed).of_ok hcall
    exact ⟨A', occ', I.made N⟩
  | pageFault pd cr3 saved va hpd hva hcall =>
    obtain ⟨A', occ', hL, C, hdir, -⟩ :=
      (pageFault_spec I.layout I.closed ((I.live pd).mp hpd) hva cr3 saved).of_ok hcall
    exact ⟨A', occ', I.next hL C hdir⟩
  | copyPrivate p q hp hq hpq hcall =>
    have hq' := (I.live q).mp hq
    obtain ⟨A', occ', K, -⟩ :=
      (copyPrivate_spec I.layout I.closed ((I.live p).mp hp) hq' hpq).of_ok hcall
    exact ⟨A', occ', I.next K.layout (K.closed I.layout I.closed hq')
      fun x => K.others _ (by simp) (by simp)⟩
  | deletePrivate pd cr3 hpd hcall =>
    obtain ⟨A', occ', hL, C, hE⟩ :=
      (deletePrivate_spec V I.layout I.closed ((I.live pd).mp hpd) cr3).of_ok hcall
    refine ⟨A', occ', I.next hL C fun q => (hE _).2 fun hx => ?_⟩
    rcases mem_slotRoles hx with ⟨i, j, hx⟩ | ⟨i, hx, -⟩ <;> cases hx
  | deletePd pd cr3 hpd hcall =>
    obtain ⟨A', occ', hL, C, hE⟩ :=
      (deletePd_spec I.layout I.closed ((I.live pd).mp hpd) cr3).of_ok hcall
    refine ⟨A', occ', hL, C, fun q => ?_, I.nodup.erase pd⟩
    rw [I.nodup.mem_erase_iff, I.live]
    by_cases hq : q = pd
    · rw [hq, (hE (.dir pd)).1 (Or.inl rfl)]
      simp
    · rw [(hE (.dir q)).2]
      · simp [hq]
      · rintro (hx | hx)
        · exact hq (by simpa using hx)
        · obtain ⟨i, -, hx | ⟨j, -, hx⟩⟩ := mem_privateRoles hx <;> cases hx
  | write pd va f v hpd hlo hva hf => exact ⟨A, occ, I.write V hpd hlo hva hf v⟩

end

theorem boot_spec {c : Config} (P : Platform c) (mem : ℕ → ℕ) :
    Outcome (boot c mem) (fun s => ∃ r : Pool,
        (r.start = vmmFrames ∧ frameSize * r.count = poolSize c) ∧ ∃ low A occ,
        Inv c r low ⟨s.2, s.1, []⟩ A occ ∧ A.length ≤ 1 + sharedSlots c ∧ Tidy A occ ∧
        ∀ x : Role, x.isPrivate → occ x = none)
      fun _ => poolSize c < frameSize * (1 + sharedSlots c) ∨ ¬ frameSize ∣ poolSize c := by
  have hge := P.memSize_ge
  have hmem := P.memSize
  refine .bind ?_
  cases hinit : init mem vmmFrames (poolSize c) with
  | error e =>
    refine .error (Or.inr fun hdvd => ?_)
    have hsize : offset (poolSize c) = 0 := by
      rw [offset_eq]
      exact Nat.mod_eq_zero_of_dvd hdvd
    have hstart : offset vmmFrames = 0 := rfl
    simp [init, hsize, hstart] at hinit
  | ok m₀ =>
    obtain ⟨r, hs, hc, hH⟩ := init_holds (by simp [vmmFrames]) (by simp [vmmFrames])
      (by simp only [poolSize, vmmFrames] at *; omega) hinit
    refine .ok ((globalInit_spec hH P.memSize).weaken ?_ fun _ he => Or.inl ?_)
    · rintro ⟨shared, m⟩ ⟨A, occ, hB, hlen, htidy⟩
      refine ⟨r, ⟨hs, hc⟩, _, A, occ, ⟨hB.layout, ⟨fun pd i _ => hB.bare (.table pd i) trivial,
        fun pd i j _ => hB.bare (.data pd i j) trivial,
        fun pd i hd => absurd (hB.bare (.dir pd) trivial) hd⟩, fun pd => ?_, List.nodup_nil⟩, hlen, htidy, hB.bare⟩
      rw [hB.bare (.dir pd) trivial]
      simp
    · rw [← hc]
      exact Nat.mul_lt_mul_of_pos_left he (by simp [frameSize])

theorem inv_of_init {c : Config} (P : Platform c) {s : State} (h : Init c s) :
    ∃ r : Pool, (r.start = vmmFrames ∧ frameSize * r.count = poolSize c) ∧
      ∃ low A occ, Inv c r low s A occ := by
  obtain ⟨hboot⟩ := h
  obtain ⟨r, hr, low, A, occ, I, -⟩ := (boot_spec P _).of_ok hboot
  exact ⟨r, hr, low, A, occ, I⟩

theorem inv_of_reachable {c : Config} (P : Platform c) {s : State}
    (h : Reachable (Init c) (Step c) s) :
    ∃ r : Pool, (r.start = vmmFrames ∧ frameSize * r.count = poolSize c) ∧
      ∃ low A occ, Inv c r low s A occ := by
  refine h.invariant (I := fun s => ∃ r : Pool,
    (r.start = vmmFrames ∧ frameSize * r.count = poolSize c) ∧ ∃ low A occ, Inv c r low s A occ)
    (fun s hs => inv_of_init P hs) ?_
  rintro s t ⟨r, hr, low, A, occ, I⟩ hst
  obtain ⟨A', occ', I'⟩ := I.step (P.valid hr.1 hr.2) hst
  exact ⟨r, hr, low, A', occ', I'⟩

end OsShell.Vmm
