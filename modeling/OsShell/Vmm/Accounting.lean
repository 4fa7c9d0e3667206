import OsShell.Vmm.Walks
import OsShell.Vmm.Isolation

/-!
# Frames are accounted for

Next to a run of the memory manager stands a ledger: for each address space
what `allocFrame` returned while its operations ran, since its directory was
made, and what they passed to `deallocFrame`. A page fault is taken where the
page is not present, which is when the processor raises it.
-/

namespace OsShell.Vmm

open PhysMem Stopping FrameTree Runs
open Relation (ReflTransGen)

structure Ledger where
  state : State
  got : ℕ → List ℕ
  gave : ℕ → List ℕ

namespace Ledger

inductive Init (c : Config) : Ledger → Prop
  | boot {s : State} (h : Vmm.Init c s) : Init c ⟨s, fun _ => [], fun _ => []⟩

inductive Step (c : Config) : Ledger → Ledger → Prop
  | makePd {s : State} {got gave : ℕ → List ℕ} {pd : ℕ} {m : Machine}
      (hcall : Vmm.makePd c s.shared s.machine = .ok (pd, m)) :
      Step c ⟨s, got, gave⟩ ⟨⟨m, s.shared, pd :: s.live⟩,
        Function.update got pd (taken s.machine m), Function.update gave pd []⟩
  | pageFault {s : State} {got gave : ℕ → List ℕ} {m : Machine} (pd cr3 saved va : ℕ)
      (hpd : pd ∈ s.live) (hlo : 0x80000000 ≤ va) (hva : va < 2 ^ 32)
      (hnew : ∀ f, ¬ Maps s.machine pd va f)
      (hcall : Vmm.pageFault c cr3 saved pd va s.machine = .ok m) :
      Step c ⟨s, got, gave⟩ ⟨⟨m, s.shared, s.live⟩,
        Function.update got pd (got pd ++ taken s.machine m), gave⟩
  | copyPrivate {s : State} {got gave : ℕ → List ℕ} {m : Machine} (p q : ℕ) (hp : p ∈ s.live)
      (hq : q ∈ s.live) (hpq : p ≠ q) (hcall : Vmm.copyPrivate p q s.machine = .ok m) :
      Step c ⟨s, got, gave⟩ ⟨⟨m, s.shared, s.live⟩,
        Function.update got q (got q ++ taken s.machine m), gave⟩
  | deletePrivate {s : State} {got gave : ℕ → List ℕ} {m : Machine} (pd cr3 : ℕ) (hpd : pd ∈ s.live)
      (hcall : Vmm.deletePrivate c cr3 pd s.machine = .ok m) :
      Step c ⟨s, got, gave⟩ ⟨⟨m, s.shared, s.live⟩, got,
        Function.update gave pd (gave pd ++ deletePrivateFrames c pd s.machine)⟩
  | deletePd {s : State} {got gave : ℕ → List ℕ} {m : Machine} (pd cr3 : ℕ) (hpd : pd ∈ s.live)
      (hcall : Vmm.deletePd c cr3 pd s.machine = .ok m) :
      Step c ⟨s, got, gave⟩ ⟨⟨m, s.shared, s.live.erase pd⟩, got,
        Function.update gave pd (gave pd ++ deletePdFrames c pd s.machine)⟩
  | write {s : State} {got gave : ℕ → List ℕ} (pd va f v : ℕ) (hpd : pd ∈ s.live)
      (hlo : 0x80000000 ≤ va) (hva : va < 2 ^ 32) (hf : Maps s.machine pd va f) :
      Step c ⟨s, got, gave⟩
        ⟨⟨s.machine.store (f + offset va) v, s.shared, s.live⟩, got, gave⟩

end Ledger

/-- The roles are all there is: what is held but not free is in one of them. Those of no process
are as they were in `occ₀`. -/
structure Filled (c : Config) (r : Pool) (low : ℕ → ℕ) (occ₀ : Role → Option ℕ) (s : State)
    (A : List ℕ) (occ : Role → Option ℕ) : Prop where
  inv : Inv c r low s A occ
  tidy : Tidy A occ
  noAlias : ∀ q i, occ (.alias q i) = none
  plain : ∀ q i j, isSpecial c (pageVa i j) → occ (.data q i j) = none
  shared : ∀ x : Role, x.owner = none → occ x = occ₀ x

structure Holding (occ : Role → Option ℕ) (q : ℕ) (hs : List ℕ) : Prop where
  nodup : hs.Nodup
  mem : ∀ f, f ∈ hs ↔ ∃ x : Role, x.owner = some q ∧ occ x = some f

structure Balanced (c : Config) (r : Pool) (low : ℕ → ℕ) (occ₀ : Role → Option ℕ) (b : Ledger)
    (A : List ℕ) (occ : Role → Option ℕ) : Prop where
  filled : Filled c r low occ₀ b.state A occ
  held : ∀ q, ∃ hs, (b.got q).Perm (b.gave q ++ hs) ∧ Holding occ q hs
  pool : ∀ q, ∀ f ∈ b.gave q, f ∈ r.frames r.count ∧ ∀ x : Role, x.owner = none → occ₀ x ≠ some f

section

variable {c : Config} {r : Pool} {low : ℕ → ℕ} {occ₀ : Role → Option ℕ} {b : Ledger} {s t : State}
  {A A' : List ℕ} {occ occ' : Role → Option ℕ} {q : ℕ} {hs fs : List ℕ}

theorem Filled.vacant (F : Filled c r low occ₀ s A occ) (hq : q ∉ s.live) {x : Role}
    (hx : x.owner = some q) : occ x = none := by
  have hdir : occ (.dir q) = none := by
    by_contra hne
    obtain ⟨f, hf⟩ := Option.ne_none_iff_exists'.mp hne
    obtain rfl := F.inv.layout.dirs q f hf
    exact hq ((F.inv.live f).mpr hf)
  cases x with
  | sharedDir => cases hx
  | sharedTable i => cases hx
  | dir pd =>
    cases hx
    exact hdir
  | «alias» pd i => exact F.noAlias pd i
  | table pd i =>
    cases hx
    exact F.inv.closed.tables q i hdir
  | data pd i j =>
    cases hx
    exact F.inv.closed.pages q i j (F.inv.closed.tables q i hdir)

theorem Filled.subset (F : Filled c r low occ₀ s A occ) (F' : Filled c r low occ₀ t A' occ')
    (hkeep : ∀ x f, occ x = some f → occ' x = some f) : ∀ f ∈ A, f ∈ A' := fun f hf => by
  obtain ⟨x, hx⟩ := F.tidy f hf
  exact F'.inv.layout.tree.held x f (hkeep x f hx)

theorem Holding.congr (H : Holding occ q hs)
    (heq : ∀ x : Role, x.owner = some q → occ' x = occ x) : Holding occ' q hs := by
  refine ⟨H.nodup, fun f => ?_⟩
  rw [H.mem]
  exact exists_congr fun x => and_congr_right fun hx => by rw [heq x hx]

theorem Holding.take (H : Holding occ q hs) (F : Filled c r low occ₀ s A occ)
    (F' : Filled c r low occ₀ t A' occ') (hkeep : ∀ x f, occ x = some f → occ' x = some f)
    (hothers : ∀ x : Role, x.owner ≠ some q → occ' x = occ x) :
    Holding occ' q (hs ++ taken s.machine t.machine) := by
  have hsub := F.subset F' hkeep
  have hperm := taken_perm F.inv.layout.owned F'.inv.layout.owned hsub
  have hnodup := hperm.nodup_iff.mp F'.inv.layout.owned.nodup
  obtain ⟨-, htaken, hdis⟩ := List.nodup_append.mp hnodup
  have hsA : ∀ f ∈ hs, f ∈ A := fun f hf => by
    obtain ⟨x, -, hx⟩ := (H.mem f).mp hf
    exact F.inv.layout.tree.held x f hx
  refine ⟨List.nodup_append.mpr ⟨H.nodup, htaken, fun f hf => hdis f (hsA f hf)⟩, fun f => ?_⟩
  rw [List.mem_append, H.mem]
  constructor
  · intro hf
    have hfA : f ∈ A' := hf.elim
      (fun ⟨x, _, hx⟩ => hsub f (F.inv.layout.tree.held x f hx))
      fun hf => hperm.mem_iff.mpr (List.mem_append_right A hf)
    obtain ⟨y, hy⟩ := F'.tidy f hfA
    refine ⟨y, ?_, hy⟩
    by_contra hyq
    rw [hothers y hyq] at hy
    rcases hf with ⟨x, hxq, hx⟩ | hf
    · exact hyq (F.inv.layout.tree.inj x y f hx hy ▸ hxq)
    · exact hdis f (F.inv.layout.tree.held y f hy) f hf rfl
  · rintro ⟨x, hxq, hx⟩
    rcases List.mem_append.mp (hperm.mem_iff.mp (F'.inv.layout.tree.held x f hx)) with hfA | hf
    · obtain ⟨y, hy⟩ := F.tidy f hfA
      refine Or.inl ⟨y, ?_, hy⟩
      by_contra hyq
      have hy' := (hothers y hyq).trans hy
      exact hyq (F'.inv.layout.tree.inj x y f hx hy' ▸ hxq)
    · exact Or.inr hf

theorem Holding.give (H : Holding occ q hs) (F : Filled c r low occ₀ s A occ)
    (F' : Filled c r low occ₀ t A' occ') (hperm : A.Perm (fs ++ A'))
    (hfs : ∀ f ∈ fs, ∃ x : Role, x.owner = some q ∧ occ x = some f)
    (hstay : ∀ x f, occ' x = some f → occ x = some f) :
    ∃ hs', hs.Perm (fs ++ hs') ∧ Holding occ' q hs' := by
  have hnodup := hperm.nodup_iff.mp F.inv.layout.owned.nodup
  obtain ⟨hfsn, -, hdis⟩ := List.nodup_append.mp hnodup
  obtain ⟨l, hl, hsub⟩ := List.subperm_of_subset hfsn fun f hf => (H.mem f).mpr (hfs f hf)
  obtain ⟨hs', hhs'⟩ := hsub.exists_perm_append
  have hhs := hhs'.trans (hl.append_right hs')
  obtain ⟨-, hnodup', hdis'⟩ := List.nodup_append.mp (hhs.nodup_iff.mp H.nodup)
  refine ⟨hs', hhs, hnodup', fun f => ⟨fun hf => ?_, ?_⟩⟩
  · obtain ⟨x, hxq, hx⟩ := (H.mem f).mp (hhs.mem_iff.mpr (List.mem_append_right fs hf))
    have hfA : f ∈ A' := (List.mem_append.mp (hperm.mem_iff.mp
      (F.inv.layout.tree.held x f hx))).resolve_left fun hmem => hdis' f hmem f hf rfl
    obtain ⟨y, hy⟩ := F'.tidy f hfA
    exact ⟨y, F.inv.layout.tree.inj x y f hx (hstay y f hy) ▸ hxq, hy⟩
  · rintro ⟨x, hxq, hx⟩
    have hmem := hhs.mem_iff.mp ((H.mem f).mpr ⟨x, hxq, hstay x f hx⟩)
    exact (List.mem_append.mp hmem).resolve_left fun hf =>
      hdis f hf f (F'.inv.layout.tree.held x f hx) rfl

theorem Layout.not_within_of_ne {pending : Set (ℕ × ℕ)} {shared : ℕ} {m : Machine}
    (h : Layout c r low pending shared m A occ) {x y : Role} {f g a : ℕ} (hx : occ x = some f)
    (hy : occ y = some g) (hne : y ≠ x) (ha : Within g a) : ¬ Within f a := fun hf =>
  hne (h.tree.inj y x g hy (within_unique (h.aligned hy).1 (h.aligned hx).1 ha hf ▸ hx))

def SharedKept (occ : Role → Option ℕ) (m m' : Machine) : Prop :=
  ∀ (x : Role) f, x.owner = none → occ x = some f → Kept m m' [f]

theorem Filled.absent_page (F : Filled c r low occ₀ s A occ) {pd va : ℕ}
    (hpd : pd ∈ s.live) (hlo : 0x80000000 ≤ va) (hva : va < 2 ^ 32)
    (hnew : ∀ f, ¬ Maps s.machine pd va f) :
    occ (.data pd (va >>> 22) ((va >>> 12) &&& 0x3FF)) = none ∧
      ¬ isSpecial c (pageVa (va >>> 22) ((va >>> 12) &&& 0x3FF)) := by
  have hi : 512 ≤ va >>> 22 ∧ va >>> 22 < 1024 := ⟨slot_private hlo, slot_lt hva⟩
  have hj := index_lt va
  have hdir := (F.inv.live pd).mp hpd
  -- with a table there the entry itself must be absent
  have hentry : ∀ t, occ (.table pd (va >>> 22)) = some t →
      ¬ present (s.machine.mem (t + 4 * ((va >>> 12) &&& 0x3FF))) := by
    intro t ht hpte
    rcases F.inv.layout.read_slot hdir hi with ⟨hnone, -⟩ | ⟨t', ht', hpde, hframe⟩
    · rw [hnone] at ht
      cases ht
    · rw [ht'] at ht
      cases ht
      refine hnew _ ⟨hpde, ?_, rfl⟩
      rwa [pteAt, frameOf, hframe]
  have hspecial : ¬ isSpecial c (pageVa (va >>> 22) ((va >>> 12) &&& 0x3FF)) := by
    intro hs
    obtain ⟨t, ht⟩ := Option.ne_none_iff_exists'.mp
      (F.inv.closed.apics pd _ (by simp [hdir]) (apicSlot_of_special hi.1 hj hs))
    exact hentry t ht (F.inv.layout.read_special ht hj hs (pageVa_aligned _ hj))
  refine ⟨?_, hspecial⟩
  cases ht : occ (.table pd (va >>> 22)) with
  | none => exact F.inv.closed.pages pd _ _ ht
  | some t =>
    rcases F.inv.layout.read_page ht hj hspecial with ⟨hnone, -⟩ | ⟨f, -, hpte, -⟩
    · exact hnone
    · exact absurd hpte (hentry t ht)

theorem Filled.makePd (F : Filled c r low occ₀ s A occ) {pd : ℕ} {m : Machine}
    (N : NewSpace c r low s.shared s.machine A occ pd m A' occ') :
    Filled c r low occ₀ ⟨m, s.shared, pd :: s.live⟩ A' occ' := by
  have hnew : pd ∉ s.live := fun hmem =>
    N.fresh (F.inv.layout.tree.held _ pd ((F.inv.live pd).mp hmem))
  have htable : ∀ i, apicSlot c i → ∃ t, occ' (.table pd i) = some t := fun i hi =>
    Option.ne_none_iff_exists'.mp fun hn => (N.tables i).mp hn hi
  obtain ⟨t₁, ht₁⟩ := htable _ (Or.inl rfl)
  obtain ⟨t₂, ht₂⟩ := htable _ (Or.inr rfl)
  -- the frames in the new roles are as many as were taken
  obtain ⟨l, hnodup, hlen, hrole⟩ : ∃ l : List ℕ, l.Nodup ∧ l.length = makePdFrames c ∧
      ∀ f ∈ l, f ∉ A ∧ ∃ x, occ' x = some f ∧ (x = .dir pd ∨ ∃ i, x = .table pd i) := by
    have hpt : ∀ i t, occ' (.table pd i) = some t → pd ≠ t := by
      rintro i t ht rfl
      exact absurd (N.layout.tree.inj _ _ pd N.dir ht) (by simp)
    by_cases heq : c.ioAPIC >>> 22 = c.localAPIC >>> 22
    · refine ⟨[pd, t₁], by simpa using hpt _ t₁ ht₁, by rw [makePdFrames, if_pos heq]; rfl, ?_⟩
      simp only [List.mem_cons, List.not_mem_nil, or_false]
      rintro f (rfl | rfl)
      · exact ⟨N.fresh, .dir f, N.dir, Or.inl rfl⟩
      · exact ⟨N.newTables _ f ht₁, _, ht₁, Or.inr ⟨_, rfl⟩⟩
    · have ht : t₁ ≠ t₂ := by
        rintro rfl
        exact heq (by simpa using N.layout.tree.inj _ _ t₁ ht₁ ht₂)
      refine ⟨[pd, t₁, t₂], by simpa [ht] using ⟨hpt _ t₁ ht₁, hpt _ t₂ ht₂⟩,
        by rw [makePdFrames, if_neg heq]; rfl, ?_⟩
      simp only [List.mem_cons, List.not_mem_nil, or_false]
      rintro f (rfl | rfl | rfl)
      · exact ⟨N.fresh, .dir f, N.dir, Or.inl rfl⟩
      · exact ⟨N.newTables _ f ht₁, _, ht₁, Or.inr ⟨_, rfl⟩⟩
      · exact ⟨N.newTables _ f ht₂, _, ht₂, Or.inr ⟨_, rfl⟩⟩
  have hall : (A ++ l).Perm A' := by
    refine (List.subperm_of_subset (List.nodup_append.mpr ⟨F.inv.layout.owned.nodup, hnodup,
      fun f hf g hg heq => (hrole g hg).1 (heq ▸ hf)⟩) fun f hf => ?_).perm_of_length_le ?_
    · rcases List.mem_append.mp hf with hf | hf
      · exact N.subset f hf
      · obtain ⟨x, hx, -⟩ := (hrole f hf).2
        exact N.layout.tree.held x f hx
    · rw [List.length_append, N.length, hlen]
  have hwhere : ∀ f ∈ A', ∃ x, occ' x = some f ∧ ∀ i, x ≠ .alias pd i := by
    intro f hf
    rcases List.mem_append.mp (hall.mem_iff.mpr hf) with hf | hf
    · obtain ⟨x, hx⟩ := F.tidy f hf
      have hxpd : x.owner ≠ some pd := fun hxq => by
        rw [F.vacant hnew hxq] at hx
        cases hx
      refine ⟨x, (N.others x hxpd).trans hx, ?_⟩
      rintro i rfl
      exact hxpd rfl
    · obtain ⟨-, x, hx, rfl | ⟨i, rfl⟩⟩ := hrole f hf
      · exact ⟨_, hx, by simp⟩
      · exact ⟨_, hx, by simp⟩
  refine ⟨F.inv.made N, fun f hf => ?_, fun q i => ?_, fun q i j hs => ?_, fun x hx => ?_⟩
  · obtain ⟨x, hx, -⟩ := hwhere f hf
    exact ⟨x, hx⟩
  · by_cases hq : q = pd
    · subst hq
      rw [Option.eq_none_iff_forall_ne_some]
      intro f hf
      obtain ⟨x, hx, hne⟩ := hwhere f (N.layout.tree.held _ f hf)
      exact hne i (N.layout.tree.inj x _ f hx hf)
    · rw [N.others _ (by simpa [Role.owner] using hq), F.noAlias]
  · by_cases hq : q = pd
    · rw [hq, N.bare]
    · rw [N.others _ (by simpa [Role.owner] using hq), F.plain q i j hs]
  · rw [N.others x (by simp [hx]), F.shared x hx]

theorem NewSpace.keep (F : Filled c r low occ₀ s A occ) {pd : ℕ} {m : Machine}
    (N : NewSpace c r low s.shared s.machine A occ pd m A' occ') :
    pd ∉ s.live ∧ ∀ x f, occ x = some f → occ' x = some f := by
  have hnew : pd ∉ s.live := fun hmem =>
    N.fresh (F.inv.layout.tree.held _ pd ((F.inv.live pd).mp hmem))
  refine ⟨hnew, fun x f hx => (N.others x fun hxq => ?_).trans hx⟩
  rw [F.vacant hnew hxq] at hx
  cases hx

theorem Filled.pageFault (F : Filled c r low occ₀ s A occ) {pd cr3 saved va : ℕ} {m : Machine}
    (hpd : pd ∈ s.live) (hlo : 0x80000000 ≤ va) (hva : va < 2 ^ 32)
    (hnew : ∀ f, ¬ Maps s.machine pd va f)
    (hcall : Vmm.pageFault c cr3 saved pd va s.machine = .ok m) :
    ∃ A' occ', Filled c r low occ₀ ⟨m, s.shared, s.live⟩ A' occ' ∧
      (∀ x f, occ x = some f → occ' x = some f) ∧ (∀ x : Role, x.owner ≠ some pd → occ' x = occ x) ∧
      SharedKept occ s.machine m := by
  have hdir := (F.inv.live pd).mp hpd
  obtain ⟨hnone, hspecial⟩ := F.absent_page hpd hlo hva hnew
  obtain ⟨pa, m₁, A', occ', t, M, hF⟩ :=
    (pageFault_mapped F.inv.layout F.inv.closed hdir hva cr3 saved).of_ok hcall
  rw [(framedown_slot va).1, (framedown_slot va).2] at M
  generalize va >>> 22 = i at *
  generalize (va >>> 12) &&& 0x3FF = j at *
  have hothers : ∀ x : Role, x.owner ≠ some pd → occ' x = occ x := fun x hx =>
    M.others x (by rintro rfl; exact hx rfl) (by rintro rfl; exact hx rfl)
  have hkeep : ∀ x f, occ x = some f → occ' x = some f := by
    intro x f hx
    by_cases hxt : x = .table pd i
    · subst hxt
      rcases M.held with ⟨ht, -⟩ | ⟨ht, -, -⟩
      · exact M.table.trans (ht.symm.trans hx)
      · rw [ht] at hx
        cases hx
    · refine (M.others x hxt ?_).trans hx
      rintro rfl
      rw [hnone] at hx
      cases hx
  have hnewFrame : ∀ f, f ∈ A' → f = t ∨ f = pa ∨ f ∈ A := by
    intro f hf
    rcases M.held with ⟨-, rfl⟩ | ⟨-, rfl, -⟩
    · exact Or.inr (List.mem_cons.mp hf)
    · simpa only [List.mem_cons] using hf
  refine ⟨A', occ', ⟨F.inv.next M.layout (M.closed hdir F.inv.closed)
    fun q => M.others _ (by simp) (by simp), fun f hf => ?_, fun q k => ?_, fun q k l hs => ?_,
    fun x hx => ?_⟩, hkeep, hothers, fun x f hx hxf g hg a ha => ?_⟩
  · rcases hnewFrame f hf with rfl | rfl | hf
    · exact ⟨_, M.table⟩
    · exact ⟨_, M.data⟩
    · obtain ⟨x, hx⟩ := F.tidy f hf
      exact ⟨x, hkeep x f hx⟩
  · rw [M.others _ (by simp) (by simp), F.noAlias]
  · rw [M.others _ (by simp), F.plain q k l hs]
    intro heq
    simp only [Role.data.injEq] at heq
    obtain ⟨-, rfl, rfl⟩ := heq
    exact hspecial hs
  · rw [hothers x (by simp [hx]), F.shared x hx]
  · obtain rfl := List.mem_singleton.mp hg
    have hxg := hkeep x g hxf
    have hdir' : occ' (.dir pd) = some pd := hkeep _ _ hdir
    rw [M.frame a (M.layout.not_within_of_ne hdir' hxg (by rintro rfl; cases hx) ha)
      (M.layout.not_within_of_ne M.table hxg (by rintro rfl; cases hx) ha)]
    have hpa := M.layout.not_within_of_ne M.data hxg (by rintro rfl; cases hx) ha
    simp only [Within] at hpa
    exact hF.frame a (by omega)

theorem Filled.copyPrivate (F : Filled c r low occ₀ s A occ) {p q : ℕ} {m : Machine}
    (hp : p ∈ s.live) (hq : q ∈ s.live) (hpq : p ≠ q)
    (hcall : Vmm.copyPrivate p q s.machine = .ok m) :
    ∃ A' occ', Filled c r low occ₀ ⟨m, s.shared, s.live⟩ A' occ' ∧
      (∀ x f, occ x = some f → occ' x = some f) ∧ (∀ x : Role, x.owner ≠ some q → occ' x = occ x) ∧
      SharedKept occ s.machine m := by
  have hq' := (F.inv.live q).mp hq
  obtain ⟨A', occ', K, -, htidy⟩ :=
    (copyPrivate_spec F.inv.layout F.inv.closed ((F.inv.live p).mp hp) hq' hpq).of_ok hcall
  have hothers : ∀ x : Role, x.owner ≠ some q → occ' x = occ x := fun x hx =>
    K.others x (by rintro i rfl; exact hx rfl) (by rintro i j rfl; exact hx rfl)
  have hkeep : ∀ x f, occ x = some f → occ' x = some f := by
    intro x f hx
    by_cases hxq : x.owner = some q
    · cases x with
      | sharedDir => cases hxq
      | sharedTable i => cases hxq
      | dir pd => exact (K.others _ (by simp) (by simp)).trans hx
      | «alias» pd i => exact (K.others _ (by simp) (by simp)).trans hx
      | table pd i =>
        cases hxq
        exact K.slotKept i f hx
      | data pd i j =>
        cases hxq
        by_cases hmem : (i, j) ∈ Set.Ico 512 1024 ×ˢ Set.Iio 1024
        · have hdone := K.pageDone i j hmem
          rw [Copied, if_pos (Or.inr (Or.inl (by simp [hx])))] at hdone
          exact hdone.trans hx
        · exact (K.pageTodo i j hmem).trans hx
    · exact (hothers x hxq).trans hx
  refine ⟨A', occ', ⟨F.inv.next K.layout (K.closed F.inv.layout F.inv.closed hq')
    fun x => K.others _ (by simp) (by simp), htidy F.tidy, fun x i => ?_, fun x i j hs => ?_,
    fun x hx => ?_⟩, hkeep, hothers, fun x f hx hxf => K.kept_other F.inv.layout hq' hxf (by simp [hx])⟩
  · rw [K.others _ (by simp) (by simp), F.noAlias]
  · by_cases hxq : x = q
    · subst hxq
      by_cases hmem : (i, j) ∈ Set.Ico 512 1024 ×ˢ Set.Iio 1024
      · have hdone := K.pageDone i j hmem
        rw [Copied, if_pos (Or.inl hs)] at hdone
        rw [hdone, F.plain x i j hs]
      · rw [K.pageTodo i j hmem, F.plain x i j hs]
    · rw [hothers _ (by simpa [Role.owner] using hxq), F.plain x i j hs]
  · rw [hothers x (by simp [hx]), F.shared x hx]

theorem Filled.split (F : Filled c r low occ₀ s A occ) {l : List Role} (hl : l.Nodup) :
    ∃ B, A.Perm (l.filterMap occ ++ B) ∧ ∀ f ∈ B, ∃ x ∉ l, occ x = some f := by
  have hnodup : (l.filterMap occ).Nodup := hl.filterMap fun x y f hx hy =>
    F.inv.layout.tree.inj x y f (by simpa using hx) (by simpa using hy)
  obtain ⟨l', hl', hsub⟩ := List.subperm_of_subset hnodup fun f hf => by
    obtain ⟨x, -, hx⟩ := List.mem_filterMap.mp hf
    exact F.inv.layout.tree.held x f hx
  obtain ⟨B, hB⟩ := hsub.exists_perm_append
  have hperm := hB.trans (hl'.append_right B)
  refine ⟨B, hperm, fun f hf => ?_⟩
  obtain ⟨x, hx⟩ := F.tidy f (hperm.mem_iff.mpr (List.mem_append_right _ hf))
  refine ⟨x, fun hxl => ?_, hx⟩
  exact (List.nodup_append.mp (hperm.nodup_iff.mp F.inv.layout.owned.nodup)).2.2 f
    (List.mem_filterMap.mpr ⟨x, hxl, hx⟩) f hf rfl

theorem Filled.erase (F : Filled c r low occ₀ s A occ) (I' : Inv c r low t A' occ') {S : Set Role}
    (hE : Erases S occ occ') {B : List ℕ} (hAB : A'.Perm B)
    (hB : ∀ f ∈ B, ∃ x ∉ S, occ x = some f) (hS : ∀ x ∈ S, x.owner ≠ none) :
    Filled c r low occ₀ t A' occ' := by
  refine ⟨I', fun f hf => ?_, fun q i => hE.none_of_none (F.noAlias q i),
    fun q i j hs => hE.none_of_none (F.plain q i j hs), fun x hx => ?_⟩
  · obtain ⟨x, hxS, hx⟩ := hB f (hAB.mem_iff.mp hf)
    exact ⟨x, ((hE x).2 hxS).trans hx⟩
  · rw [(hE x).2 fun hxS => hS x hxS hx, F.shared x hx]

theorem containsSpecial_iff (V : Valid c r) {i : ℕ} (hi : 512 ≤ i) :
    containsSpecial c i = true ↔ apicSlot c i := by
  rw [apicSlot_iff V hi, containsSpecial, List.any_eq_true]
  simp only [List.mem_range'_1, decide_eq_true_eq]
  exact exists_congr fun j => by simp

theorem mem_roleList_of_slotRoles (V : Valid c r) {pd : ℕ} {x : Role}
    (hx : x ∈ ⋃ i < 1024, slotRoles c pd i) : x ∈ roleList c (containsSpecial c) pd := by
  simp only [slotRoles, pageRoles, Set.mem_iUnion] at hx
  obtain ⟨i, hi, ⟨hlo, hx⟩ | ⟨hlo, rfl, hslot⟩⟩ := hx
  · obtain ⟨j, hj, rfl, hs⟩ := by simpa only [Set.mem_iUnion] using hx
    exact mem_roleList.mpr ⟨i, ⟨hlo, hi⟩, Or.inl ⟨j, hj, hs, rfl⟩⟩
  · refine mem_roleList.mpr ⟨i, ⟨hlo, hi⟩, Or.inr ⟨?_, rfl⟩⟩
    rw [← Bool.not_eq_true, containsSpecial_iff V hlo]
    exact hslot

theorem owner_of_roleList {keep : ℕ → Bool} {pd : ℕ} {x : Role} (hx : x ∈ roleList c keep pd) :
    x.owner = some pd := by
  obtain ⟨i, -, ⟨j, -, -, rfl⟩ | ⟨-, rfl⟩⟩ := mem_roleList.mp hx <;> rfl

structure Freed (c : Config) (r : Pool) (low : ℕ → ℕ) (occ₀ : Role → Option ℕ) (A : List ℕ)
    (occ : Role → Option ℕ) (pd : ℕ) (fs : List ℕ) (t : State) (A' : List ℕ)
    (occ' : Role → Option ℕ) : Prop where
  filled : Filled c r low occ₀ t A' occ'
  perm : A.Perm (fs ++ A')
  roles : ∀ f ∈ fs, ∃ x : Role, x.owner = some pd ∧ occ x = some f
  others : ∀ x : Role, x.owner ≠ some pd → occ' x = occ x
  stay : ∀ x f, occ' x = some f → occ x = some f

theorem Filled.deletePrivate (F : Filled c r low occ₀ s A occ) (V : Valid c r) {pd cr3 : ℕ}
    {m : Machine} (hpd : pd ∈ s.live) (hcall : Vmm.deletePrivate c cr3 pd s.machine = .ok m) :
    (privateWords c (containsSpecial c) pd s.machine).foldlM clearWord s.machine = .ok m ∧
      ∃ A' occ', Freed c r low occ₀ A occ pd (deletePrivateFrames c pd s.machine)
        ⟨m, s.shared, s.live⟩ A' occ' := by
  have hdir := (F.inv.live pd).mp hpd
  have hcr3 : pd = cr3 := by
    by_contra hne
    simp [Vmm.deletePrivate, assert, hne] at hcall
  have hwalk := deletePrivate_eq F.inv.layout F.inv.closed hdir hcr3
  rw [hcall] at hwalk
  obtain ⟨A', occ', hL, C, hE⟩ :=
    (deletePrivate_spec V F.inv.layout F.inv.closed hdir cr3).of_ok hcall
  have hnodup : (roleList c (containsSpecial c) pd).Nodup := nodup_roleList
  obtain ⟨B, hperm, hB⟩ := F.split hnodup
  have hframe : ∀ x ∈ roleList c (containsSpecial c) pd, (wordOf occ x).map Prod.snd = occ x :=
    fun x hx => wordOf_snd hdir F.inv.closed hx
  have howned : Owned r m B := by
    refine (clears_spec (E := fun _ => True) hframe roleList_order (fun x k => ?_)
      (F.inv.layout.owned.perm hperm) fun x hx y k g hxy hy hg => ?_).of_ok
        (privateWords_eq F.inv.layout F.inv.closed hdir ▸ hwalk.symm)
    · exact (shape c low ∅).parent_ne x k
    · have hgA := hperm.mem_iff.mp (F.inv.layout.tree.held y g hg)
      refine (List.mem_append.mp hgA).resolve_left fun hmem => ?_
      obtain ⟨z, hz, hzg⟩ := List.mem_filterMap.mp hmem
      exact hy (F.inv.layout.tree.inj z y g hzg hg ▸ hz)
  have hAB := hL.owned.unique howned
  have hsub : ∀ x ∈ ⋃ i < 1024, slotRoles c pd i, x ∈ roleList c (containsSpecial c) pd :=
    fun x hx => mem_roleList_of_slotRoles V hx
  have hfs : deletePrivateFrames c pd s.machine = (roleList c (containsSpecial c) pd).filterMap occ :=
    map_privateWords F.inv.layout F.inv.closed hdir
  refine ⟨hwalk.symm, A', occ', ?_, ?_, fun f hf => ?_, fun x hx => (hE x).2 fun hxS => ?_,
    fun x f hx => hE.some_of_some hx⟩
  · refine F.erase (F.inv.next hL C fun q => (hE _).2 fun hx => ?_) hE hAB
      (fun f hf => ?_) fun x hx hn => ?_
    · rcases mem_slotRoles hx with ⟨i, j, hx⟩ | ⟨i, hx, -⟩ <;> cases hx
    · obtain ⟨x, hx, hxf⟩ := hB f hf
      exact ⟨x, fun hxS => hx (hsub x hxS), hxf⟩
    · rw [owner_of_roleList (hsub x hx)] at hn
      cases hn
  · rw [hfs]
    exact hperm.trans (hAB.symm.append_left _)
  · rw [hfs] at hf
    obtain ⟨x, hx, hxf⟩ := List.mem_filterMap.mp hf
    exact ⟨x, owner_of_roleList hx, hxf⟩
  · exact hx (owner_of_roleList (hsub x hxS))

theorem Filled.deletePd (F : Filled c r low occ₀ s A occ) {pd cr3 : ℕ} {m : Machine}
    (hpd : pd ∈ s.live) (hcall : Vmm.deletePd c cr3 pd s.machine = .ok m) :
    (deletePdFrames c pd s.machine).foldlM deallocFrame s.machine = .ok m ∧
      ∃ A' occ', Freed c r low occ₀ A occ pd (deletePdFrames c pd s.machine)
        ⟨m, s.shared, s.live.erase pd⟩ A' occ' := by
  have hdir := (F.inv.live pd).mp hpd
  have hcr3 : pd ≠ cr3 := by
    rintro rfl
    simp [Vmm.deletePd, assert] at hcall
  have hwalk := deletePd_eq F.inv.layout F.inv.closed hdir hcr3
  rw [hcall] at hwalk
  obtain ⟨A', occ', hL, C, hE⟩ := (deletePd_spec F.inv.layout F.inv.closed hdir cr3).of_ok hcall
  let l := roleList c (fun _ => false) pd ++ [.dir pd]
  have hl : l.Nodup := List.nodup_append.mpr ⟨nodup_roleList, by simp, fun x hx y hy heq => by
    obtain rfl := List.mem_singleton.mp hy
    obtain ⟨i, -, ⟨j, -, -, h⟩ | ⟨-, h⟩⟩ := mem_roleList.mp hx <;> rw [heq] at h <;> cases h⟩
  have hfs : deletePdFrames c pd s.machine = l.filterMap occ := by
    rw [deletePdFrames, map_privateWords F.inv.layout F.inv.closed hdir, List.filterMap_append,
      List.filterMap_cons_some hdir, List.filterMap_nil]
  obtain ⟨B, hperm, hB⟩ := F.split hl
  rw [← hfs] at hperm
  have hAB := hL.owned.unique ((frees_spec (E := fun _ => True)
    (F.inv.layout.owned.perm hperm)).of_ok hwalk.symm)
  -- a role that is given up and not in the list was vacant
  have hsub : ∀ x ∈ ({Role.dir pd} ∪ ⋃ i < 1024, privateRoles pd i : Set Role),
      x ∈ l ∨ occ x = none := by
    rintro x (rfl | hx)
    · exact Or.inl (List.mem_append_right _ (List.mem_singleton_self _))
    · obtain ⟨i, -, rfl | ⟨j, hj, rfl⟩⟩ := mem_privateRoles hx
      · rcases F.inv.layout.ranged (.table pd i) with hi | hn
        · exact Or.inl (List.mem_append_left _ (mem_roleList.mpr ⟨i, hi, Or.inr ⟨rfl, rfl⟩⟩))
        · exact Or.inr hn
      · rcases F.inv.layout.ranged (.table pd i) with hi | hn
        · by_cases hs : isSpecial c (pageVa i j)
          · exact Or.inr (F.plain pd i j hs)
          · exact Or.inl (List.mem_append_left _ (mem_roleList.mpr ⟨i, hi, Or.inl ⟨j, hj, hs, rfl⟩⟩))
        · exact Or.inr (F.inv.closed.pages pd i j hn)
  have howner : ∀ x ∈ ({Role.dir pd} ∪ ⋃ i < 1024, privateRoles pd i : Set Role),
      x.owner = some pd := by
    rintro x (rfl | hx)
    · rfl
    · obtain ⟨i, -, rfl | ⟨j, -, rfl⟩⟩ := mem_privateRoles hx <;> rfl
  have hinv : Inv c r low ⟨m, s.shared, s.live.erase pd⟩ A' occ' := by
    refine ⟨hL, C, fun q => ?_, F.inv.nodup.erase pd⟩
    rw [F.inv.nodup.mem_erase_iff, F.inv.live]
    by_cases hq : q = pd
    · rw [hq, (hE (.dir pd)).1 (Or.inl rfl)]
      simp
    · rw [(hE (.dir q)).2 fun hx => hq (by simpa [Role.owner] using howner _ hx)]
      simp [hq]
  refine ⟨hwalk.symm, A', occ', F.erase hinv hE hAB (fun f hf => ?_) fun x hx hn => ?_,
    hperm.trans (hAB.symm.append_left _), fun f hf => ?_, fun x hx => (hE x).2 fun hxS =>
      hx (howner x hxS), fun x f hx => hE.some_of_some hx⟩
  · obtain ⟨x, hx, hxf⟩ := hB f hf
    refine ⟨x, fun hxS => (hsub x hxS).elim hx fun hn => ?_, hxf⟩
    rw [hn] at hxf
    cases hxf
  · rw [howner x hx] at hn
    cases hn
  · rw [hfs] at hf
    obtain ⟨x, hx, hxf⟩ := List.mem_filterMap.mp hf
    rcases List.mem_append.mp hx with hx | hx
    · exact ⟨x, owner_of_roleList hx, hxf⟩
    · obtain rfl := List.mem_singleton.mp hx
      exact ⟨_, rfl, hxf⟩

theorem Balanced.take (B : Balanced c r low occ₀ b A occ) (F' : Filled c r low occ₀ t A' occ')
    (hkeep : ∀ x f, occ x = some f → occ' x = some f)
    (hothers : ∀ x : Role, x.owner ≠ some q → occ' x = occ x) {g v : List ℕ} (hgv : g = b.got q ∧ v = b.gave q ∨ q ∉ b.state.live ∧ g = [] ∧ v = []) :
    Balanced c r low occ₀ ⟨t, Function.update b.got q (g ++ taken b.state.machine t.machine),
      Function.update b.gave q v⟩ A' occ' := by
  refine ⟨F', fun p => ?_, fun p f hf => ?_⟩
  · by_cases hp : p = q
    · subst hp
      obtain ⟨hs, hperm, H⟩ : ∃ hs, g.Perm (v ++ hs) ∧ Holding occ p hs := by
        rcases hgv with ⟨rfl, rfl⟩ | ⟨hlive, rfl, rfl⟩
        · exact B.held p
        · refine ⟨[], .refl _, List.nodup_nil, fun f => ⟨nofun, ?_⟩⟩
          rintro ⟨x, hx, hxf⟩
          rw [B.filled.vacant hlive hx] at hxf
          cases hxf
      refine ⟨_, ?_, H.take B.filled F' hkeep hothers⟩
      simp only [Function.update_self]
      rw [← List.append_assoc]
      exact hperm.append_right _
    · obtain ⟨hs, hperm, H⟩ := B.held p
      simp only [Function.update_of_ne hp]
      exact ⟨hs, hperm, H.congr fun x hx => hothers x (by simpa [hx] using hp)⟩
  · by_cases hp : p = q
    · subst hp
      simp only [Function.update_self] at hf
      rcases hgv with ⟨-, rfl⟩ | ⟨-, -, rfl⟩
      · exact B.pool p f hf
      · cases hf
    · simp only [Function.update_of_ne hp] at hf
      exact B.pool p f hf

theorem Balanced.give (B : Balanced c r low occ₀ b A occ)
    (D : Freed c r low occ₀ A occ q fs t A' occ') :
    Balanced c r low occ₀ ⟨t, b.got, Function.update b.gave q (b.gave q ++ fs)⟩ A' occ' := by
  refine ⟨D.filled, fun p => ?_, fun p f hf => ?_⟩
  · obtain ⟨hs, hperm, H⟩ := B.held p
    by_cases hp : p = q
    · subst hp
      obtain ⟨hs', hhs, H'⟩ := H.give B.filled D.filled D.perm D.roles D.stay
      refine ⟨hs', ?_, H'⟩
      simp only [Function.update_self]
      rw [List.append_assoc]
      exact hperm.trans (hhs.append_left _)
    · simp only [Function.update_of_ne hp]
      exact ⟨hs, hperm, H.congr fun x hx => D.others x (by simpa [hx] using hp)⟩
  · by_cases hp : p = q
    · subst hp
      simp only [Function.update_self] at hf
      rcases List.mem_append.mp hf with hf | hf
      · exact B.pool p f hf
      · obtain ⟨x, hxp, hx⟩ := D.roles f hf
        have hO := B.filled.inv.layout.owned
        refine ⟨hO.mem_frames (B.filled.inv.layout.tree.held x f hx), fun y hy hyf => ?_⟩
        rw [← B.filled.shared y hy] at hyf
        obtain rfl := B.filled.inv.layout.tree.inj x y f hx hyf
        rw [hxp] at hy
        cases hy
    · simp only [Function.update_of_ne hp] at hf
      exact B.pool p f hf

theorem Balanced.step (B : Balanced c r low occ₀ b A occ) (V : Valid c r) {b' : Ledger}
    (h : Ledger.Step c b b') : ∃ A' occ', Balanced c r low occ₀ b' A' occ' := by
  have F := B.filled
  cases h with
  | @makePd s got gave pd m hcall =>
    obtain ⟨A', occ', N⟩ := (makePd_spec V F.inv.layout F.inv.closed).of_ok hcall
    obtain ⟨hnew, hkeep⟩ := N.keep F
    exact ⟨A', occ', B.take (F.makePd N) hkeep N.others (g := []) (Or.inr ⟨hnew, rfl, rfl⟩)⟩
  | @pageFault s got gave m pd cr3 saved va hpd hlo hva hnew hcall =>
    obtain ⟨A', occ', F', hkeep, hothers, -⟩ := F.pageFault hpd hlo hva hnew hcall
    have hB := B.take F' hkeep hothers (Or.inl ⟨rfl, rfl⟩)
    rw [Function.update_eq_self] at hB
    exact ⟨A', occ', hB⟩
  | @copyPrivate s got gave m p q hp hq hpq hcall =>
    obtain ⟨A', occ', F', hkeep, hothers, -⟩ := F.copyPrivate hp hq hpq hcall
    have hB := B.take F' hkeep hothers (Or.inl ⟨rfl, rfl⟩)
    rw [Function.update_eq_self] at hB
    exact ⟨A', occ', hB⟩
  | deletePrivate pd cr3 hpd hcall =>
    obtain ⟨-, A', occ', D⟩ := F.deletePrivate V hpd hcall
    exact ⟨A', occ', B.give D⟩
  | deletePd pd cr3 hpd hcall =>
    obtain ⟨-, A', occ', D⟩ := F.deletePd hpd hcall
    exact ⟨A', occ', B.give D⟩
  | write pd va f v hpd hlo hva hf =>
    exact ⟨A, occ, { B with filled := { F with inv := F.inv.write V hpd hlo hva hf v } }⟩

end

/-- What the ledger says of a run from `b₀` to `b`. The first two parts tell that the frames noted
there are those that the two walks pass to `deallocFrame`, in this order. -/
structure Accounted (c : Config) (b₀ b : Ledger) : Prop where
  deletePrivate : ∀ pd ∈ b.state.live, ∀ cr3 m,
    Vmm.deletePrivate c cr3 pd b.state.machine = .ok m →
      (privateWords c (containsSpecial c) pd b.state.machine).foldlM clearWord b.state.machine = .ok m
  deletePd : ∀ pd ∈ b.state.live, ∀ cr3 m, Vmm.deletePd c cr3 pd b.state.machine = .ok m →
    (deletePdFrames c pd b.state.machine).foldlM deallocFrame b.state.machine = .ok m
  held : ∀ pd, ∃ hs, (b.got pd).Perm (b.gave pd ++ hs) ∧ ∀ f ∈ hs, f ∉ available b.state.machine
  returned : ∀ pd, pd ∉ b.state.live → (b.got pd).Perm (b.gave pd)
  never : ∀ pd, ∀ f ∈ b.gave pd, f ≠ c.ioAPIC ∧ f ≠ c.localAPIC ∧ f ≠ b.state.shared ∧
    ∀ pdi < 1024, present (b.state.machine.mem (b.state.shared + 4 * pdi)) →
      f ≠ frameOf (b.state.machine.mem (b.state.shared + 4 * pdi))
  restored : b.state.live = [] →
    (available b.state.machine).length = (available b₀.state.machine).length

theorem Balanced.accounted {c : Config} {r : Pool} {low : ℕ → ℕ} {occ₀ occ : Role → Option ℕ}
    {b₀ b : Ledger} {A₀ A : List ℕ} (B : Balanced c r low occ₀ b A occ) (V : Valid c r)
    (h₀ : Owned r b₀.state.machine A₀)
    (hA₀ : ∀ f, f ∈ A₀ ↔ ∃ x : Role, x.owner = none ∧ occ₀ x = some f) : Accounted c b₀ b := by
  have F := B.filled
  refine ⟨fun pd hpd cr3 m hcall => (F.deletePrivate V hpd hcall).1,
    fun pd hpd cr3 m hcall => (F.deletePd hpd hcall).1, fun pd => ?_, fun pd hpd => ?_,
    fun pd f hf => ?_, fun hlive => ?_⟩
  · obtain ⟨hs, hperm, H⟩ := B.held pd
    refine ⟨hs, hperm, fun f hf hfree => ?_⟩
    obtain ⟨x, -, hx⟩ := (H.mem f).mp hf
    exact (F.inv.layout.owned.mem_available.mp hfree).2 (F.inv.layout.tree.held x f hx)
  · obtain ⟨hs, hperm, H⟩ := B.held pd
    have hnil : hs = [] := by
      rw [List.eq_nil_iff_forall_not_mem]
      intro f hf
      obtain ⟨x, hx, hxf⟩ := (H.mem f).mp hf
      rw [F.vacant hpd hx] at hxf
      cases hxf
    rwa [hnil, List.append_nil] at hperm
  · obtain ⟨hpool, hshared⟩ := B.pool pd f hf
    have hbound := (Pool.mem_bounds le_rfl hpool).2.2
    have hend := V.poolEnd
    have hio := V.ioPrivate
    have hlocal := V.localPrivate
    have hpos : 0 < frameSize := by simp [frameSize]
    refine ⟨by omega, by omega, ?_, fun i hi hpde => ?_⟩
    · rintro rfl
      exact hshared .sharedDir rfl ((F.shared _ rfl).symm.trans F.inv.layout.sharedDir)
    · rintro rfl
      exact hshared (.sharedTable i) rfl ((F.shared _ rfl).symm.trans
        (F.inv.read_low hi (F.inv.shared_entry hi) hpde).1)
  · have hperm : A.Perm A₀ := by
      rw [List.perm_ext_iff_of_nodup F.inv.layout.owned.nodup h₀.nodup]
      intro f
      rw [hA₀]
      constructor
      · intro hf
        obtain ⟨x, hx⟩ := F.tidy f hf
        have hnone : x.owner = none := by
          rw [Option.eq_none_iff_forall_ne_some]
          intro q hq
          rw [F.vacant (by simp [hlive]) hq] at hx
          cases hx
        exact ⟨x, hnone, (F.shared x hnone).symm.trans hx⟩
      · rintro ⟨x, hnone, hx⟩
        exact F.inv.layout.tree.held x f ((F.shared x hnone).trans hx)
    have h₁ := F.inv.layout.owned.length_available
    have h₂ := h₀.length_available
    have h₃ := hperm.length_eq
    omega

theorem run_balanced {c : Config} (P : Platform c) {b₀ b : Ledger} (h₀ : Ledger.Init c b₀)
    (h : ReflTransGen (Ledger.Step c) b₀ b) : ∃ r : Pool, Valid c r ∧ ∃ low occ₀ A occ,
      Balanced c r low occ₀ b A occ ∧ ∃ A₀, Owned r b₀.state.machine A₀ ∧
        ∀ f, f ∈ A₀ ↔ ∃ x : Role, x.owner = none ∧ occ₀ x = some f := by
  obtain ⟨⟨hboot⟩⟩ := h₀
  obtain ⟨r, hr, low, A₀, occ₀, I₀, -, htidy, hbare⟩ := (boot_spec P _).of_ok hboot
  have V := P.valid hr.1 hr.2
  have howner : ∀ (x : Role) q, x.owner = some q → occ₀ x = none := by
    rintro (_ | _ | _ | _ | _ | _) q hq <;> first | cases hq; done | exact hbare _ trivial
  refine ⟨r, V, low, occ₀, ?_⟩
  obtain ⟨A, occ, B⟩ : ∃ A occ, Balanced c r low occ₀ b A occ := by
    induction h with
    | refl =>
      refine ⟨A₀, occ₀, ⟨I₀, htidy, fun q i => hbare _ trivial, fun q i j _ => hbare _ trivial,
        fun _ _ => rfl⟩, fun q => ⟨[], .refl _, List.nodup_nil, fun f => ⟨nofun, ?_⟩⟩, nofun⟩
      rintro ⟨x, hx, hxf⟩
      rw [howner x q hx] at hxf
      cases hxf
    | tail _ hst ih =>
      obtain ⟨A, occ, B⟩ := ih
      exact B.step V hst
  refine ⟨A, occ, B, A₀, I₀.layout.owned, fun f => ⟨fun hf => ?_, ?_⟩⟩
  · obtain ⟨x, hx⟩ := htidy f hf
    refine ⟨x, ?_, hx⟩
    rw [Option.eq_none_iff_forall_ne_some]
    intro q hq
    rw [howner x q hq] at hx
    cases hx
  · rintro ⟨x, -, hx⟩
    exact I₀.layout.tree.held x f hx

/-- In every run the frames are accounted for. -/
theorem run_accounted {c : Config} (P : Platform c) {b₀ b : Ledger} (h₀ : Ledger.Init c b₀)
    (h : ReflTransGen (Ledger.Step c) b₀ b) : Accounted c b₀ b := by
  obtain ⟨r, V, low, occ₀, A, occ, B, A₀, hO, hA₀⟩ := run_balanced P h₀ h
  exact B.accounted V hO hA₀

theorem small_ledger : ∃ (b₀ b : Ledger) (p q : ℕ), Ledger.Init smallConfig b₀ ∧
    ReflTransGen (Ledger.Step smallConfig) b₀ b ∧ b.state.live = [q, p] ∧ b.got p ≠ [] ∧
    SmallRun b.state 11 [(p, 0x80000123)] := by
  obtain ⟨s₀, hinit, h₀, hlive⟩ := small_boot
  obtain ⟨p, m₁, hmakeP, h₁⟩ := h₀.makePd (by decide)
  have hp : p ∈ p :: s₀.live := List.mem_cons_self
  obtain ⟨m₂, hfault, h₂⟩ := h₁.fault 0x80000123 (by decide) hp (by decide) (by decide)
  obtain ⟨q, m₃, hmakeQ, h₃⟩ := h₂.makePd (by decide)
  obtain ⟨r, low, A, occ, hr, -, I, -⟩ := h₀.inv
  obtain ⟨A', occ', N⟩ :=
    (makePd_spec (smallPlatform.valid hr.1 hr.2) I.layout I.closed).of_ok hmakeP
  -- the directory is new, and its slot 512 is empty
  have hnew : ∀ f, ¬ Maps m₁ p 0x80000123 f := by
    rintro f ⟨hpresent, -⟩
    rcases N.layout.read_slot N.dir (show 512 ≤ 512 ∧ 512 < 1024 by decide) with
      ⟨-, hpde⟩ | ⟨t, ht, -⟩
    · rw [present, show 0x80000123 >>> 22 = 512 by decide, hpde] at hpresent
      cases hpresent
    · rw [(N.tables 512).mpr (by decide)] at ht
      cases ht
  have htaken : taken s₀.machine m₁ ≠ [] := by
    have hlen : A'.length = (A ++ taken s₀.machine m₁).length :=
      (taken_perm I.layout.owned N.layout.owned N.subset).length_eq
    have hmake : makePdFrames smallConfig = 2 := rfl
    rw [List.length_append, N.length, hmake] at hlen
    exact List.ne_nil_of_length_pos (by omega)
  have hne : p ≠ q := by
    rintro rfl
    obtain ⟨_, _, _, _, -, -, I₃, -⟩ := h₃.inv
    exact (List.nodup_cons.mp I₃.nodup).1 hp
  refine ⟨_, _, p, q, .boot hinit, ((ReflTransGen.single (.makePd hmakeP)).tail
    (.pageFault p p p 0x80000123 hp (by decide) (by decide) hnew hfault)).tail (.makePd hmakeQ),
    by simp [hlive], by simp [hne, htaken], h₃⟩

theorem small_deletes {s : State} (h : Reachable (Vmm.Init smallConfig) (Vmm.Step smallConfig) s)
    {pd : ℕ} (hpd : pd ∈ s.live) : (∃ m, deletePrivate smallConfig pd pd s.machine = .ok m) ∧
      ∀ cr3, pd ≠ cr3 → ∃ m, deletePd smallConfig cr3 pd s.machine = .ok m := by
  obtain ⟨r, hr, low, A, occ, I⟩ := inv_of_reachable smallPlatform h
  have hdir := (I.live pd).mp hpd
  refine ⟨?_, fun cr3 hne => ?_⟩
  · obtain ⟨m, hcall, -⟩ := ((deletePrivate_spec (smallPlatform.valid hr.1 hr.2) I.layout I.closed
      hdir pd).weaken (fun _ h => h) fun _ he => absurd rfl he).returns
    exact ⟨m, hcall⟩
  · obtain ⟨m, hcall, -⟩ := ((deletePd_spec I.layout I.closed hdir cr3).weaken (fun _ h => h)
      fun _ he => absurd he hne).returns
    exact ⟨m, hcall⟩

/-- The page is copied to the other address space; then the first one gives its pages back, and both
are deleted. -/
theorem small_run_accounted : ∃ b₀ b : Ledger, b.state.live = [] ∧ (∃ pd, b.got pd ≠ []) ∧
    Accounted smallConfig b₀ b := by
  obtain ⟨b₀, ⟨⟨m, shared, live⟩, got, gave⟩, p, q, h₀, h, hlive, hgot, hrun⟩ := small_ledger
  obtain rfl : live = [q, p] := hlive
  obtain ⟨_, _, _, _, -, -, I, -⟩ := hrun.inv
  have hne : p ≠ q := fun heq => (List.nodup_cons.mp I.nodup).1 (by simp [heq])
  have hp : p ∈ [q, p] := by simp
  have hq : q ∈ [q, p] := by simp
  obtain ⟨m₁, hcopy⟩ := hrun.copyPrivate (by decide) hp hq hne
  have hcopied := hrun.reachable.step (.copyPrivate p q hp hq hne hcopy)
  obtain ⟨m₂, hclear⟩ := (small_deletes hcopied hp).1
  have hcleared := hcopied.step (.deletePrivate p p hp hclear)
  obtain ⟨m₃, hdeleteQ⟩ := (small_deletes hcleared hq).2 p hne.symm
  have hdeleted := hcleared.step (.deletePd q p hq hdeleteQ)
  have hleft : [q, p].erase q = [p] := by simp
  have hp' : p ∈ [q, p].erase q := by simp [hleft]
  obtain ⟨m₄, hdeleteP⟩ := (small_deletes hdeleted hp').2 q hne
  have hgot : got p ≠ [] := hgot
  exact ⟨b₀, _, by simp, ⟨p, by simp [hne, hgot]⟩, run_accounted smallPlatform h₀
    ((((h.tail (.copyPrivate p q hp hq hne hcopy)).tail (.deletePrivate p p hp hclear)).tail
      (.deletePd q p hq hdeleteQ)).tail (.deletePd p q hp' hdeleteP))⟩

end OsShell.Vmm
