import OsShell.Library.Runs

/-!
# The start of the cores

The boot core initializes the kernel and then starts the others one by one: each comes
out of reset onto the one temporary stack, asks `pickKernelStack` for its own and
enters `kernelInit`, where it counts itself as running, which is what the boot core
waits for. Every core then prepares itself and is counted once more; the last one
makes the thread of the first process. A core is named by the number of its local
APIC, and number 0 is the boot core. A step is what one core does up to the next access
to what the cores share. Left out: a round of `while (SMP::running <= id)` that changes
nothing, and timer interrupts, which find no active thread here.
-/

namespace OsShell.Boot

open Runs
open Relation (ReflTransGen)

inductive Pc
  | off
  /-- at `resetEIP` -/
  | reset
  /-- in `pickKernelStack`, on the temporary stack -/
  | picking
  /-- at `if (!smpInitDone)` -/
  | entered
  | first
  /-- past `smpInitDone = true`, up to `SMP::running.fetch_add(1)` -/
  | calibrating
  /-- at `id < kConfig.totalProcs` -/
  | starting (id : ℕ)
  /-- past `SMP::ipi(id, 0x4500)` -/
  | resetting (id : ℕ)
  /-- in `while (SMP::running <= id)` -/
  | waiting (id : ℕ)
  /-- at the other `SMP::running.fetch_add(1)` -/
  | secondary
  /-- from `VMM::per_core_init()` to `sti()` -/
  | perCore
  /-- at `howManyAreHere.add_fetch(1)` -/
  | counting
  /-- `myOrder == kConfig.totalProcs` -/
  | last
  /-- in `stop()` -/
  | stopped
deriving DecidableEq

/-- `n` is `kConfig.totalProcs`. -/
structure State (n : ℕ) where
  smpInitDone : Bool
  running : ℕ
  howManyAreHere : ℕ
  initThreads : ℕ
  stack : Fin n → Option (Fin n)
  pc : Fin n → Pc

variable {n : ℕ} [NeZero n]

def State.goto (s : State n) (k : Fin n) (p : Pc) : State n :=
  { s with pc := Function.update s.pc k p }

omit [NeZero n] in
theorem goto_self (s : State n) (k : Fin n) (p : Pc) : (s.goto k p).pc k = p := by
  change Function.update s.pc k p k = p
  rw [Function.update_self]

omit [NeZero n] in
theorem goto_of_ne (s : State n) {j k : Fin n} (h : j ≠ k) (p : Pc) :
    (s.goto k p).pc j = s.pc j :=
  Function.update_of_ne h _ _

def pickKernelStack (s : State n) (k : Fin n) : Fin n := if s.smpInitDone then k else 0

def State.init (s : State n) (k : Fin n) : State n :=
  { s.goto k .off with stack := Function.update s.stack k none }

def State.startup (s : State n) (k : Fin n) : State n :=
  if s.pc k = .off then s.goto k .reset else s

inductive Step : State n → State n → Prop
  | reset {s : State n} (k : Fin n) (h : s.pc k = .reset) : Step s (s.goto k .picking)
  | pick {s : State n} (k : Fin n) (h : s.pc k = .picking) :
    Step s { s.goto k .entered with
      stack := Function.update s.stack k (some (pickKernelStack s k)) }
  | enter {s : State n} (k : Fin n) (h : s.pc k = .entered) :
    Step s (s.goto k (if s.smpInitDone then .secondary else .first))
  | globalInit {s : State n} (k : Fin n) (h : s.pc k = .first) :
    Step s { s.goto k .calibrating with smpInitDone := true }
  | run {s : State n} (k : Fin n) (h : s.pc k = .calibrating) :
    Step s { s.goto k (.starting 1) with running := s.running + 1 }
  | init {s : State n} (k : Fin n) {id : ℕ} (h : s.pc k = .starting id) (hid : id < n) :
    Step s ((s.goto k (.resetting id)).init ⟨id, hid⟩)
  | startup {s : State n} (k : Fin n) {id : ℕ} (h : s.pc k = .resetting id) (hid : id < n) :
    Step s ((s.goto k (.waiting id)).startup ⟨id, hid⟩)
  | await {s : State n} (k : Fin n) {id : ℕ} (h : s.pc k = .waiting id) (hid : id < s.running) :
    Step s (s.goto k (.starting (id + 1)))
  | started {s : State n} (k : Fin n) {id : ℕ} (h : s.pc k = .starting id) (hid : n ≤ id) :
    Step s (s.goto k .perCore)
  | join {s : State n} (k : Fin n) (h : s.pc k = .secondary) :
    Step s { s.goto k .perCore with running := s.running + 1 }
  | prepare {s : State n} (k : Fin n) (h : s.pc k = .perCore) : Step s (s.goto k .counting)
  | count {s : State n} (k : Fin n) (h : s.pc k = .counting) :
    Step s { s.goto k (if s.howManyAreHere + 1 = n then .last else .stopped) with
      howManyAreHere := s.howManyAreHere + 1 }
  | make {s : State n} (k : Fin n) (h : s.pc k = .last) :
    Step s { s.goto k .stopped with initThreads := s.initThreads + 1 }

structure Init (s : State n) : Prop where
  smpInitDone : s.smpInitDone = false
  running : s.running = 0
  howManyAreHere : s.howManyAreHere = 0
  initThreads : s.initThreads = 0
  stack : ∀ k, s.stack k = none
  boot : s.pc 0 = .reset
  others : ∀ k, k ≠ 0 → s.pc k = .off

/-! ## What holds in every state -/

/-- Started, but not counted as running. -/
def Pc.Young : Pc → Prop
  | .reset | .picking | .entered | .secondary => True
  | _ => False

/-- Counted the second time. -/
def Pc.Here : Pc → Prop
  | .last | .stopped => True
  | _ => False

instance : DecidablePred Pc.Young := fun p => by unfold Pc.Young; cases p <;> infer_instance

instance : DecidablePred Pc.Here := fun p => by unfold Pc.Here; cases p <;> infer_instance

def Pc.Other (p : Pc) : Prop := p = .off ∨ p.Young ∨ p = .perCore ∨ p = .counting ∨ p.Here

/-- The cores but the boot core: off from number `begun` on, young only at number `young`. -/
structure Others (pc : Fin n → Pc) (begun : ℕ) (young : Option ℕ) : Prop where
  off : ∀ k, k ≠ 0 → (pc k = .off ↔ begun ≤ k.val)
  young : ∀ k, k ≠ 0 → (pc k).Young → young = some k.val
  other : ∀ k, k ≠ 0 → (pc k).Other

def Phase (s : State n) : Pc → Prop
  | .reset | .picking | .entered | .first =>
    s.smpInitDone = false ∧ s.running = 0 ∧ Others s.pc 1 none
  | .calibrating => s.smpInitDone = true ∧ s.running = 0 ∧ Others s.pc 1 none
  | .starting id => s.smpInitDone = true ∧ s.running = id ∧ 1 ≤ id ∧ id ≤ n ∧ Others s.pc id none
  | .resetting id => s.smpInitDone = true ∧ s.running = id ∧ 1 ≤ id ∧ id < n ∧ Others s.pc id none
  | .waiting id => s.smpInitDone = true ∧ 1 ≤ id ∧ Others s.pc (id + 1) (some id) ∧
    ∃ hid : id < n, s.running = if (s.pc ⟨id, hid⟩).Young then id else id + 1
  | .perCore | .counting | .last | .stopped =>
    s.smpInitDone = true ∧ s.running = n ∧ Others s.pc n none
  | .off | .secondary => False

def Pc.Bare : Pc → Prop
  | .off | .reset | .picking => True
  | _ => False

structure Stacks (s : State n) : Prop where
  own : ∀ k m, s.stack k = some m → m = k
  bare : ∀ k, s.stack k = none ↔ (s.pc k).Bare

def present (pc : Fin n → Pc) : Finset (Fin n) := Finset.univ.filter fun k => (pc k).Here

structure Counted (s : State n) : Prop where
  here : s.howManyAreHere = (present s.pc).card
  few : s.howManyAreHere < n → s.initThreads = 0 ∧ ∀ k, s.pc k ≠ .last
  all : s.howManyAreHere = n → (s.initThreads = 0 ∧ ∃ k, ∀ j, s.pc j = .last ↔ j = k) ∨
    (s.initThreads = 1 ∧ ∀ k, s.pc k ≠ .last)

structure Inv (s : State n) : Prop where
  phase : Phase s (s.pc 0)
  onOwn : Stacks s
  counted : Counted s

section Others

variable {pc : Fin n → Pc} {begun : ℕ} {young : Option ℕ} {k : Fin n} {p q : Pc}

theorem Others.boot (h : Others pc begun young) : Others (Function.update pc 0 p) begun young where
  off k hk := by rw [Function.update_of_ne hk]; exact h.off k hk
  young k hk := by rw [Function.update_of_ne hk]; exact h.young k hk
  other k hk := by rw [Function.update_of_ne hk]; exact h.other k hk

theorem Others.move (h : Others pc begun young) (hrun : pc k ≠ .off) (hoff : q ≠ .off)
    (hyoung : q.Young → (pc k).Young) (hother : q.Other) :
    Others (Function.update pc k q) begun young where
  off j hj := by
    by_cases hjk : j = k
    · subst hjk
      rw [Function.update_self, ← h.off j hj]
      exact ⟨fun hq => absurd hq hoff, fun hp => absurd hp hrun⟩
    · rw [Function.update_of_ne hjk]
      exact h.off j hj
  young j hj hy := by
    by_cases hjk : j = k
    · subst hjk
      rw [Function.update_self] at hy
      exact h.young j hj (hyoung hy)
    · rw [Function.update_of_ne hjk] at hy
      exact h.young j hj hy
  other j hj := by
    by_cases hjk : j = k
    · subst hjk
      rw [Function.update_self]
      exact hother
    · rw [Function.update_of_ne hjk]
      exact h.other j hj

theorem Others.start (h : Others pc begun none) {hid : begun < n} :
    Others (Function.update pc ⟨begun, hid⟩ .reset) (begun + 1) (some begun) where
  off j hj := by
    by_cases hjk : j = ⟨begun, hid⟩
    · subst hjk
      rw [Function.update_self]
      exact ⟨fun hq => (nomatch hq), fun hle => absurd hle (by simp)⟩
    · rw [Function.update_of_ne hjk, h.off j hj]
      have hne : j.val ≠ begun := fun hval => hjk (Fin.ext hval)
      omega
  young j hj hy := by
    by_cases hjk : j = ⟨begun, hid⟩
    · rw [hjk]
    · rw [Function.update_of_ne hjk] at hy
      exact absurd (h.young j hj hy) (by simp)
  other j hj := by
    by_cases hjk : j = ⟨begun, hid⟩
    · subst hjk
      rw [Function.update_self]
      exact Or.inr (Or.inl trivial)
    · rw [Function.update_of_ne hjk]
      exact h.other j hj

theorem Others.settle (h : Others pc begun young) (hnone : ∀ j, j ≠ 0 → ¬ (pc j).Young) :
    Others pc begun none :=
  ⟨h.off, fun j hj hy => absurd hy (hnone j hj), h.other⟩

end Others

/-! ## One step -/

section Steps

variable {s t : State n} {k : Fin n} {p q : Pc}

theorem Phase.other (h : Phase s (s.pc 0)) (hk : k ≠ 0) : (s.pc k).Other := by
  cases hp : s.pc 0 <;> rw [hp] at h
  case off => exact h.elim
  case secondary => exact h.elim
  case reset | picking | entered | first | calibrating | perCore | counting | last | stopped =>
    exact h.2.2.other k hk
  case starting id => exact h.2.2.2.2.other k hk
  case resetting id => exact h.2.2.2.2.other k hk
  case waiting id => exact h.2.2.1.other k hk

theorem Phase.eq_boot (h : Phase s (s.pc 0)) (hp : s.pc k = p) (hother : ¬ p.Other) : k = 0 := by
  by_contra hk
  exact hother (hp ▸ h.other hk)

theorem Phase.young (h : Phase s (s.pc 0)) (hk : k ≠ 0) (hy : (s.pc k).Young) :
    s.pc 0 = .waiting k ∧ s.smpInitDone = true ∧ s.running = k := by
  have hnone : ∀ {begun}, Others s.pc begun none → False := fun ho => by
    have := ho.young k hk hy
    simp at this
  cases hp : s.pc 0 <;> rw [hp] at h
  case off => exact h.elim
  case secondary => exact h.elim
  case reset | picking | entered | first | calibrating | perCore | counting | last | stopped =>
    exact (hnone h.2.2).elim
  case starting id => exact (hnone h.2.2.2.2).elim
  case resetting id => exact (hnone h.2.2.2.2).elim
  case waiting id =>
    obtain ⟨hdone, -, ho, hid, hrunning⟩ := h
    obtain rfl : id = k.val := Option.some.inj (ho.young k hk hy)
    exact ⟨rfl, hdone, by rw [hrunning, if_pos hy]⟩

theorem Phase.move (h : Phase s (s.pc 0)) (hk : k ≠ 0) (hrun : s.pc k ≠ .off) (hoff : q ≠ .off)
    (hyoung : q.Young ↔ (s.pc k).Young) (hother : q.Other)
    (hdone : t.smpInitDone = s.smpInitDone) (hrunning : t.running = s.running)
    (hpc : t.pc = Function.update s.pc k q) : Phase t (t.pc 0) := by
  have hmove : ∀ {begun young}, Others s.pc begun young → Others t.pc begun young := fun ho =>
    hpc ▸ ho.move hrun hoff hyoung.mp hother
  have hboot : t.pc 0 = s.pc 0 := by rw [hpc, Function.update_of_ne hk.symm]
  rw [hboot]
  cases hp : s.pc 0 <;> rw [hp] at h
  case off => exact h.elim
  case secondary => exact h.elim
  case reset | picking | entered | first | calibrating | perCore | counting | last | stopped =>
    exact ⟨hdone.trans h.1, hrunning.trans h.2.1, hmove h.2.2⟩
  case starting id =>
    exact ⟨hdone.trans h.1, hrunning.trans h.2.1, h.2.2.1, h.2.2.2.1, hmove h.2.2.2.2⟩
  case resetting id =>
    exact ⟨hdone.trans h.1, hrunning.trans h.2.1, h.2.2.1, h.2.2.2.1, hmove h.2.2.2.2⟩
  case waiting id =>
    obtain ⟨hdone', hpos, ho, hid, hr⟩ := h
    refine ⟨hdone.trans hdone', hpos, hmove ho, hid, ?_⟩
    have hsame : (t.pc ⟨id, hid⟩).Young ↔ (s.pc ⟨id, hid⟩).Young := by
      rw [hpc]
      by_cases hj : (⟨id, hid⟩ : Fin n) = k
      · rw [hj, Function.update_self, hyoung]
      · rw [Function.update_of_ne hj]
    rw [hrunning, hr]
    simp only [hsame]

theorem Phase.goto_boot {s t : State n} {p q : Pc} (h : Phase s (s.pc 0)) (hp : s.pc 0 = p)
    (hpc : t.pc = Function.update s.pc 0 q)
    (hq : Phase s p → (∀ {begun young}, Others s.pc begun young → Others t.pc begun young) →
      Phase t q) : Phase t (t.pc 0) := by
  have hboot : t.pc 0 = q := by rw [hpc, Function.update_self]
  rw [hboot]
  exact hq (hp ▸ h) fun ho => hpc ▸ ho.boot

theorem Phase.target_off (h : Phase s (s.pc 0)) {id : ℕ} (hid : id < n)
    (hp : s.pc 0 = .starting id ∨ s.pc 0 = .resetting id) :
    (⟨id, hid⟩ : Fin n) ≠ 0 ∧ s.pc ⟨id, hid⟩ = .off := by
  have hfound : 1 ≤ id ∧ Others s.pc id none := by
    rcases hp with hp | hp <;> rw [hp] at h
    · exact ⟨h.2.2.1, h.2.2.2.2⟩
    · exact ⟨h.2.2.1, h.2.2.2.2⟩
  have hne : (⟨id, hid⟩ : Fin n) ≠ 0 := fun heq => by
    have hval := congrArg Fin.val heq
    rw [Fin.val_zero] at hval
    change id = 0 at hval
    omega
  exact ⟨hne, (hfound.2.off _ hne).mpr le_rfl⟩

theorem Phase.step (h : Phase s (s.pc 0)) (hstep : Step s t) : Phase t (t.pc 0) := by
  cases hstep with
  | reset k hp =>
    by_cases hk : k = 0
    · subst hk
      exact h.goto_boot hp rfl fun ⟨hd, hr, ho⟩ hmove => ⟨hd, hr, hmove ho⟩
    · exact h.move (q := .picking) hk (by simp [hp]) (by simp) (by simp [hp, Pc.Young])
        (Or.inr (Or.inl trivial)) rfl rfl rfl
  | pick k hp =>
    by_cases hk : k = 0
    · subst hk
      exact h.goto_boot hp rfl fun ⟨hd, hr, ho⟩ hmove => ⟨hd, hr, hmove ho⟩
    · exact h.move (q := .entered) hk (by simp [hp]) (by simp) (by simp [hp, Pc.Young])
        (Or.inr (Or.inl trivial)) rfl rfl rfl
  | enter k hp =>
    by_cases hk : k = 0
    · subst hk
      have hdone : s.smpInitDone = false := by rw [hp] at h; exact h.1
      refine h.goto_boot (q := .first) hp (by simp [State.goto, hdone]) fun ⟨hd, hr, ho⟩ hmove =>
        ⟨hd, hr, hmove ho⟩
    · have hdone := (h.young hk (by rw [hp]; trivial)).2.1
      exact h.move (q := .secondary) hk (by simp [hp]) (by simp) (by simp [hp, Pc.Young])
        (Or.inr (Or.inl trivial)) rfl rfl (by simp [State.goto, hdone])
  | globalInit k hp =>
    obtain rfl := h.eq_boot hp (by simp [Pc.Other, Pc.Young, Pc.Here])
    exact h.goto_boot hp rfl fun ⟨_, hr, ho⟩ hmove => ⟨rfl, hr, hmove ho⟩
  | run k hp =>
    obtain rfl := h.eq_boot hp (by simp [Pc.Other, Pc.Young, Pc.Here])
    exact h.goto_boot hp rfl fun ⟨hd, hr, ho⟩ hmove =>
      ⟨hd, congrArg (· + 1) hr, le_rfl, NeZero.one_le, hmove ho⟩
  | init k hp hid =>
    obtain rfl := h.eq_boot hp (by simp [Pc.Other, Pc.Young, Pc.Here])
    obtain ⟨hne, hoff⟩ := h.target_off hid (Or.inl hp)
    refine h.goto_boot hp (Function.update_eq_self_iff.mpr ?_) fun ⟨hd, hr, hpos, _, ho⟩ hmove =>
      ⟨hd, hr, hpos, hid, hmove ho⟩
    exact ((Function.update_of_ne hne _ _).trans hoff).symm
  | startup k hp hid =>
    obtain rfl := h.eq_boot hp (by simp [Pc.Other, Pc.Young, Pc.Here])
    obtain ⟨hne, hoff⟩ := h.target_off hid (Or.inr hp)
    rename_i id
    have hoff' : (s.goto 0 (.waiting id)).pc ⟨id, hid⟩ = .off := (goto_of_ne s hne _).trans hoff
    rw [State.startup, if_pos hoff']
    have hboot : ((s.goto 0 (.waiting id)).goto ⟨id, hid⟩ .reset).pc 0 = .waiting id :=
      (goto_of_ne _ hne.symm _).trans (goto_self s 0 _)
    rw [hboot]
    rw [hp] at h
    obtain ⟨hd, hr, hpos, -, ho⟩ := h
    refine ⟨hd, hpos, ho.boot.start, hid, hr.trans (if_pos ?_).symm⟩
    rw [goto_self]
    trivial
  | await k hp hid =>
    obtain rfl := h.eq_boot hp (by simp [Pc.Other, Pc.Young, Pc.Here])
    refine h.goto_boot hp rfl fun ⟨hd, hpos, ho, hlt, hr⟩ hmove => ?_
    have hold : ¬ (s.pc ⟨_, hlt⟩).Young := fun hy => by
      rw [if_pos hy] at hr
      omega
    rw [if_neg hold] at hr
    have hnone : ∀ j, j ≠ 0 → ¬ (s.pc j).Young := fun j hj hy => by
      have heq := Option.some.inj (ho.young j hj hy)
      exact hold (by simpa only [heq] using hy)
    exact ⟨hd, hr, by omega, hlt, hmove (ho.settle hnone)⟩
  | started k hp hid =>
    obtain rfl := h.eq_boot hp (by simp [Pc.Other, Pc.Young, Pc.Here])
    refine h.goto_boot hp rfl fun ⟨hd, hr, _, hle, ho⟩ hmove => ?_
    obtain rfl := hle.antisymm hid
    exact ⟨hd, hr, hmove ho⟩
  | join k hp =>
    have hk : k ≠ 0 := by
      rintro rfl
      rw [hp] at h
      exact h
    obtain ⟨hboot, hd, hr⟩ := h.young hk (by rw [hp]; trivial)
    rw [hboot] at h
    obtain ⟨-, hpos, ho, hid, -⟩ := h
    have hboot' : Function.update s.pc k .perCore 0 = .waiting k.val :=
      (Function.update_of_ne hk.symm _ _).trans hboot
    change Phase _ (Function.update s.pc k .perCore 0)
    rw [hboot']
    refine ⟨hd, hpos, ho.move (by simp [hp]) (by simp) (by simp [Pc.Young])
      (Or.inr (Or.inr (Or.inl rfl))), hid, ?_⟩
    change s.running + 1 = if (Function.update s.pc k .perCore k).Young then _ else _
    rw [Function.update_self, hr]
    rfl
  | prepare k hp =>
    by_cases hk : k = 0
    · subst hk
      exact h.goto_boot hp rfl fun ⟨hd, hr, ho⟩ hmove => ⟨hd, hr, hmove ho⟩
    · exact h.move hk (by simp [hp]) (by simp) (by simp [hp, Pc.Young])
        (Or.inr (Or.inr (Or.inr (Or.inl rfl)))) rfl rfl rfl
  | count k hp =>
    by_cases hk : k = 0
    · subst hk
      split
      · exact h.goto_boot hp rfl fun ⟨hd, hr, ho⟩ hmove => ⟨hd, hr, hmove ho⟩
      · exact h.goto_boot hp rfl fun ⟨hd, hr, ho⟩ hmove => ⟨hd, hr, hmove ho⟩
    · split
      · exact h.move (q := .last) hk (by simp [hp]) (by simp) (by simp [hp, Pc.Young])
          (Or.inr (Or.inr (Or.inr (Or.inr trivial)))) rfl rfl rfl
      · exact h.move (q := .stopped) hk (by simp [hp]) (by simp) (by simp [hp, Pc.Young])
          (Or.inr (Or.inr (Or.inr (Or.inr trivial)))) rfl rfl rfl
  | make k hp =>
    by_cases hk : k = 0
    · subst hk
      exact h.goto_boot hp rfl fun ⟨hd, hr, ho⟩ hmove => ⟨hd, hr, hmove ho⟩
    · exact h.move (q := .stopped) hk (by simp [hp]) (by simp) (by simp [hp, Pc.Young])
        (Or.inr (Or.inr (Or.inr (Or.inr trivial)))) rfl rfl rfl

omit [NeZero n] in
theorem Stacks.move (h : Stacks s) (hstack : t.stack = s.stack)
    (hpc : t.pc = Function.update s.pc k q) (hbare : q.Bare ↔ (s.pc k).Bare) : Stacks t where
  own j m hj := h.own j m (hstack ▸ hj)
  bare j := by
    rw [hstack, hpc]
    by_cases hjk : j = k
    · rw [hjk, Function.update_self, hbare]
      exact h.bare k
    · rw [Function.update_of_ne hjk]
      exact h.bare j

theorem Stacks.step (h : Stacks s) (hphase : Phase s (s.pc 0)) (hstep : Step s t) : Stacks t := by
  cases hstep with
  | reset k hp => exact h.move rfl rfl (by simp [hp, Pc.Bare])
  | pick k hp =>
    have hown : pickKernelStack s k = k := by
      unfold pickKernelStack
      by_cases hk : k = 0
      · rw [hk, ite_self]
      · rw [if_pos (hphase.young hk (by rw [hp]; trivial)).2.1]
    refine ⟨fun j m hj => ?_, fun j => ?_⟩
    · change Function.update s.stack k _ j = some m at hj
      by_cases hjk : j = k
      · rw [hjk, Function.update_self, Option.some.injEq] at hj
        rw [← hj, hown, hjk]
      · rw [Function.update_of_ne hjk] at hj
        exact h.own j m hj
    · change Function.update s.stack k _ j = none ↔ (Function.update s.pc k .entered j).Bare
      by_cases hjk : j = k
      · rw [hjk, Function.update_self, Function.update_self]
        simp [Pc.Bare]
      · rw [Function.update_of_ne hjk, Function.update_of_ne hjk]
        exact h.bare j
  | enter k hp => exact h.move rfl rfl (by split <;> simp [hp, Pc.Bare])
  | globalInit k hp => exact h.move rfl rfl (by simp [hp, Pc.Bare])
  | run k hp => exact h.move rfl rfl (by simp [hp, Pc.Bare])
  | init k hp hid =>
    obtain rfl := hphase.eq_boot hp (by simp [Pc.Other, Pc.Young, Pc.Here])
    obtain ⟨hne, hoff⟩ := hphase.target_off hid (Or.inl hp)
    have hnone : s.stack ⟨_, hid⟩ = none := (h.bare _).mpr (by rw [hoff]; trivial)
    refine (h.move (t := s.goto 0 (.resetting _)) rfl rfl (by simp [hp, Pc.Bare])).move
      (k := ⟨_, hid⟩) (q := .off) (Function.update_eq_self_iff.mpr hnone.symm) rfl ?_
    rw [goto_of_ne s hne, hoff]
  | startup k hp hid =>
    obtain rfl := hphase.eq_boot hp (by simp [Pc.Other, Pc.Young, Pc.Here])
    obtain ⟨hne, hoff⟩ := hphase.target_off hid (Or.inr hp)
    rename_i id
    have hoff' : (s.goto 0 (.waiting id)).pc ⟨id, hid⟩ = .off := (goto_of_ne s hne _).trans hoff
    rw [State.startup, if_pos hoff']
    refine (h.move (t := s.goto 0 (.waiting id)) rfl rfl (by simp [hp, Pc.Bare])).move
      (k := ⟨id, hid⟩) (q := .reset) rfl rfl ?_
    simp [hoff', Pc.Bare]
  | await k hp => exact h.move rfl rfl (by simp [hp, Pc.Bare])
  | started k hp => exact h.move rfl rfl (by simp [hp, Pc.Bare])
  | join k hp => exact h.move rfl rfl (by simp [hp, Pc.Bare])
  | prepare k hp => exact h.move rfl rfl (by simp [hp, Pc.Bare])
  | count k hp => exact h.move rfl rfl (by split <;> simp [hp, Pc.Bare])
  | make k hp => exact h.move rfl rfl (by simp [hp, Pc.Bare])

omit [NeZero n] in
theorem Counted.move (h : Counted s) (hcount : t.howManyAreHere = s.howManyAreHere)
    (hmade : t.initThreads = s.initThreads) (hpc : t.pc = Function.update s.pc k q)
    (hq : ¬ q.Here) (hp : ¬ (s.pc k).Here) : Counted t := by
  have hhere : ∀ j, (t.pc j).Here ↔ (s.pc j).Here := fun j => by
    rw [hpc]
    by_cases hjk : j = k
    · rw [hjk, Function.update_self]
      exact ⟨fun h => absurd h hq, fun h => absurd h hp⟩
    · rw [Function.update_of_ne hjk]
  have hlast : ∀ j, t.pc j = .last ↔ s.pc j = .last := fun j => by
    rw [hpc]
    by_cases hjk : j = k
    · rw [hjk, Function.update_self]
      exact ⟨fun h => (hq (by rw [h]; trivial)).elim, fun h => (hp (by rw [h]; trivial)).elim⟩
    · rw [Function.update_of_ne hjk]
  refine ⟨?_, fun hlt => ?_, fun heq => ?_⟩
  · rw [hcount, h.here]
    exact congrArg Finset.card (Finset.filter_congr fun j _ => (hhere j).symm)
  · obtain ⟨hzero, hnone⟩ := h.few (hcount ▸ hlt)
    exact ⟨hmade.trans hzero, fun j hj => hnone j ((hlast j).mp hj)⟩
  · refine (h.all (hcount ▸ heq)).imp (fun ⟨hzero, j, hj⟩ => ⟨hmade.trans hzero, j, fun i => ?_⟩)
      fun ⟨hone, hnone⟩ => ⟨hmade.trans hone, fun i hi => hnone i ((hlast i).mp hi)⟩
    rw [hlast i]
    exact hj i

omit [NeZero n] in
theorem Counted.le (h : Counted s) : s.howManyAreHere ≤ n := by
  rw [h.here]
  exact (Finset.card_le_univ _).trans_eq (Fintype.card_fin n)

omit [NeZero n] in
theorem Counted.count (h : Counted s) (hp : s.pc k = .counting)
    (hcount : t.howManyAreHere = s.howManyAreHere + 1) (hmade : t.initThreads = s.initThreads)
    (hpc : t.pc = Function.update s.pc k q)
    (hq : q = if s.howManyAreHere + 1 = n then .last else .stopped) : Counted t := by
  have hin : q.Here := by
    rw [hq]
    split <;> trivial
  have hinsert : present t.pc = insert k (present s.pc) := by
    ext j
    rw [Finset.mem_insert, present, present, Finset.mem_filter, Finset.mem_filter, hpc]
    by_cases hjk : j = k
    · simp [hjk, hin]
    · simp [hjk]
  have hnew : k ∉ present s.pc := by
    rw [present, Finset.mem_filter, hp]
    exact fun h => h.2
  have hcard : t.howManyAreHere = (present t.pc).card := by
    rw [hinsert, Finset.card_insert_of_notMem hnew, ← h.here, hcount]
  have hle : t.howManyAreHere ≤ n := by
    rw [hcard]
    exact (Finset.card_le_univ _).trans_eq (Fintype.card_fin n)
  obtain ⟨hzero, hnone⟩ := h.few (by omega)
  refine ⟨hcard, fun hlt => ⟨hmade.trans hzero, fun j hj => ?_⟩, fun heq => Or.inl
    ⟨hmade.trans hzero, k, fun j => ?_⟩⟩
  · rw [hpc] at hj
    by_cases hjk : j = k
    · rw [hjk, Function.update_self, hq, if_neg (by omega)] at hj
      nomatch hj
    · rw [Function.update_of_ne hjk] at hj
      exact hnone j hj
  · rw [hpc]
    by_cases hjk : j = k
    · rw [hjk, Function.update_self, hq, if_pos (by omega)]
      simp
    · rw [Function.update_of_ne hjk]
      exact ⟨fun hj => absurd hj (hnone j), fun hj => absurd hj hjk⟩

omit [NeZero n] in
theorem Counted.make (h : Counted s) (hp : s.pc k = .last)
    (hcount : t.howManyAreHere = s.howManyAreHere) (hmade : t.initThreads = s.initThreads + 1)
    (hpc : t.pc = Function.update s.pc k .stopped) : Counted t := by
  have hall : s.howManyAreHere = n := by
    refine h.le.antisymm (not_lt.mp fun hlt => ?_)
    exact (h.few hlt).2 k hp
  have hhere : ∀ j, (t.pc j).Here ↔ (s.pc j).Here := fun j => by
    rw [hpc]
    by_cases hjk : j = k
    · rw [hjk, Function.update_self, hp]
      exact Iff.rfl
    · rw [Function.update_of_ne hjk]
  refine ⟨?_, fun hlt => by omega, fun _ => Or.inr ?_⟩
  · rw [hcount, h.here]
    exact congrArg Finset.card (Finset.filter_congr fun j _ => (hhere j).symm)
  · rcases h.all hall with ⟨hzero, i, hi⟩ | ⟨-, hnone⟩
    · refine ⟨by rw [hmade, hzero], fun j hj => ?_⟩
      rw [hpc] at hj
      by_cases hjk : j = k
      · rw [hjk, Function.update_self] at hj
        nomatch hj
      · rw [Function.update_of_ne hjk] at hj
        exact hjk (((hi j).mp hj).trans ((hi k).mp hp).symm)
    · exact absurd hp (hnone k)

theorem Counted.step (h : Counted s) (hphase : Phase s (s.pc 0)) (hstep : Step s t) :
    Counted t := by
  cases hstep with
  | reset k hp => exact h.move rfl rfl rfl (by simp [Pc.Here]) (by simp [hp, Pc.Here])
  | pick k hp => exact h.move rfl rfl rfl (by simp [Pc.Here]) (by simp [hp, Pc.Here])
  | enter k hp =>
    exact h.move rfl rfl rfl (by split <;> simp [Pc.Here]) (by simp [hp, Pc.Here])
  | globalInit k hp => exact h.move rfl rfl rfl (by simp [Pc.Here]) (by simp [hp, Pc.Here])
  | run k hp => exact h.move rfl rfl rfl (by simp [Pc.Here]) (by simp [hp, Pc.Here])
  | init k hp hid =>
    obtain rfl := hphase.eq_boot hp (by simp [Pc.Other, Pc.Young, Pc.Here])
    obtain ⟨hne, hoff⟩ := hphase.target_off hid (Or.inl hp)
    refine (h.move (t := s.goto 0 (.resetting _)) rfl rfl rfl (by simp [Pc.Here])
      (by simp [hp, Pc.Here])).move (k := ⟨_, hid⟩) (q := .off) rfl rfl rfl (by simp [Pc.Here]) ?_
    rw [goto_of_ne s hne, hoff]
    simp [Pc.Here]
  | startup k hp hid =>
    obtain rfl := hphase.eq_boot hp (by simp [Pc.Other, Pc.Young, Pc.Here])
    obtain ⟨hne, hoff⟩ := hphase.target_off hid (Or.inr hp)
    rename_i id
    have hoff' : (s.goto 0 (.waiting id)).pc ⟨id, hid⟩ = .off := (goto_of_ne s hne _).trans hoff
    rw [State.startup, if_pos hoff']
    refine (h.move (t := s.goto 0 (.waiting id)) rfl rfl rfl (by simp [Pc.Here])
      (by simp [hp, Pc.Here])).move (k := ⟨id, hid⟩) (q := .reset) rfl rfl rfl (by simp [Pc.Here]) ?_
    simp [hoff', Pc.Here]
  | await k hp => exact h.move rfl rfl rfl (by simp [Pc.Here]) (by simp [hp, Pc.Here])
  | started k hp => exact h.move rfl rfl rfl (by simp [Pc.Here]) (by simp [hp, Pc.Here])
  | join k hp => exact h.move rfl rfl rfl (by simp [Pc.Here]) (by simp [hp, Pc.Here])
  | prepare k hp => exact h.move rfl rfl rfl (by simp [Pc.Here]) (by simp [hp, Pc.Here])
  | count k hp => exact h.count hp rfl rfl rfl rfl
  | make k hp => exact h.make hp rfl rfl rfl

end Steps

/-! ## Runs -/

variable {s t : State n}

theorem Inv.init (h : Init s) : Inv s where
  phase := by
    rw [h.boot]
    refine ⟨h.smpInitDone, h.running, fun k hk => ?_, fun k hk hy => ?_, fun k hk => ?_⟩
    · exact ⟨fun _ => Nat.pos_of_ne_zero fun hval => hk (Fin.ext (by rw [hval, Fin.val_zero])),
        fun _ => h.others k hk⟩
    · rw [h.others k hk] at hy
      exact hy.elim
    · exact Or.inl (h.others k hk)
  onOwn := by
    refine ⟨fun k m hk => ?_, fun k => ?_⟩
    · rw [h.stack k] at hk
      nomatch hk
    · refine iff_of_true (h.stack k) ?_
      by_cases hk : k = 0
      · rw [hk, h.boot]
        trivial
      · rw [h.others k hk]
        trivial
  counted := by
    have hnone : ∀ k, ¬ (s.pc k).Here := fun k => by
      by_cases hk : k = 0
      · rw [hk, h.boot]
        exact id
      · rw [h.others k hk]
        exact id
    have hlast : ∀ k, s.pc k ≠ .last := fun k hk => hnone k (by rw [hk]; trivial)
    refine ⟨?_, fun _ => ⟨h.initThreads, hlast⟩, fun heq => ?_⟩
    · rw [h.howManyAreHere, present, Finset.filter_false_of_mem fun k _ => hnone k,
        Finset.card_empty]
    · exact absurd (heq.symm.trans h.howManyAreHere) (NeZero.ne n)

theorem Inv.step (h : Inv s) (hstep : Step s t) : Inv t :=
  ⟨h.phase.step hstep, h.onOwn.step h.phase hstep, h.counted.step h.phase hstep⟩

theorem inv_of_reachable (h : Reachable Init Step s) : Inv s :=
  h.invariant (I := Inv) (fun _ h => .init h) fun _ _ h hst => h.step hst

def twoCores : State 2 where
  smpInitDone := false
  running := 0
  howManyAreHere := 0
  initThreads := 0
  stack _ := none
  pc k := if k.val = 0 then .reset else .off

theorem init_twoCores : Init twoCores :=
  ⟨rfl, rfl, rfl, rfl, fun _ => rfl, rfl, fun _ hk => if_neg fun h => hk (Fin.ext h)⟩

/-- However the cores take turns, no two of them are on the temporary stack or on one kernel
stack, no core is reset that has begun, and the first process has one thread at most, made when
every core has prepared itself. -/
theorem cores_apart (h : Reachable Init Step s) :
    (∀ j k, s.pc j = .picking → s.pc k = .picking → j = k) ∧
    (∀ j k m, s.stack j = some m → s.stack k = some m → j = k) ∧
    (∀ k id (hid : id < n), s.pc k = .starting id ∨ s.pc k = .resetting id →
      s.pc ⟨id, hid⟩ = .off) ∧
    s.initThreads ≤ 1 ∧ (0 < s.initThreads → ∀ k, (s.pc k).Here) := by
  have I := inv_of_reachable h
  have hwaits : ∀ j, j ≠ 0 → s.pc j = .picking → s.pc 0 = .waiting j := fun j hj hp =>
    (I.phase.young hj (by rw [hp]; trivial)).1
  refine ⟨fun j k hj hk => ?_, fun j k m hj hk => (I.onOwn.own j m hj).symm.trans (I.onOwn.own k m hk),
    fun k id hid hp => ?_, ?_, fun hpos => ?_⟩
  · by_cases hj0 : j = 0
    · by_contra hne
      have hboot := hwaits k (fun hk0 => hne (hj0.trans hk0.symm)) hk
      rw [← hj0, hj] at hboot
      nomatch hboot
    · by_cases hk0 : k = 0
      · have hboot := hwaits j hj0 hj
        rw [← hk0, hk] at hboot
        nomatch hboot
      · exact Fin.ext (Pc.waiting.inj ((hwaits j hj0 hj).symm.trans (hwaits k hk0 hk)))
  · have hk : k = 0 := by
      rcases hp with hp | hp
      · exact I.phase.eq_boot hp (by simp [Pc.Other, Pc.Young, Pc.Here])
      · exact I.phase.eq_boot hp (by simp [Pc.Other, Pc.Young, Pc.Here])
    exact (I.phase.target_off hid (hk ▸ hp)).2
  · rcases I.counted.le.lt_or_eq with hlt | heq
    · exact (I.counted.few hlt).1.trans_le zero_le_one
    · rcases I.counted.all heq with ⟨hzero, -⟩ | ⟨hone, -⟩
      · exact hzero.trans_le zero_le_one
      · exact hone.le
  · have heq : s.howManyAreHere = n := by
      refine I.counted.le.antisymm (not_lt.mp fun hlt => ?_)
      exact absurd (I.counted.few hlt).1 hpos.ne'
    have hall : present s.pc = Finset.univ :=
      Finset.eq_univ_of_card _ (by rw [← I.counted.here, heq, Fintype.card_fin])
    intro k
    have hk : k ∈ present s.pc := hall ▸ Finset.mem_univ k
    exact (Finset.mem_filter.mp hk).2

theorem cores_apart_twoCores : ∃ s : State 2, s.pc 0 = .waiting 1 ∧ s.pc 1 = .picking ∧
    (∀ j k, s.pc j = .picking → s.pc k = .picking → j = k) ∧
    (∀ j k m, s.stack j = some m → s.stack k = some m → j = k) ∧
    (∀ k id (hid : id < 2), s.pc k = .starting id ∨ s.pc k = .resetting id →
      s.pc ⟨id, hid⟩ = .off) ∧
    s.initThreads ≤ 1 ∧ (0 < s.initThreads → ∀ k, (s.pc k).Here) := by
  have hstart : Reachable Init Step twoCores := .init init_twoCores
  have hfirst := hstart.step (.reset 0 rfl)
  have hinit := ((hfirst.step (.pick 0 rfl)).step (.enter 0 rfl)).step (.globalInit 0 rfl)
  have hsent := ((hinit.step (.run 0 rfl)).step (.init 0 rfl (by decide))).step
    (.startup 0 rfl (by decide))
  have hsecond := hsent.step (.reset 1 rfl)
  exact ⟨_, rfl, rfl, cores_apart hsecond⟩

/-! ## The end of the start -/

def Pc.steps (n : ℕ) : Pc → ℕ
  | .off => 3 * n + 7
  | .reset => 3 * n + 6
  | .picking => 3 * n + 5
  | .entered => 3 * n + 4
  | .first => 3 * n + 3
  | .calibrating => 3 * n + 2
  | .starting id => 3 * (n - id) + 4
  | .resetting id => 3 * (n - id) + 3
  | .waiting id => 3 * (n - id) + 2
  | .secondary => 4
  | .perCore => 3
  | .counting => 2
  | .last => 1
  | .stopped => 0

def work (s : State n) : ℕ := ∑ k, (s.pc k).steps n

omit [NeZero n] in
theorem work_move {k : Fin n} {q : Pc} (hpc : t.pc = Function.update s.pc k q)
    (hq : q.steps n < (s.pc k).steps n) : work t < work s := by
  refine Finset.sum_lt_sum (fun j _ => ?_) ⟨k, Finset.mem_univ k, ?_⟩
  · rw [hpc]
    by_cases hjk : j = k
    · rw [hjk, Function.update_self]
      exact hq.le
    · rw [Function.update_of_ne hjk]
  · rwa [hpc, Function.update_self]

theorem Inv.work_lt (I : Inv s) (hstep : Step s t) : work t < work s := by
  have hn : 1 ≤ n := NeZero.one_le
  cases hstep with
  | reset k hp => exact work_move rfl (by simp only [hp, Pc.steps]; omega)
  | pick k hp => exact work_move rfl (by simp only [hp, Pc.steps]; omega)
  | enter k hp => exact work_move rfl (by split <;> simp only [hp, Pc.steps] <;> omega)
  | globalInit k hp => exact work_move rfl (by simp only [hp, Pc.steps]; omega)
  | run k hp => exact work_move rfl (by simp only [hp, Pc.steps]; omega)
  | init k hp hid =>
    obtain rfl := I.phase.eq_boot hp (by simp [Pc.Other, Pc.Young, Pc.Here])
    obtain ⟨hne, hoff⟩ := I.phase.target_off hid (Or.inl hp)
    refine work_move (k := 0) (q := .resetting _) (Function.update_eq_self_iff.mpr ?_) ?_
    · exact ((goto_of_ne s hne _).trans hoff).symm
    · simp only [hp, Pc.steps]
      omega
  | startup k hp hid =>
    obtain rfl := I.phase.eq_boot hp (by simp [Pc.Other, Pc.Young, Pc.Here])
    obtain ⟨hne, hoff⟩ := I.phase.target_off hid (Or.inr hp)
    rename_i id
    have hoff' : (s.goto 0 (.waiting id)).pc ⟨id, hid⟩ = .off := (goto_of_ne s hne _).trans hoff
    rw [State.startup, if_pos hoff']
    have hfirst : work (s.goto 0 (.waiting id)) < work s :=
      work_move rfl (by simp only [hp, Pc.steps]; omega)
    exact (work_move rfl (by simp only [hoff', Pc.steps]; omega)).trans hfirst
  | await k hp hid =>
    obtain rfl := I.phase.eq_boot hp (by simp [Pc.Other, Pc.Young, Pc.Here])
    have hphase := I.phase
    rw [hp] at hphase
    obtain ⟨-, -, -, hlt, -⟩ := hphase
    exact work_move rfl (by simp only [hp, Pc.steps]; omega)
  | started k hp => exact work_move rfl (by simp only [hp, Pc.steps]; omega)
  | join k hp => exact work_move rfl (by simp only [hp, Pc.steps]; omega)
  | prepare k hp => exact work_move rfl (by simp only [hp, Pc.steps]; omega)
  | count k hp => exact work_move rfl (by split <;> simp only [hp, Pc.steps] <;> omega)
  | make k hp => exact work_move rfl (by simp only [hp, Pc.steps]; omega)

theorem Inv.finished (I : Inv s) (hstuck : ∀ t, ¬ Step s t) :
    (∀ k, s.pc k = .stopped) ∧ s.initThreads = 1 := by
  have hcore : ∀ k, s.pc k = .off ∨ s.pc k = .stopped ∨ ∃ id, s.pc k = .waiting id := by
    intro k
    cases hp : s.pc k with
    | off => exact Or.inl rfl
    | stopped => exact Or.inr (Or.inl rfl)
    | waiting id => exact Or.inr (Or.inr ⟨id, rfl⟩)
    | reset => exact (hstuck _ (.reset k hp)).elim
    | picking => exact (hstuck _ (.pick k hp)).elim
    | entered => exact (hstuck _ (.enter k hp)).elim
    | first => exact (hstuck _ (.globalInit k hp)).elim
    | calibrating => exact (hstuck _ (.run k hp)).elim
    | starting id =>
      rcases Nat.lt_or_ge id n with hid | hid
      · exact (hstuck _ (.init k hp hid)).elim
      · exact (hstuck _ (.started k hp hid)).elim
    | resetting id =>
      obtain rfl := I.phase.eq_boot hp (by simp [Pc.Other, Pc.Young, Pc.Here])
      have hphase := I.phase
      rw [hp] at hphase
      exact (hstuck _ (.startup 0 hp hphase.2.2.2.1)).elim
    | secondary => exact (hstuck _ (.join k hp)).elim
    | perCore => exact (hstuck _ (.prepare k hp)).elim
    | counting => exact (hstuck _ (.count k hp)).elim
    | last => exact (hstuck _ (.make k hp)).elim
  have hphase := I.phase
  have hboot : s.pc 0 = .stopped := by
    rcases hcore 0 with hp | hp | ⟨id, hp⟩
    · rw [hp] at hphase
      exact hphase.elim
    · exact hp
    · rw [hp] at hphase
      obtain ⟨-, hpos, ho, hid, hrunning⟩ := hphase
      by_cases hy : (s.pc ⟨id, hid⟩).Young
      · rcases hcore ⟨id, hid⟩ with hp' | hp' | ⟨id', hp'⟩ <;> rw [hp'] at hy <;> exact hy.elim
      · rw [if_neg hy] at hrunning
        exact (hstuck _ (.await 0 hp (by omega))).elim
  rw [hboot] at hphase
  have hall : ∀ k, s.pc k = .stopped := fun k => by
    by_cases hk : k = 0
    · rw [hk, hboot]
    · rcases hcore k with hp | hp | ⟨id, hp⟩
      · exact absurd ((hphase.2.2.off k hk).mp hp) (not_le.mpr k.isLt)
      · exact hp
      · exact absurd (I.phase.eq_boot hp (by simp [Pc.Other, Pc.Young, Pc.Here])) hk
  have hcount : s.howManyAreHere = n := by
    rw [I.counted.here, present, Finset.filter_true_of_mem fun k _ => by rw [hall k]; trivial]
    exact (Finset.card_univ).trans (Fintype.card_fin n)
  refine ⟨hall, ?_⟩
  rcases I.counted.all hcount with ⟨-, k, hk⟩ | ⟨hone, -⟩
  · have hlast := (hk k).mpr rfl
    rw [hall k] at hlast
    nomatch hlast
  · exact hone

/-- However the cores take turns, the start comes to an end, and only where every core has stopped
and the first process has its thread. -/
theorem boot_completes (h : Reachable Init Step s) :
    (¬ ∃ run : ℕ → State n, run 0 = s ∧ ∀ i, Step (run i) (run (i + 1))) ∧
    ∀ t, ReflTransGen Step s t → (∀ u, ¬ Step t u) →
      (∀ k, t.pc k = .stopped) ∧ t.initThreads = 1 := by
  refine ⟨?_, fun t ht hstuck => ?_⟩
  · rintro ⟨run, hstart, hsteps⟩
    have hreach : ∀ i, Reachable Init Step (run i) := fun i => by
      induction i with
      | zero => exact hstart ▸ h
      | succ i ih => exact ih.step (hsteps i)
    have hwork : ∀ i, work (run i) + i ≤ work s := fun i => by
      induction i with
      | zero => rw [hstart, Nat.add_zero]
      | succ i ih =>
        have hlt := (inv_of_reachable (hreach i)).work_lt (hsteps i)
        omega
    have hlate := hwork (work s + 1)
    omega
  · obtain ⟨s₀, h₀, hr⟩ := h
    exact (inv_of_reachable ⟨s₀, h₀, hr.trans ht⟩).finished hstuck

theorem boot_completes_twoCores :
    (¬ ∃ run : ℕ → State 2, run 0 = twoCores ∧ ∀ i, Step (run i) (run (i + 1))) ∧
    ∀ t, ReflTransGen Step twoCores t → (∀ u, ¬ Step t u) →
      (∀ k, t.pc k = .stopped) ∧ t.initThreads = 1 :=
  boot_completes (.init init_twoCores)

end OsShell.Boot
