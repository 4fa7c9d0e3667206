import OsShell.Threads.Places

/-!
# The preemption flag

`block` marks the thread that calls it and the one it installs, and the switch
clears both marks. A call that finds `readyQ` empty and may return does so
without the switch, and leaves its caller marked until some later call of it
does switch.
-/

namespace OsShell.Scheduler

open Runs Threads

variable {K U X : Type*} [DecidableEq K] [DecidableEq U] [DecidableEq X]

def Event.Ends (e : Event K U X) (s' : State K U X) (k : K) : Prop :=
  (e = .take k ∨ e = .finish k) ∧ s'.phase k = .running

def Event.Restores (e : Event K U X) (s' : State K U X) : Prop :=
  ∀ k, e.Ends s' k → s'.no_preempt (s'.activeThreads k) = false

def Event.Finds (e : Event K U X) (s : State K U X) : Prop :=
  ∀ k action, e = .take k → s.phase k = .blocking .canReturn action → s.readyQ.first ≠ none

/-- A step in which no call returns for want of a thread. -/
def FindingStep (s : State K U X) (e : Event K U X) (s' : State K U X) : Prop :=
  Step s e s' ∧ e.Finds s

def State.Cleared (s : State K U X) : Prop :=
  ∀ k me action, s.phase k = .switched me action → s.no_preempt (s.activeThreads k) = false

def State.Preemptible (s : State K U X) : Prop :=
  ∀ k, s.phase k = .running → (s.activeThreads k).isIdle = false →
    s.no_preempt (s.activeThreads k) = false

variable {s s' : State K U X} {l : Line X → List (Tcb K U)}
  {place : Tcb K U → Option (Place K U X)} {k j : K} {t me : Tcb K U} {action : Action X}
  {option : BlockOption} {e : Event K U X} {es : List (Event K U X)}

def Event.core : Event K U X → K
  | .yield k | .stop k | .timer k | .take k | .install k | .contextSwitch k | .finish k
  | .down k _ | .up k _ | .create k _ | .reap k | .schedule k | .delete k => k

namespace State

def mark (s : State K U X) (k : K) : Bool :=
  s.no_preempt (s.activeThreads k)

omit [DecidableEq X] in
theorem schedule_same (h : s.schedule t = some s') : s.Same s' := by
  unfold schedule at h
  split at h
  · cases h
    exact ⟨rfl, rfl, rfl, rfl, rfl⟩
  · obtain ⟨_, -, rfl⟩ := Option.map_eq_some_iff.mp h
    exact ⟨rfl, rfl, rfl, rfl, rfl⟩

theorem runAction_same (h : s.runAction me action = some s') : s.Same s' := by
  cases action with
  | schedule => exact schedule_same h
  | _ =>
    simp only [runAction] at h
    split at h
    · cases h <;> exact ⟨rfl, rfl, rfl, rfl, rfl⟩
    · obtain ⟨_, -, rfl⟩ := Option.map_eq_some_iff.mp h
      exact ⟨rfl, rfl, rfl, rfl, rfl⟩

theorem up_cores (s : State K U X) (k : K) (x : X) : (s.up k x).phase = s.phase ∧
    (s.up k x).activeThreads = s.activeThreads ∧ (s.up k x).no_preempt = s.no_preempt := by
  unfold up
  simp only
  split <;> exact ⟨rfl, rfl, rfl⟩

omit [DecidableEq X] in
theorem reap_cores (s : State K U X) (k : K) : (s.reap k).phase = s.phase ∧
    (s.reap k).activeThreads = s.activeThreads ∧ (s.reap k).no_preempt = s.no_preempt := by
  unfold reap
  simp only
  split <;> exact ⟨rfl, rfl, rfl⟩

omit [DecidableEq U] [DecidableEq X] in
theorem take_cases (s : State K U X) (k : K) (option : BlockOption) (action : Action X) :
    (s.take k option action).activeThreads = s.activeThreads ∧
    (s.take k option action).no_preempt = s.no_preempt ∧
    ∃ phase, (s.take k option action).phase = Function.update s.phase k phase ∧
      (phase.Open ∨ phase = .running) ∧
      (phase = .running ↔ option = .canReturn ∧ s.readyQ.first = none) := by
  unfold take Queue.remove
  cases hfirst : s.readyQ.first with
  | some t => exact ⟨rfl, rfl, .taken t action, rfl, .inl trivial, by simp⟩
  | none =>
    cases option with
    | canReturn => exact ⟨rfl, rfl, .running, rfl, .inr rfl, by simp⟩
    | mustBlock =>
      simp only
      split
      · exact ⟨rfl, rfl, .blocking .mustBlock action, rfl, .inl trivial, by simp⟩
      · exact ⟨rfl, rfl, .taken (.idle k) action, rfl, .inl trivial, by simp⟩

end State

theorem Inv.other_core (h : Inv s l place) (hst : Step s e s') (hne : j ≠ e.core) :
    s'.phase j = s.phase j ∧ s'.activeThreads j = s.activeThreads j ∧ s'.mark j = s.mark j := by
  have hactive := h.active_ne hne
  have hcur := h.current j
  unfold State.mark
  cases hst with
  | yield hfree | stop hfree =>
    simp only [State.block, Event.core] at *
    grind
  | timer hphase =>
    simp only [State.apitHandler, Event.core] at *
    split
    · exact ⟨rfl, rfl, rfl⟩
    · simp only [State.block]
      grind
  | @take k option action hphase =>
    obtain ⟨hactive', hmark, phase, hphase', -⟩ := s.take_cases k option action
    simp only [Event.core] at hne
    rw [hactive', hmark, hphase', Function.update_of_ne hne]
    exact ⟨rfl, rfl, rfl⟩
  | @install k t action hphase =>
    have ht : place t = some (.chosen k) :=
      (h.at_iff t (.chosen k)).mp (by simp [State.At, hphase, Phase.chosen])
    simp only [State.install, Event.core] at *
    grind
  | @contextSwitch k me action hphase =>
    have hme : place me = some (.pending k) := h.pending (by rw [hphase, Phase.left])
    simp only [State.contextSwitch, Event.core] at *
    grind
  | finish hphase haction =>
    obtain ⟨hactive', hphase', hmark, -, -⟩ := State.runAction_same haction
    simp only [State.finish, Event.core] at *
    grind
  | down hfree hlocked =>
    simp only [State.down, Event.core] at *
    split
    · exact ⟨rfl, rfl, rfl⟩
    · simp only [State.block]
      grind
  | @up k x hfree hlocked =>
    obtain ⟨hphase, hactive', hmark⟩ := s.up_cores k x
    simp only [hphase, hactive', hmark, and_self]
  | @create k u hfree hlive =>
    have hnone := h.active_ne_user (k := j) hlive
    simp only [State.create, State.grasp]
    grind
  | @reap k hfree =>
    obtain ⟨hphase, hactive', hmark⟩ := s.reap_cores k
    simp only [hphase, hactive', hmark, and_self]
  | schedule hphase hhand hcall =>
    obtain ⟨hactive', hphase', hmark, -, -⟩ := State.schedule_same hcall
    simp only [State.release, hactive', hphase', hmark, and_self]
  | @delete k tcb hphase hhand => cases tcb <;> exact ⟨rfl, rfl, rfl⟩

theorem Inv.own_core (h : Inv s l place) (hst : Step s e s') :
    (s'.phase e.core = s.phase e.core ∧ s'.activeThreads = s.activeThreads ∧
      s'.mark e.core = s.mark e.core ∧ ∀ k, (e = .take k ∨ e = .finish k) → s'.phase k ≠ .running) ∨
    (s'.phase e.core).Open ∨
    (∃ me action, s.phase e.core = .installed me action ∧
      s'.phase e.core = .switched me action ∧ s'.mark e.core = false) ∨
    (∃ me action, e = .finish e.core ∧ s.phase e.core = .switched me action ∧
      s'.phase e.core = .running ∧ s'.mark e.core = s.mark e.core) ∨
    ∃ action, e = .take e.core ∧ s.phase e.core = .blocking .canReturn action ∧
      s.readyQ.first = none ∧ s'.phase e.core = .running ∧ s'.mark e.core = s.mark e.core := by
  cases hst with
  | @yield k hfree | @stop k hfree =>
    right; left
    simp only [State.block, Event.core, Function.update_self, Phase.Open]
  | @timer k hphase =>
    simp only [State.apitHandler, Event.core]
    split
    · exact .inl ⟨rfl, rfl, rfl, by simp⟩
    · right; left
      simp only [State.block, Function.update_self, Phase.Open]
  | @take k option action hphase =>
    obtain ⟨hactive, hmark, phase, hphase', hopen, hreturn⟩ := s.take_cases k option action
    simp only [Event.core, State.mark, hactive, hmark, hphase', Function.update_self]
    by_cases hrun : phase = .running
    · obtain ⟨rfl, hfirst⟩ := hreturn.mp hrun
      exact .inr (.inr (.inr (.inr ⟨action, trivial, hphase, hfirst, hrun, trivial⟩)))
    · exact .inr (.inl (hopen.resolve_right hrun))
  | @install k t action hphase =>
    right; left
    simp only [State.install, Event.core, Function.update_self, Phase.Open]
  | @contextSwitch k me action hphase =>
    right; right; left
    exact ⟨me, action, hphase, by simp [State.contextSwitch, Event.core],
      by simp [State.contextSwitch, Event.core, State.mark]⟩
  | @finish s₁ k me action hphase haction =>
    obtain ⟨hactive, hphase', hmark, -, -⟩ := State.runAction_same haction
    right; right; right; left
    exact ⟨me, action, rfl, hphase, by simp [State.finish, Event.core],
      by simp [State.finish, Event.core, State.mark, hactive, hmark]⟩
  | @down k x hfree hlocked =>
    simp only [State.down, Event.core]
    split
    · exact .inl ⟨rfl, rfl, rfl, by simp⟩
    · right; left
      simp only [State.block, Function.update_self, Phase.Open]
  | @up k x hfree hlocked =>
    obtain ⟨hphase, hactive, hmark⟩ := s.up_cores k x
    left
    simp [Event.core, State.mark, hphase, hactive, hmark]
  | @create k u hfree hlive =>
    left
    have hnone := h.active_ne_user (k := k) hlive
    simp [State.create, State.grasp, Event.core, State.mark, hnone]
  | @reap k hfree =>
    obtain ⟨hphase, hactive, hmark⟩ := s.reap_cores k
    left
    simp [Event.core, State.mark, hphase, hactive, hmark]
  | schedule hphase hhand hcall =>
    obtain ⟨hactive, hphase', hmark, -, -⟩ := State.schedule_same hcall
    left
    simp [State.release, State.mark, hactive, hphase', hmark]
  | @delete k tcb hphase hhand =>
    left
    cases tcb <;> exact ⟨rfl, rfl, rfl, by simp⟩

theorem Inv.cleared (h : Inv s l place) (hc : s.Cleared) (hst : Step s e s') : s'.Cleared := by
  intro j me action hj
  change s'.mark j = false
  by_cases hcore : j = e.core
  · subst hcore
    rcases h.own_core hst with ⟨hphase, -, hmark, -⟩ | hopen | ⟨_, _, -, -, hmark⟩ |
      ⟨_, _, -, -, hrun, -⟩ | ⟨_, -, -, -, hrun, -⟩
    · rw [hmark]
      exact hc _ me action (hphase ▸ hj)
    · simp [hj, Phase.Open] at hopen
    · exact hmark
    · simp [hj] at hrun
    · simp [hj] at hrun
  · obtain ⟨hphase, -, hmark⟩ := h.other_core hst hcore
    rw [hmark]
    exact hc j me action (hphase ▸ hj)

theorem Inv.preemptible (h : Inv s l place) (hc : s.Cleared) (hp : s.Preemptible)
    (hst : FindingStep s e s') : s'.Preemptible := by
  obtain ⟨hst, hfinds⟩ := hst
  intro j hrun huser
  change s'.mark j = false
  by_cases hcore : j = e.core
  · subst hcore
    rcases h.own_core hst with ⟨hphase, hactive, hmark, -⟩ | hopen | ⟨_, _, -, hphase, -⟩ |
      ⟨me, action, -, hphase, -, hmark⟩ | ⟨action, htake, hphase, hfirst, -, -⟩
    · rw [hmark]
      exact hp _ (hphase ▸ hrun) (hactive ▸ huser)
    · simp [hrun, Phase.Open] at hopen
    · simp [hphase] at hrun
    · rw [hmark]
      exact hc _ me action hphase
    · exact absurd hfirst (hfinds _ action htake hphase)
  · obtain ⟨hphase, hactive, hmark⟩ := h.other_core hst hcore
    rw [hmark]
    exact hp j (hphase ▸ hrun) (hactive ▸ huser)

theorem Inv.restores_iff (h : Inv s l place) (hc : s.Cleared) (hst : Step s e s') :
    e.Restores s' ↔ e.Finds s := by
  constructor
  · intro hrestores k action htake hphase hfirst
    subst htake
    cases hst with
    | @take _ option _ hphase' =>
      obtain rfl : option = .canReturn := by
        rw [hphase] at hphase'
        cases hphase'
        rfl
      obtain ⟨hactive, hmark, phase, hgoto, -, hreturn⟩ := s.take_cases k .canReturn _
      have hmarked := h.marked k (by rw [hphase]; trivial)
      have hcleared := hrestores k ⟨.inl rfl, by
        rw [hgoto, Function.update_self]
        exact hreturn.mpr ⟨rfl, hfirst⟩⟩
      rw [hactive, hmark, hmarked] at hcleared
      cases hcleared
  · intro hfinds k hends
    obtain ⟨he, hrun⟩ := hends
    change s'.mark k = false
    obtain rfl : k = e.core := by
      rcases he with rfl | rfl <;> rfl
    rcases h.own_core hst with ⟨-, -, -, hno⟩ | hopen | ⟨_, _, -, hphase, -⟩ |
      ⟨me, action, -, hphase, -, hmark⟩ | ⟨action, htake, hphase, hfirst, -, -⟩
    · exact absurd hrun (hno _ he)
    · simp [hrun, Phase.Open] at hopen
    · simp [hphase] at hrun
    · rw [hmark]
      exact hc _ me action hphase
    · exact absurd hfirst (hfinds _ action htake hphase)

theorem cleared_of_trace (h : Trace Init Step es s) : ∃ l place, Inv s l place ∧ s.Cleared := by
  refine h.invariant (I := fun _ s => ∃ l place, Inv s l place ∧ s.Cleared) (fun s hs => ?_)
    fun _ _ s s' ⟨l, place, hinv, hc⟩ hst => ?_
  · exact ⟨_, _, inv_of_init hs, fun k me action hk => by simp [hs.phase k] at hk⟩
  · obtain ⟨l', place', hinv'⟩ := hinv.step hst
    exact ⟨l', place', hinv', hinv.cleared hc hst⟩

theorem preemptible_of_trace (h : Trace Init FindingStep es s) : s.Preemptible := by
  have hall : ∃ l place, Inv s l place ∧ s.Cleared ∧ s.Preemptible := by
    refine h.invariant (I := fun _ s => ∃ l place, Inv s l place ∧ s.Cleared ∧ s.Preemptible)
      (fun s hs => ?_) fun _ _ s s' ⟨l, place, hinv, hc, hp⟩ hst => ?_
    · exact ⟨_, _, inv_of_init hs, fun k me action hk => by simp [hs.phase k] at hk,
        fun k _ huser => by simp [hs.activeThreads k, Tcb.isIdle] at huser⟩
    · obtain ⟨l', place', hinv'⟩ := hinv.step hst.1
      exact ⟨l', place', hinv', hinv.cleared hc hst.1, hinv.preemptible hc hp hst⟩
  obtain ⟨-, -, -, -, hp⟩ := hall
  exact hp

theorem trace_preemptible (h : Trace Init Step es s) :
    (∀ e s', Step s e s' → (e.Restores s' ↔ e.Finds s)) ∧
      (Trace Init FindingStep es s → s.Preemptible ∧
        ∀ k u, s.phase k = .running → s.activeThreads k = .user u →
          s.apitHandler k = s.block k .canReturn .schedule) := by
  obtain ⟨l, place, hinv, hc⟩ := cleared_of_trace h
  refine ⟨fun e s' hst => hinv.restores_iff hc hst, fun hfinding => ?_⟩
  have hp := preemptible_of_trace hfinding
  refine ⟨hp, fun k u hrun huser => ?_⟩
  have hidle : (s.activeThreads k).isIdle = false := by rw [huser]; rfl
  have hmark := hp k hrun hidle
  rw [State.apitHandler, hidle, hmark]
  rfl

def alone : List (Event Unit Unit Unit) :=
  [.create () (), .schedule (), .yield (), .take (), .install (), .contextSwitch (), .finish ()]

theorem alone_yields : ∃ s s₁ s₂, Trace Init FindingStep alone s ∧ Step s (.yield ()) s₁ ∧
    Step s₁ (.take ()) s₂ ∧ s₂.phase () = .running ∧ s₂.no_preempt (s₂.activeThreads ()) = true := by
  have h0 : Trace Init FindingStep [] oneCore := .start oneCore_init
  have h1 := h0.step ⟨.create (u := ()) (k := ()) ⟨rfl, rfl⟩ rfl, nofun⟩
  have h2 := h1.step ⟨.schedule (k := ()) rfl rfl rfl, nofun⟩
  have h3 := h2.step ⟨.yield (k := ()) ⟨rfl, rfl⟩, nofun⟩
  have h4 := h3.step ⟨.take (k := ()) rfl, fun _ _ _ _ => Option.some_ne_none _⟩
  have h5 := h4.step ⟨.install (k := ()) rfl, nofun⟩
  have h6 := h5.step ⟨.contextSwitch (k := ()) rfl, nofun⟩
  have h7 := h6.step ⟨.finish (k := ()) rfl rfl, nofun⟩
  exact ⟨_, _, _, h7, .yield (k := ()) ⟨rfl, rfl⟩, .take (k := ()) rfl, rfl, rfl⟩

theorem alone_preemptible : ∃ s : State Unit Unit Unit, Trace Init FindingStep alone s ∧
    s.Preemptible ∧ ∀ k u, s.phase k = .running → s.activeThreads k = .user u →
      s.apitHandler k = s.block k .canReturn .schedule := by
  obtain ⟨s, -, -, h, -⟩ := alone_yields
  exact ⟨s, h, (trace_preemptible (h.mono fun _ _ _ hst => hst.1)).2 h⟩

theorem alone_not_restored : ¬ ∀ es (s : State Unit Unit Unit) e s', Trace Init Step es s →
    Step s e s' → e.Restores s' := by
  intro hall
  obtain ⟨s, s₁, s₂, h, hyield, htake, hrun, hmark⟩ := alone_yields
  have hrestores := hall _ s₁ _ s₂ ((h.mono fun _ _ _ hst => hst.1).step hyield) htake
  have hcleared := hrestores () ⟨.inl rfl, hrun⟩
  rw [hmark] at hcleared
  cases hcleared

end OsShell.Scheduler
