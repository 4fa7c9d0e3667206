import OsShell.Threads.Scheduler

/-!
# Where every thread is

Between steps a thread is current, switched away from, in one of the queues, or
in the hands of one call. The invariant names the place of each thread once;
that no thread is in two places, and none is lost, is then immediate, and a step
moves one thread or two.
-/

namespace OsShell.Scheduler

open Runs Threads

variable {K U X : Type*}

namespace Phase

def left : Phase K U X → Option (Tcb K U)
  | .installed me _ | .switched me _ => some me
  | _ => none

def chosen : Phase K U X → Option (Tcb K U)
  | .taken next_tcb _ => some next_tcb
  | _ => none

def action : Phase K U X → Option (Action X)
  | .running => none
  | .blocking _ action | .taken _ action | .installed _ action | .switched _ action => some action

/-- In the part of `block` that runs with interrupts on. -/
def Open : Phase K U X → Prop
  | .blocking _ _ | .taken _ _ | .installed _ _ => True
  | _ => False

end Phase

inductive Line (X : Type*)
  | readyQ
  | zombies
  | waiting (x : X)
deriving DecidableEq

inductive Place (K U X : Type*)
  | current (k : K)
  | pending (k : K)
  | queued (a : Line X)
  /-- in the hands of the `block` of the core -/
  | chosen (k : K)
  /-- in the hands of a call of the thread -/
  | held (holder : Tcb K U)

namespace State

def queue (s : State K U X) : Line X → Queue (Tcb K U)
  | .readyQ => s.readyQ
  | .zombies => s.zombies
  | .waiting x => s.waiting x

def Queued (s : State K U X) (l : Line X → List (Tcb K U)) : Prop :=
  ∀ a, (s.queue a).Holds s.next (l a)

theorem Queued.frame {s s' : State K U X} {l : Line X → List (Tcb K U)} (h : s.Queued l)
    (hready : s'.readyQ = s.readyQ) (hzombies : s'.zombies = s.zombies)
    (hwaiting : s'.waiting = s.waiting) (hnext : s'.next = s.next) : s'.Queued l := fun a => by
  have := h a
  cases a <;> simpa only [queue, hready, hzombies, hwaiting, hnext] using this

theorem queue_waiting [DecidableEq X] {s s' : State K U X} {x : X} {q : Queue (Tcb K U)}
    (hready : s'.readyQ = s.readyQ) (hzombies : s'.zombies = s.zombies)
    (hwaiting : s'.waiting = Function.update s.waiting x q) :
    s'.queue = Function.update s.queue (.waiting x) q := by
  funext a
  cases a with
  | waiting y =>
    by_cases hy : y = x
    · simp [queue, hwaiting, hy]
    · simp [queue, hwaiting, hy]
  | readyQ => simp [queue, hready]
  | zombies => simp [queue, hzombies]

def At (s : State K U X) (l : Line X → List (Tcb K U)) (t : Tcb K U) : Place K U X → Prop
  | .current k => s.activeThreads k = t
  | .pending k => (s.phase k).left = some t
  | .queued a => t ∈ l a
  | .chosen k => (s.phase k).chosen = some t
  | .held holder => (s.hand holder).map Prod.snd = some t

/-- The thread that called `block` on the core, or runs on it. -/
def caller (s : State K U X) (k : K) : Tcb K U :=
  (s.phase k).left.getD (s.activeThreads k)

structure Same (s s' : State K U X) : Prop where
  activeThreads : s'.activeThreads = s.activeThreads
  phase : s'.phase = s.phase
  no_preempt : s'.no_preempt = s.no_preempt
  hand : s'.hand = s.hand
  live : s'.live = s.live

end State

def Place.Resting : Place K U X → Prop
  | .queued .zombies | .queued (.waiting _) | .held _ => True
  | _ => False

structure Inv (s : State K U X) (l : Line X → List (Tcb K U))
    (place : Tcb K U → Option (Place K U X)) : Prop where
  queued : s.Queued l
  at_iff : ∀ t p, s.At l t p ↔ place t = some p
  live : ∀ u, s.live u = true ↔ ∃ p, place (.user u) = some p
  idle : ∀ k p, place (.idle k) = some p → p = .current k ∨ p = .pending k ∨ p = .chosen k
  marked : ∀ k, (s.phase k).Open → s.no_preempt (s.activeThreads k) = true
  resting : ∀ t p, place t = some p → p.Resting → s.hand t = none
  absent : ∀ u, place (.user u) = none → s.hand (.user u) = none
  leaving : ∀ k action, (s.phase k).action = some action →
    action = .schedule ∨ s.hand (s.caller k) = none

namespace Inv

variable {s s' : State K U X} {l : Line X → List (Tcb K U)}
  {place : Tcb K U → Option (Place K U X)} {p : Place K U X} {k : K} {u : U} {x : X} {a : Line X}
  {t me : Tcb K U} {ts : List (Tcb K U)} {option : BlockOption} {action : Action X} {duty : Duty}

theorem current (h : Inv s l place) (k : K) : place (s.activeThreads k) = some (.current k) :=
  (h.at_iff _ (.current k)).mp rfl

theorem pending (h : Inv s l place) (hleft : (s.phase k).left = some me) :
    place me = some (.pending k) :=
  (h.at_iff me (.pending k)).mp hleft

theorem not_mem (h : Inv s l place) (hp : place t = some p) (hne : ∀ a, p ≠ .queued a) (a : Line X) :
    t ∉ l a := fun hm => by
  have := (h.at_iff t (.queued a)).mp hm
  rw [hp] at this
  exact hne a (Option.some.inj this)

theorem held {holder : Tcb K U} (h : Inv s l place) (hhand : s.hand holder = some (duty, t)) :
    place t = some (.held holder) :=
  (h.at_iff t (.held holder)).mp (by simp [State.At, hhand])

theorem held_user {holder : Tcb K U} (h : Inv s l place)
    (hhand : s.hand holder = some (duty, t)) : t.isIdle = false := by
  cases t with
  | user u => rfl
  | idle k => rcases h.idle k _ (h.held hhand) with hp | hp | hp <;> cases hp

theorem active_ne (h : Inv s l place) {j : K} (hne : j ≠ k) : s.activeThreads j ≠ s.activeThreads k :=
  fun heq => by
  have hj := h.current j
  rw [heq, h.current k] at hj
  exact hne (by injection Option.some.inj hj with hkj; exact hkj.symm)

theorem active_ne_user (h : Inv s l place) (hlive : s.live u = false) :
    s.activeThreads k ≠ .user u := fun heq => by
  have := (h.live u).mpr ⟨_, heq ▸ h.current k⟩
  rw [hlive] at this
  cases this

theorem caller_ne (h : Inv s l place) {j : K} (hne : j ≠ k) : s.caller j ≠ s.activeThreads k :=
  fun heq => by
  have hcur := h.current k
  unfold State.caller at heq
  cases hleft : (s.phase j).left with
  | none =>
    rw [hleft, Option.getD_none] at heq
    rw [← heq, h.current j] at hcur
    exact hne (by injection Option.some.inj hcur)
  | some me =>
    rw [hleft, Option.getD_some] at heq
    rw [← heq, h.pending hleft] at hcur
    cases hcur

variable [DecidableEq K]

theorem goto (h : Inv s l place) {phase phase' : Phase K U X} (hphase : s.phase k = phase)
    (hleft : phase'.left = phase.left) (hchosen : phase'.chosen = phase.chosen)
    (hopen : phase'.Open → phase.Open) (haction : ∀ a, phase'.action = some a → phase.action = some a) :
    Inv { s with phase := Function.update s.phase k phase' } l place where
  queued := h.queued.frame rfl rfl rfl rfl
  at_iff t p := by
    rw [← h.at_iff]
    cases p <;> simp only [State.At] <;> grind
  live := h.live
  idle := h.idle
  marked j hj := by
    have := h.marked j
    grind
  resting := h.resting
  absent := h.absent
  leaving j a hj := by
    have := h.leaving j a
    simp only [State.caller] at *
    grind

variable [DecidableEq U]

theorem block (h : Inv s l place) (hphase : s.phase k = .running)
    (hleave : action = .schedule ∨ s.hand (s.activeThreads k) = none) :
    Inv (s.block k option action) l place where
  queued := h.queued.frame rfl rfl rfl rfl
  at_iff t p := by
    rw [← h.at_iff]
    cases p <;> simp only [State.At, State.block] <;> grind [Phase.left, Phase.chosen]
  live := h.live
  idle := h.idle
  marked j hj := by
    have := h.marked j
    simp only [State.block] at hj ⊢
    grind
  resting := h.resting
  absent := h.absent
  leaving j a hj := by
    have := h.leaving j a
    simp only [State.block, State.caller] at *
    grind [Phase.left, Phase.action]

theorem choose (h : Inv s l place) (s' : State K U X) {l' : Line X → List (Tcb K U)} (hsame : s.Same s')
    (hqueued : s'.Queued l') (hphase : s.phase k = .blocking option action)
    (hrest : ∀ a v, v ∈ l' a ↔ v ∈ l a ∧ v ≠ t)
    (ht : place t = some (.queued .readyQ) ∨ place t = none ∧ t = .idle k) :
    Inv { s' with phase := Function.update s'.phase k (.taken t action) } l'
      (Function.update place t (some (.chosen k))) := by
  have hat := h.at_iff
  obtain ⟨hactive, hphase', hmark, hhand, hlive⟩ := hsame
  refine ⟨hqueued.frame rfl rfl rfl rfl, fun t' p => ?_, fun v => ?_, fun j p hp => ?_,
    fun j hj => ?_, fun t' p hp hp' => ?_, fun v hv => ?_, fun j a hj => ?_⟩
  · have hp := hat t' p
    have ht := hat t p
    cases p <;> simp only [State.At, hactive, hphase', hhand, hrest] at * <;>
      grind [Phase.left, Phase.chosen]
  · have := h.live v
    grind
  · have := h.idle j p
    have := h.idle j (.queued .readyQ)
    grind
  · have := h.marked j
    grind [Phase.Open]
  · have := h.resting t' p
    grind [Place.Resting]
  · have := h.absent v
    grind
  · have := h.leaving j a
    simp only [State.caller] at *
    grind [Phase.left, Phase.action]

theorem install (h : Inv s l place) (hphase : s.phase k = .taken t action) :
    Inv (s.install k t action) l (Function.update
      (Function.update place (s.activeThreads k) (some (.pending k))) t (some (.current k))) := by
  have hat := h.at_iff
  have hcur := h.current k
  have ht : place t = some (.chosen k) :=
    (hat t (.chosen k)).mp (by simp [State.At, hphase, Phase.chosen])
  refine ⟨h.queued.frame rfl rfl rfl rfl, fun t' p => ?_, fun v => ?_, fun j p hp => ?_,
    fun j hj => ?_, fun t' p hp hp' => ?_, fun v hv => ?_, fun j a hj => ?_⟩
  · have hp := hat t' p
    have ht' := hat t p
    have hc := hat (s.activeThreads k) p
    cases p <;> simp only [State.At, State.install] at * <;> grind [Phase.left, Phase.chosen]
  · have := h.live v
    simp only [State.install]
    grind
  · have := h.idle j p
    have := h.idle j (.current k)
    have := h.idle j (.chosen k)
    grind
  · have := h.marked j
    simp only [State.install] at *
    grind [Phase.Open]
  · have := h.resting t' p
    simp only [State.install] at *
    grind [Place.Resting]
  · have := h.absent v
    simp only [State.install] at *
    grind
  · have := h.leaving j a
    simp only [State.caller, State.install] at *
    grind [Phase.left, Phase.action]

theorem contextSwitch (h : Inv s l place) (hphase : s.phase k = .installed me action) :
    Inv (s.contextSwitch k me action) l place := by
  have hcur := h.current
  have hme : place me = some (.pending k) := h.pending (by rw [hphase, Phase.left])
  refine ⟨h.queued.frame rfl rfl rfl rfl, fun t' p => ?_, h.live, h.idle, fun j hj => ?_, h.resting,
    h.absent, fun j a hj => ?_⟩
  · rw [← h.at_iff]
    cases p <;> simp only [State.At, State.contextSwitch] <;> grind [Phase.left, Phase.chosen]
  · have := h.marked j
    have := hcur j
    have := hcur k
    simp only [State.contextSwitch] at *
    grind [Phase.Open]
  · have := h.leaving j a
    simp only [State.caller, State.contextSwitch] at *
    grind [Phase.left, Phase.action]

theorem park (h : Inv s l place) (hphase : s.phase k = .switched me action)
    (hidle : me.isIdle = true) : Inv (s.finish k) l (Function.update place me none) := by
  have hat := h.at_iff
  have hme : place me = some (.pending k) := h.pending (by rw [hphase, Phase.left])
  refine ⟨h.queued.frame rfl rfl rfl rfl, fun t' p => ?_, fun v => ?_, fun j p hp => ?_,
    fun j hj => ?_, fun t' p hp hp' => ?_, fun v hv => ?_, fun j a hj => ?_⟩
  · have hp := hat t' p
    have hm := hat me p
    cases p <;> simp only [State.At, State.finish] at * <;> grind [Phase.left, Phase.chosen]
  · have := h.live v
    simp only [State.finish]
    grind [Tcb.isIdle]
  · have := h.idle j p
    grind
  · have := h.marked j
    simp only [State.finish] at *
    grind [Phase.Open]
  · have := h.resting t' p
    simp only [State.finish] at *
    grind [Place.Resting]
  · have := h.absent v
    simp only [State.finish] at *
    grind [Tcb.isIdle]
  · have := h.leaving j a
    simp only [State.caller, State.finish] at *
    grind [Phase.left, Phase.action]

theorem publish (h : Inv s l place) {l' : Line X → List (Tcb K U)} (hsame : s.Same s')
    (hqueued : s'.Queued l') (hphase : s.phase k = .switched me action) (huser : me.isIdle = false)
    (hmem : ∀ b v, v ∈ l' b ↔ v ∈ l b ∨ v = me ∧ b = a)
    (hrest : (Place.queued a : Place K U X).Resting → s.hand me = none) :
    Inv (s'.finish k) l' (Function.update place me (some (.queued a))) := by
  have hat := h.at_iff
  have hme : place me = some (.pending k) := h.pending (by rw [hphase, Phase.left])
  obtain ⟨hactive, hphase', hmark, hhand, hlive⟩ := hsame
  refine ⟨hqueued.frame rfl rfl rfl rfl, fun t' p => ?_, fun v => ?_, fun j p hp => ?_,
    fun j hj => ?_, fun t' p hp hp' => ?_, fun v hv => ?_, fun j a hj => ?_⟩
  · have hp := hat t' p
    have hm := hat me p
    cases p <;> simp only [State.At, State.finish, hactive, hphase', hhand, hmem] at * <;>
      grind [Phase.left, Phase.chosen]
  · have := h.live v
    simp only [State.finish]
    grind
  · have := h.idle j p
    grind [Tcb.isIdle]
  · have := h.marked j
    simp only [State.finish] at *
    grind [Phase.Open]
  · have := h.resting t' p
    simp only [State.finish] at *
    grind
  · have := h.absent v
    simp only [State.finish] at *
    grind
  · have := h.leaving j a
    simp only [State.caller, State.finish] at *
    grind [Phase.left, Phase.action]

theorem hold (h : Inv s l place) {l' : Line X → List (Tcb K U)} (hsame : s.Same s')
    (hqueued : s'.Queued l') (hfree : Free s k) (ht : place t = some (.queued a))
    (ha : a ≠ .readyQ) (hmem : ∀ b v, v ∈ l' b ↔ v ∈ l b ∧ v ≠ t) :
    Inv (s'.grasp k duty t) l' (Function.update place t (some (.held (s.activeThreads k)))) := by
  have hat := h.at_iff
  have hcur := h.current k
  obtain ⟨hrun, hfree⟩ := hfree
  obtain ⟨hactive, hphase', hmark, hhand, hlive⟩ := hsame
  refine ⟨hqueued.frame rfl rfl rfl rfl, fun t' p => ?_, fun v => ?_, fun j p hp => ?_,
    fun j hj => ?_, fun t' p hp hp' => ?_, fun v hv => ?_, fun j a hj => ?_⟩
  · have hp := hat t' p
    have hm := hat t p
    cases p <;> simp only [State.At, State.grasp, hactive, hphase', hhand, hmem] at * <;> grind
  · have := h.live v
    simp only [State.grasp]
    grind
  · have := h.idle j p
    have := h.idle j (.queued a)
    grind
  · have := h.marked j
    simp only [State.grasp] at *
    grind
  · have := h.resting t' p
    have := h.resting t (.queued a)
    cases a <;> simp only [State.grasp] at * <;> grind [Place.Resting]
  · have := h.absent v
    simp only [State.grasp] at *
    grind
  · have := h.leaving j a
    have := h.caller_ne (j := j) (k := k)
    simp only [State.caller, State.grasp] at *
    grind [Phase.action]

theorem create (h : Inv s l place) (hfree : Free s k) (hlive : s.live u = false) :
    Inv (s.create k u) l
      (Function.update place (.user u) (some (.held (s.activeThreads k)))) := by
  have hat := h.at_iff
  have hcur := h.current
  have hnone : place (.user u) = none := by
    have := h.live u
    cases hp : place (.user u) <;> simp_all
  obtain ⟨hrun, hfree⟩ := hfree
  refine ⟨h.queued.frame rfl rfl rfl rfl, fun t' p => ?_, fun v => ?_, fun j p hp => ?_,
    fun j hj => ?_, fun t' p hp hp' => ?_, fun v hv => ?_, fun j a hj => ?_⟩
  · have hp := hat t' p
    have hm := hat (.user u) p
    cases p <;> simp only [State.At, State.create, State.grasp] at * <;> grind
  · have := h.live v
    simp only [State.create, State.grasp]
    grind
  · have := h.idle j p
    grind
  · have := h.marked j
    have := hcur j
    simp only [State.create, State.grasp] at *
    grind
  · have := h.resting t' p
    have := h.absent u
    have := hcur k
    simp only [State.create, State.grasp] at *
    grind [Place.Resting]
  · have := h.absent v
    have := hcur k
    simp only [State.create, State.grasp] at *
    grind
  · have := h.leaving j a
    have := h.caller_ne (j := j) (k := k)
    simp only [State.caller, State.create, State.grasp] at *
    grind [Phase.action]

theorem handOver (h : Inv s l place) {l' : Line X → List (Tcb K U)} (hsame : s.Same s')
    (hqueued : s'.Queued l') (hhand : s.hand (s.activeThreads k) = some (duty, t))
    (hmem : ∀ b v, v ∈ l' b ↔ v ∈ l b ∨ v = t ∧ b = .readyQ) :
    Inv (s'.release k) l' (Function.update place t (some (.queued .readyQ))) := by
  have hat := h.at_iff
  have ht := h.held hhand
  obtain ⟨hactive, hphase', hmark, hhand', hlive⟩ := hsame
  refine ⟨hqueued.frame rfl rfl rfl rfl, fun t' p => ?_, fun v => ?_, fun j p hp => ?_,
    fun j hj => ?_, fun t' p hp hp' => ?_, fun v hv => ?_, fun j a hj => ?_⟩
  · have hp := hat t' p
    have hm := hat t p
    cases p <;> simp only [State.At, State.release, hactive, hphase', hhand', hmem] at * <;> grind
  · have := h.live v
    simp only [State.release]
    grind
  · have := h.idle j p
    have := h.idle j (.held (s.activeThreads k))
    grind
  · have := h.marked j
    simp only [State.release] at *
    grind
  · have := h.resting t' p
    simp only [State.release] at *
    grind [Place.Resting]
  · have := h.absent v
    simp only [State.release] at *
    grind
  · have := h.leaving j a
    simp only [State.caller, State.release] at *
    grind

theorem delete (h : Inv s l place) (hhand : s.hand (s.activeThreads k) = some (duty, .user u)) :
    Inv (s.delete k (.user u)) l (Function.update place (.user u) none) := by
  have hat := h.at_iff
  have ht := h.held hhand
  refine ⟨h.queued.frame rfl rfl rfl rfl, fun t' p => ?_, fun v => ?_, fun j p hp => ?_,
    fun j hj => ?_, fun t' p hp hp' => ?_, fun v hv => ?_, fun j a hj => ?_⟩
  · have hp := hat t' p
    have hm := hat (.user u) p
    cases p <;> simp only [State.At, State.delete, State.release] at * <;> grind
  · have := h.live v
    simp only [State.delete, State.release]
    grind
  · have := h.idle j p
    grind
  · have := h.marked j
    simp only [State.delete, State.release] at *
    grind
  · have := h.resting t' p
    simp only [State.delete, State.release] at *
    grind
  · have := h.absent v
    have := h.resting (.user u) _ ht trivial
    simp only [State.delete, State.release] at *
    grind
  · have := h.leaving j a
    simp only [State.caller, State.delete, State.release] at *
    grind

variable [DecidableEq X]

omit [DecidableEq K] [DecidableEq U] in
theorem remove (h : Inv s l place) (hl : l a = t :: ts) :
    ((s.queue a).remove s.next).2 = some t ∧ place t = some (.queued a) ∧
      (∀ b v, v ∈ Function.update l a ts b ↔ v ∈ l b ∧ v ≠ t) ∧
      ∀ s' : State K U X, s'.next = s.next →
        s'.queue = Function.update s.queue a ((s.queue a).remove s.next).1 →
        s'.Queued (Function.update l a ts) := by
  have hholds : (s.queue a).Holds s.next (t :: ts) := hl ▸ h.queued a
  obtain ⟨hnext, hq⟩ := hholds.remove_cons
  have ht : place t = some (.queued a) := (h.at_iff t (.queued a)).mp (by simp [State.At, hl])
  have hts : t ∉ ts := (List.nodup_cons.mp hholds.nodup).1
  refine ⟨hnext, ht, fun b v => ?_, fun s' hnext hqueue b => ?_⟩
  · have := h.at_iff v (.queued b)
    simp only [State.At] at this
    by_cases hb : b = a
    · subst hb
      grind
    · grind
  · rw [hnext, hqueue]
    by_cases hb : b = a
    · subst hb
      simpa only [Function.update_self] using hq
    · simp only [Function.update_of_ne hb]
      exact h.queued b

theorem add (h : Inv s l place) (ht : ∀ a, t ∉ l a) (a : Line X) :
    ∃ q next, (s.queue a).add s.next t = some (q, next) ∧
      ∀ s' : State K U X, s'.next = next → s'.queue = Function.update s.queue a q →
        s'.Queued (Function.update l a (l a ++ [t])) := by
  obtain ⟨q, next, hadd, hq, hframe⟩ := (h.queued a).add (ht a)
  refine ⟨q, next, hadd, fun s' hnext hqueue b => ?_⟩
  rw [hnext, hqueue]
  by_cases hb : b = a
  · subst hb
    simpa only [Function.update_self] using hq
  simp only [Function.update_of_ne hb]
  refine (h.queued b).frame fun v hv => hframe v (fun hva => hb ?_) fun heq => ht b (heq ▸ hv)
  have hpa := (h.at_iff v (.queued a)).mp hva
  have hpb := (h.at_iff v (.queued b)).mp hv
  rw [hpa] at hpb
  injection Option.some.inj hpb with hab
  exact hab.symm

theorem take (h : Inv s l place) (hphase : s.phase k = .blocking option action) :
    ∃ l' place', Inv (s.take k option action) l' place' := by
  cases hl : l .readyQ with
  | cons t ts =>
    obtain ⟨hnext, ht, hmem, hqueued⟩ := h.remove hl
    have htake : s.take k option action = { { s with readyQ := (s.readyQ.remove s.next).1 } with
        phase := Function.update s.phase k (.taken t action) } := by
      simp only [State.queue] at hnext
      simp only [State.take, hnext]
    rw [htake]
    refine ⟨_, _, h.choose { s with readyQ := (s.readyQ.remove s.next).1 }
      ⟨rfl, rfl, rfl, rfl, rfl⟩ (hqueued _ rfl ?_) hphase hmem (.inl ht)⟩
    funext a
    cases a <;> simp [State.queue]
  | nil =>
    have hremove := (hl ▸ h.queued .readyQ).remove_nil
    simp only [State.queue] at hremove
    cases option with
    | canReturn =>
      simp only [State.take, hremove]
      exact ⟨l, place, h.goto hphase rfl rfl nofun nofun⟩
    | mustBlock =>
      cases hidle : (s.activeThreads k).isIdle with
      | true =>
        simp only [State.take, hremove, hidle, if_true]
        exact ⟨l, place, h.goto hphase rfl rfl id fun a ha => ha⟩
      | false =>
        have hnone : place (.idle k) = none := by
          have hidle' := h.idle k
          have hat := h.at_iff (.idle k)
          cases hp : place (.idle k) with
          | none => rfl
          | some p =>
            have hp' := (hat p).mpr hp
            rcases hidle' p hp with rfl | rfl | rfl <;>
              simp_all [State.At, Phase.left, Phase.chosen, Tcb.isIdle]
        simp only [State.take, hremove, hidle, Bool.false_eq_true, if_false]
        have hnot : ∀ a, Tcb.idle k ∉ l a := fun a hm => by
          have := (h.at_iff (.idle k) (.queued a)).mp hm
          rw [hnone] at this
          cases this
        exact ⟨l, _, h.choose s ⟨rfl, rfl, rfl, rfl, rfl⟩ h.queued hphase
          (fun a v => ⟨fun hv => ⟨hv, fun heq => hnot a (heq ▸ hv)⟩, And.left⟩) (.inr ⟨hnone, rfl⟩)⟩

theorem schedule (h : Inv s l place) (ht : ∀ a, t ∉ l a) (huser : t.isIdle = false) :
    ∃ s', s.schedule t = some s' ∧ s.Same s' ∧
      s'.Queued (Function.update l .readyQ (l .readyQ ++ [t])) := by
  obtain ⟨q, next, hadd, hqueued⟩ := h.add ht .readyQ
  simp only [State.queue] at hadd
  refine ⟨{ s with readyQ := q, next }, by simp [State.schedule, huser, hadd],
    ⟨rfl, rfl, rfl, rfl, rfl⟩, hqueued _ rfl ?_⟩
  funext a
  cases a <;> simp [State.queue]

def line : Action X → Line X
  | .schedule => .readyQ
  | .zombie => .zombies
  | .wait x => .waiting x

theorem runAction (h : Inv s l place) (ht : ∀ a, t ∉ l a) (huser : t.isIdle = false)
    (action : Action X) :
    ∃ s', s.runAction t action = some s' ∧ s.Same s' ∧
      s'.Queued (Function.update l (line action) (l (line action) ++ [t])) := by
  cases action with
  | schedule => exact h.schedule ht huser
  | zombie =>
    obtain ⟨q, next, hadd, hqueued⟩ := h.add ht .zombies
    simp only [State.queue] at hadd
    refine ⟨{ s with zombies := q, next }, by simp [State.runAction, huser, hadd],
      ⟨rfl, rfl, rfl, rfl, rfl⟩, hqueued _ rfl ?_⟩
    funext a
    cases a <;> simp [State.queue]
  | wait x =>
    obtain ⟨q, next, hadd, hqueued⟩ := h.add ht (.waiting x)
    simp only [State.queue] at hadd
    refine ⟨{ s with
        next
        waiting := Function.update s.waiting x q
        locked := Function.update s.locked x false }, by simp [State.runAction, huser, hadd],
      ⟨rfl, rfl, rfl, rfl, rfl⟩, hqueued _ rfl (State.queue_waiting rfl rfl rfl)⟩

omit [DecidableEq K] [DecidableEq U] in
theorem mem_snoc {a b : Line X} {v : Tcb K U} :
    v ∈ Function.update l a (l a ++ [t]) b ↔ v ∈ l b ∨ v = t ∧ b = a := by
  by_cases hb : b = a
  · subst hb
    simp
  · simp [hb]

theorem finish (h : Inv s l place) (hphase : s.phase k = .switched me action)
    (haction : s.runAction me action = some s') : ∃ l' place', Inv (s'.finish k) l' place' := by
  cases hidle : me.isIdle with
  | true =>
    have hsame : s' = s := by
      cases action <;> simp [State.runAction, State.schedule, hidle] at haction <;> exact haction.symm
    exact ⟨l, _, hsame ▸ h.park hphase hidle⟩
  | false =>
    have hme : place me = some (.pending k) := h.pending (by rw [hphase, Phase.left])
    obtain ⟨s₁, hrun, hsame, hqueued⟩ := h.runAction (h.not_mem hme nofun) hidle action
    obtain rfl : s₁ = s' := Option.some.inj (hrun.symm.trans haction)
    refine ⟨_, _, h.publish hsame hqueued hphase hidle (fun b v => mem_snoc) fun hrest => ?_⟩
    have hleave := h.leaving k action (by rw [hphase, Phase.action])
    simp only [State.caller, hphase, Phase.left, Option.getD_some] at hleave
    refine hleave.resolve_left ?_
    rintro rfl
    exact hrest

theorem up (h : Inv s l place) (hfree : Free s k) (x : X) : ∃ l' place', Inv (s.up k x) l' place' := by
  cases hl : l (.waiting x) with
  | cons t ts =>
    obtain ⟨hnext, ht, hmem, hqueued⟩ := h.remove hl
    simp only [State.queue] at hnext
    simp only [State.up, hnext]
    exact ⟨_, _, h.hold ⟨rfl, rfl, rfl, rfl, rfl⟩ (hqueued _ rfl (State.queue_waiting rfl rfl rfl))
      hfree ht nofun hmem⟩
  | nil =>
    have hremove := (hl ▸ h.queued (.waiting x)).remove_nil
    simp only [State.queue] at hremove
    refine ⟨l, place, ?_⟩
    simp only [State.up, hremove, Function.update_eq_self]
    exact ⟨h.queued.frame rfl rfl rfl rfl, h.at_iff, h.live, h.idle, h.marked, h.resting, h.absent,
      h.leaving⟩

theorem reap (h : Inv s l place) (hfree : Free s k) : ∃ l' place', Inv (s.reap k) l' place' := by
  cases hl : l .zombies with
  | cons t ts =>
    obtain ⟨hnext, ht, hmem, hqueued⟩ := h.remove hl
    simp only [State.queue] at hnext
    simp only [State.reap, hnext]
    refine ⟨_, _, h.hold ⟨rfl, rfl, rfl, rfl, rfl⟩ (hqueued _ rfl ?_) hfree ht nofun hmem⟩
    funext a
    cases a <;> simp [State.queue]
  | nil =>
    have hremove := (hl ▸ h.queued .zombies).remove_nil
    simp only [State.queue] at hremove
    simp only [State.reap, hremove]
    exact ⟨l, place, h⟩

theorem down (h : Inv s l place) (hfree : Free s k) (x : X) : Inv (s.down k x) l place := by
  unfold State.down
  split
  · exact ⟨h.queued.frame rfl rfl rfl rfl, h.at_iff, h.live, h.idle, h.marked, h.resting, h.absent,
      h.leaving⟩
  · have hlock : Inv { s with locked := Function.update s.locked x true } l place :=
      ⟨h.queued.frame rfl rfl rfl rfl, h.at_iff, h.live, h.idle, h.marked, h.resting, h.absent,
        h.leaving⟩
    exact hlock.block hfree.phase (.inr hfree.hand)

omit [DecidableEq X] in
theorem timer (h : Inv s l place) (hphase : ∀ me action, s.phase k ≠ .switched me action) :
    Inv (s.apitHandler k) l place := by
  unfold State.apitHandler
  split
  · exact h
  · rename_i hskip
    simp only [Bool.or_eq_true, not_or, Bool.not_eq_true] at hskip
    have hmarked := h.marked k
    refine h.block ?_ (.inl rfl)
    cases hp : s.phase k with
    | running => rfl
    | switched me action => exact absurd hp (hphase me action)
    | _ => simp [hp, Phase.Open, hskip.2] at hmarked

theorem step {e : Event K U X} (h : Inv s l place) (hst : Step s e s') :
    ∃ l' place', Inv s' l' place' := by
  cases hst with
  | yield hfree => exact ⟨l, place, h.block hfree.phase (.inl rfl)⟩
  | stop hfree => exact ⟨l, place, h.block hfree.phase (.inr hfree.hand)⟩
  | timer hphase => exact ⟨l, place, h.timer hphase⟩
  | take hphase => exact h.take hphase
  | install hphase => exact ⟨l, _, h.install hphase⟩
  | contextSwitch hphase => exact ⟨l, place, h.contextSwitch hphase⟩
  | finish hphase haction => exact h.finish hphase haction
  | down hfree hlocked => exact ⟨l, place, h.down hfree _⟩
  | up hfree hlocked => exact h.up hfree _
  | create hfree hlive => exact ⟨l, _, h.create hfree hlive⟩
  | reap hfree => exact h.reap hfree
  | schedule hphase hhand hcall =>
    obtain ⟨s₁, hs₁, hsame, hqueued⟩ := h.schedule (h.not_mem (h.held hhand) nofun) (h.held_user hhand)
    obtain rfl := Option.some.inj (hs₁.symm.trans hcall)
    exact ⟨_, _, h.handOver hsame hqueued hhand fun b v => mem_snoc⟩
  | @delete k tcb hphase hhand =>
    have huser := h.held_user hhand
    cases tcb with
    | user u => exact ⟨l, _, h.delete hhand⟩
    | idle j => cases huser

end Inv

variable {s : State K U X} {l : Line X → List (Tcb K U)} {es : List (Event K U X)}

theorem inv_of_init (h : Init s) : Inv s (fun _ => [])
    fun | .idle k => some (.current k) | .user _ => none := by
  obtain ⟨hactive, hphase, hready, hzombies, hwaiting, hlocked, hhand, hlive⟩ := h
  refine ⟨fun a => ?_, fun t p => ?_, fun u => ?_, fun k p hp => ?_, fun k hk => ?_,
    fun t p hp hrest => hhand t, fun u hu => hhand _, fun k action hk => ?_⟩
  · cases a with
    | readyQ =>
      rw [State.queue, hready]
      exact .empty s.next
    | zombies =>
      rw [State.queue, hzombies]
      exact .empty s.next
    | waiting x =>
      rw [State.queue, hwaiting x]
      exact .empty s.next
  · cases p <;> cases t <;> simp [State.At, hactive, hphase, hhand, Phase.left, Phase.chosen, eq_comm]
  · simp [hlive]
  · exact .inl (Option.some.inj hp).symm
  · simp [hphase, Phase.Open] at hk
  · simp [hphase, Phase.action] at hk

section Runs

variable [DecidableEq K] [DecidableEq U] [DecidableEq X]

theorem inv_of_trace (h : Trace Init Step es s) : ∃ l place, Inv s l place :=
  h.invariant (I := fun _ s => ∃ l place, Inv s l place)
    (fun _ hs => ⟨_, _, inv_of_init hs⟩) fun _ _ _ _ ⟨_, _, hinv⟩ hst => hinv.step hst

/-- A thread that exists is in one place, with the queues holding `l`; an idle thread is in no
queue, and on no core but its own. A thread that has another one in hand goes on to run. -/
structure Placed (s : State K U X) (l : Line X → List (Tcb K U)) : Prop where
  queued : s.Queued l
  placed : ∀ u, s.live u = true → ∃! p, s.At l (.user u) p
  deleted : ∀ u, s.live u = false → ∀ p, ¬ s.At l (.user u) p
  idle : ∀ k p, s.At l (.idle k) p → p = .current k ∨ p = .pending k ∨ p = .chosen k
  holders : ∀ u, s.hand (.user u) ≠ none → ∃ p, s.At l (.user u) p ∧ ¬ p.Resting
  /-- no assertion of an action fails, and no action writes through a null `last` -/
  finishes : ∀ k me action, s.phase k = .switched me action →
    (∀ x, action = .wait x → me.isIdle = false) → ∃ s', s.runAction me action = some s'
  schedules : ∀ t tcb, s.hand t = some (.schedule, tcb) → ∃ s', s.schedule tcb = some s'

theorem trace_placed (h : Trace Init Step es s) : ∃ l, Placed s l := by
  obtain ⟨l, place, hinv⟩ := inv_of_trace h
  refine ⟨l, hinv.queued, fun u hu => ?_, fun u hu p hp => ?_, fun k p hp => ?_,
    fun u hhand => ?_, fun k me action hphase hidle => ?_, fun t tcb hhand => ?_⟩
  · obtain ⟨p, hp⟩ := (hinv.live u).mp hu
    refine ⟨p, (hinv.at_iff _ p).mpr hp, fun p' hp' => ?_⟩
    exact Option.some.inj (((hinv.at_iff _ p').mp hp').symm.trans hp)
  · have := (hinv.live u).mpr ⟨p, (hinv.at_iff _ p).mp hp⟩
    rw [hu] at this
    cases this
  · exact hinv.idle k p ((hinv.at_iff _ p).mp hp)
  · cases hp : place (.user u) with
    | none => exact absurd (hinv.absent u hp) hhand
    | some p =>
      exact ⟨p, (hinv.at_iff _ p).mpr hp, fun hrest => hhand (hinv.resting _ p hp hrest)⟩
  · cases hme : me.isIdle with
    | true =>
      cases action with
      | schedule => exact ⟨s, by simp [State.runAction, State.schedule, hme]⟩
      | zombie => exact ⟨s, by simp [State.runAction, hme]⟩
      | wait x => simp [hme] at hidle
    | false =>
      have hplace := hinv.pending (k := k) (by rw [hphase, Phase.left])
      obtain ⟨s', hs', -⟩ := hinv.runAction (hinv.not_mem hplace nofun) hme action
      exact ⟨s', hs'⟩
  · obtain ⟨s', hs', -⟩ :=
      hinv.schedule (hinv.not_mem (hinv.held hhand) nofun) (hinv.held_user hhand)
    exact ⟨s', hs'⟩

end Runs

def oneCore : State Unit Unit Unit :=
  ⟨fun k => .idle k, fun _ => .running, {}, {}, fun _ => {}, fun _ => none, fun _ => true, fun _ => 0,
    fun _ => false, fun _ => none, fun _ => false⟩

theorem oneCore_init : Init oneCore :=
  ⟨fun _ => rfl, fun _ => rfl, rfl, rfl, fun _ => rfl, fun _ => rfl, fun _ => rfl, fun _ => rfl⟩

/-- One core, one thread, which goes to sleep in a semaphore; the idle thread calls `up`. -/
def wakeUp : List (Event Unit Unit Unit) :=
  [.create () (), .schedule (), .yield (), .take (), .install (), .contextSwitch (), .finish (),
    .down () (), .take (), .install (), .contextSwitch (), .finish (), .up () ()]

theorem wakeUp_trace : ∃ s, Trace Init Step wakeUp s ∧ s.live () = true ∧
    s.activeThreads () = .idle () ∧ (s.phase ()).left = none ∧
    ∀ a, (s.queue a).first = none := by
  have h0 : Trace Init Step [] oneCore := .start oneCore_init
  have h1 := h0.step (.create (u := ()) (k := ()) ⟨rfl, rfl⟩ rfl)
  have h2 := h1.step (.schedule (k := ()) rfl rfl rfl)
  have h3 := h2.step (.yield (k := ()) ⟨rfl, rfl⟩)
  have h4 := h3.step (.take (k := ()) rfl)
  have h5 := h4.step (.install (k := ()) rfl)
  have h6 := h5.step (.contextSwitch (k := ()) rfl)
  have h7 := h6.step (.finish (k := ()) rfl rfl)
  have h8 := h7.step (.down (k := ()) (x := ()) ⟨rfl, rfl⟩ rfl)
  have h9 := h8.step (.take (k := ()) rfl)
  have h10 := h9.step (.install (k := ()) rfl)
  have h11 := h10.step (.contextSwitch (k := ()) rfl)
  have h12 := h11.step (.finish (k := ()) rfl rfl)
  have h13 := h12.step (.up (k := ()) (x := ()) ⟨rfl, rfl⟩ rfl)
  refine ⟨_, h13, rfl, rfl, rfl, fun a => ?_⟩
  cases a <;> rfl

theorem wakeUp_placed : ∃ s l, Trace Init Step wakeUp s ∧ Placed s l := by
  obtain ⟨s, h, -⟩ := wakeUp_trace
  obtain ⟨l, hl⟩ := trace_placed h
  exact ⟨s, l, h, hl⟩

/-- The thread that `up` has removed and not yet scheduled is nowhere but in its hands. -/
theorem wakeUp_in_hand : ¬ ∀ es (s : State Unit Unit Unit), Trace Init Step es s →
    ∃ l, s.Queued l ∧ ∀ u, s.live u = true →
      (∃! k, s.At l (.user u) (.current k)) ∨ (∃! k, s.At l (.user u) (.pending k)) ∨
        ∃! a, s.At l (.user u) (.queued a) := by
  intro hall
  obtain ⟨s, h, hlive, hactive, hleft, hempty⟩ := wakeUp_trace
  obtain ⟨l, hqueued, hone⟩ := hall _ s h
  rcases hone () hlive with ⟨k, hk, -⟩ | ⟨k, hk, -⟩ | ⟨a, ha, -⟩
  · simp [State.At, hactive] at hk
  · simp [State.At, hleft] at hk
  · have hl : l a = [] := (hqueued a).first_eq_none.mp (hempty a)
    simp [State.At, hl] at ha

end OsShell.Scheduler
