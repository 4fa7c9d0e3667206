import OsShell.Library.Runs

/-!
# The reusable barrier

Any number of threads call `sync` of one barrier, each as often as it likes. A
step is a section between `the_lock->lock()` and `the_lock->unlock()`, as long
as `sync`, `wait` and the action that `wait` gives to `block` keep the lock. Both
epochs have 64 bits. A failed assertion ends the run: there is no step.

The code keeps no `round`: it is the epoch of the barrier as it would be without
wrapping, and `roundOf` and `entered` say in which round a thread called `sync`
and how many calls each round has seen. Left out: interrupts, and how a core
spins for the lock.
-/

namespace OsShell.Barrier

open Runs
open Relation (ReflTransGen)

abbrev Tcb := Fin (2 ^ 32)

/-- Where a thread is; `t` is the local of `sync`. -/
inductive Pc
  | outside
  /-- `wait` has given the lock back, the action has not run -/
  | blocking (t oldEpoch : ℕ)
  | queued (t : ℕ)
  /-- scheduled: `wait` is to take the lock again -/
  | woken (t : ℕ)
  /-- past the loop -/
  | leaving
deriving DecidableEq

namespace Pc

def t : Pc → Option ℕ
  | .blocking t _ => some t
  | .queued t => some t
  | .woken t => some t
  | _ => none

/-- `schedule(next)` -/
def wake : Pc → Pc
  | .queued t => .woken t
  | p => p

end Pc

structure Condition where
  epoch : ℕ
  queue : List Tcb

/-- The loop of `notify`: the new state and the threads it schedules. -/
def Condition.notify (c : Condition) (limit : ℕ) : Condition × List Tcb :=
  (⟨(c.epoch + 1) % 2 ^ 64, c.queue.drop limit⟩, c.queue.take limit)

def Condition.notifyAll (c : Condition) : Condition × List Tcb :=
  c.notify (2 ^ 64 - 1)

structure State where
  newEpoch : Condition
  count : ℕ
  epoch : ℕ
  pc : Tcb → Pc
  round : ℕ
  roundOf : Tcb → ℕ
  entered : ℕ → ℕ

namespace State

def goto (s : State) (c : Tcb) (p : Pc) : State := { s with pc := Function.update s.pc c p }

@[simp] theorem goto_self (s : State) (c : Tcb) (p : Pc) : (s.goto c p).pc c = p :=
  Function.update_self ..

theorem goto_other {s : State} {c d : Tcb} {p : Pc} (h : d ≠ c) : (s.goto c p).pc d = s.pc d :=
  Function.update_of_ne h _ _

/-- `epoch ++; count = initial_count; newEpoch.notifyAll()` -/
def nextEpoch (s : State) (initialCount : ℕ) : State :=
  { s with
    epoch := (s.epoch + 1) % 2 ^ 64
    count := initialCount
    newEpoch := s.newEpoch.notifyAll.1
    pc := fun c => if c ∈ s.newEpoch.notifyAll.2 then (s.pc c).wake else s.pc c
    round := s.round + 1 }

/-- The test of the loop, and `wait` up to where it gives the lock back. -/
def loop (s : State) (c : Tcb) (t : ℕ) : State :=
  s.goto c (if s.epoch ≤ t then .blocking t s.newEpoch.epoch else .leaving)

/-- `count --`, and the call is counted. -/
def enter (s : State) (c : Tcb) : State :=
  { s with
    count := s.count - 1
    roundOf := Function.update s.roundOf c s.round
    entered := Function.update s.entered s.round (s.entered s.round + 1) }

/-- `sync` up to where it gives the lock back. -/
def sync (initialCount : ℕ) (s : State) (c : Tcb) : State :=
  let t := s.epoch
  let s := s.enter c
  if s.count = 0 then (s.nextEpoch initialCount).goto c .leaving else s.loop c t

/-- The action that `wait` gives to `block`. -/
def action (s : State) (c : Tcb) (t oldEpoch : ℕ) : State :=
  if s.newEpoch.epoch = oldEpoch then
    { s with newEpoch := { s.newEpoch with queue := s.newEpoch.queue ++ [c] } }.goto c (.queued t)
  else s.goto c (.woken t)

end State

inductive Init (initialCount : ℕ) : State → Prop
  | start (roundOf : Tcb → ℕ) :
      Init initialCount ⟨⟨0, []⟩, initialCount, 0, fun _ => .outside, 0, roundOf, fun _ => 0⟩

inductive Step (initialCount : ℕ) : State → State → Prop
  | sync {s : State} (c : Tcb) (hpc : s.pc c = .outside) (hcount : s.count ≠ 0) :
      Step initialCount s (s.sync initialCount c)
  | action {s : State} (c : Tcb) (t oldEpoch : ℕ) (hpc : s.pc c = .blocking t oldEpoch)
      (hepoch : s.newEpoch.epoch = oldEpoch ∨ oldEpoch < s.newEpoch.epoch) :
      Step initialCount s (s.action c t oldEpoch)
  | again {s : State} (c : Tcb) (t : ℕ) (hpc : s.pc c = .woken t) :
      Step initialCount s (s.loop c t)
  | leave {s : State} (c : Tcb) (hpc : s.pc c = .leaving) :
      Step initialCount s (s.goto c .outside)

def Settled (s : State) (c : Tcb) : Pc → Prop
  | .outside => True
  | .blocking t oldEpoch => s.roundOf c ≤ s.round ∧ t = s.roundOf c % 2 ^ 64 ∧ oldEpoch ≤ t
  | .queued t => s.roundOf c ≤ s.round ∧ t = s.roundOf c % 2 ^ 64 ∧ s.epoch ≤ t
  | .woken t => s.roundOf c ≤ s.round ∧ t = s.roundOf c % 2 ^ 64
  | .leaving => s.roundOf c < s.round

structure Inv (initialCount : ℕ) (s : State) : Prop where
  epoch : s.epoch = s.round % 2 ^ 64
  newEpoch : s.newEpoch.epoch = s.epoch
  count : s.entered s.round + s.count = initialCount
  past : ∀ r, r < s.round → s.entered r = initialCount
  future : ∀ r, s.round < r → s.entered r = 0
  settled : ∀ c, Settled s c (s.pc c)
  queued : ∀ c, c ∈ s.newEpoch.queue ↔ ∃ t, s.pc c = .queued t
  nodup : s.newEpoch.queue.Nodup

variable {initialCount : ℕ} {s t : State}

theorem Settled.frame {c : Tcb} {p : Pc} (h : Settled s c p) (hepoch : t.epoch = s.epoch)
    (hround : t.round = s.round) (hroundOf : t.roundOf c = s.roundOf c) : Settled t c p := by
  cases p with
  | outside => trivial
  | _ => simpa only [Settled, hepoch, hround, hroundOf] using h

theorem inv_of_init (h : Init initialCount s) : Inv initialCount s := by
  obtain ⟨roundOf⟩ := h
  exact {
    epoch := rfl
    newEpoch := rfl
    count := Nat.zero_add _
    past := fun r hr => absurd hr (Nat.not_lt_zero r)
    future := fun _ _ => rfl
    settled := fun _ => trivial
    queued := fun c => ⟨fun hc => absurd hc List.not_mem_nil, fun ⟨t, ht⟩ => nomatch ht⟩
    nodup := List.nodup_nil }

namespace Inv

theorem notifyAll_eq (I : Inv initialCount s) :
    s.newEpoch.notifyAll = (⟨(s.newEpoch.epoch + 1) % 2 ^ 64, []⟩, s.newEpoch.queue) := by
  have hlen : s.newEpoch.queue.length ≤ 2 ^ 64 - 1 := by
    have h := I.nodup.length_le_card
    rw [Fintype.card_fin] at h
    omega
  unfold Condition.notifyAll Condition.notify
  rw [List.drop_eq_nil_of_le hlen, List.take_of_length_le hlen]

theorem not_queued (I : Inv initialCount s) {c : Tcb} (hc : ∀ t, s.pc c ≠ .queued t) :
    c ∉ s.newEpoch.queue := by
  intro h
  obtain ⟨t, ht⟩ := (I.queued c).mp h
  exact hc t ht

theorem goto (I : Inv initialCount s) {c : Tcb} {p : Pc} (hc : ∀ t, s.pc c ≠ .queued t)
    (hp : ∀ t, p ≠ .queued t) (hset : Settled s c p) : Inv initialCount (s.goto c p) where
  epoch := I.epoch
  newEpoch := I.newEpoch
  count := I.count
  past := I.past
  future := I.future
  settled d := by
    by_cases hd : d = c
    · rw [hd, State.goto_self]
      exact hset.frame rfl rfl rfl
    · rw [State.goto_other hd]
      exact (I.settled d).frame rfl rfl rfl
  queued d := by
    by_cases hd : d = c
    · rw [hd]
      rw [State.goto_self]
      exact ⟨fun h => absurd h (I.not_queued hc), fun ⟨t, ht⟩ => absurd ht (hp t)⟩
    · rw [State.goto_other hd]
      exact I.queued d
  nodup := I.nodup

theorem enqueue (I : Inv initialCount s) {c : Tcb} {t : ℕ} (hc : ∀ t, s.pc c ≠ .queued t)
    (hset : Settled s c (.queued t)) : Inv initialCount
      ({ s with newEpoch := { s.newEpoch with queue := s.newEpoch.queue ++ [c] } }.goto c
        (.queued t)) where
  epoch := I.epoch
  newEpoch := I.newEpoch
  count := I.count
  past := I.past
  future := I.future
  settled d := by
    by_cases hd : d = c
    · rw [hd, State.goto_self]
      exact hset.frame rfl rfl rfl
    · rw [State.goto_other hd]
      exact (I.settled d).frame rfl rfl rfl
  queued d := by
    by_cases hd : d = c
    · rw [hd]
      simp [State.goto]
    · simpa [State.goto, Function.update_of_ne hd, hd] using I.queued d
  nodup := by
    refine List.nodup_append.mpr ⟨I.nodup, List.nodup_singleton c, fun d hd e he => ?_⟩
    rw [List.mem_singleton.mp he]
    exact fun h => I.not_queued hc (h ▸ hd)

theorem enter (I : Inv initialCount s) {c : Tcb} (hpc : s.pc c = .outside) (hcount : s.count ≠ 0) :
    Inv initialCount (s.enter c) where
  epoch := I.epoch
  newEpoch := I.newEpoch
  count := by
    have := I.count
    simp only [State.enter, Function.update_self]
    omega
  past r hr := by
    have hr : r < s.round := hr
    simpa only [State.enter, Function.update_of_ne (Nat.ne_of_lt hr)] using I.past r hr
  future r hr := by
    have hr : s.round < r := hr
    simpa only [State.enter, Function.update_of_ne (Nat.ne_of_gt hr)] using I.future r hr
  settled d := by
    by_cases hd : d = c
    · rw [hd, show (s.enter c).pc c = .outside from hpc]
      trivial
    · exact (I.settled d).frame rfl rfl (Function.update_of_ne hd _ _)
  queued := I.queued
  nodup := I.nodup

theorem nextEpoch (I : Inv initialCount s) (hcount : s.count = 0) :
    Inv initialCount (s.nextEpoch initialCount) := by
  have hpc : ∀ c, (s.nextEpoch initialCount).pc c =
      if c ∈ s.newEpoch.queue then (s.pc c).wake else s.pc c := by
    intro c
    simp only [State.nextEpoch, I.notifyAll_eq]
  have hwoken : ∀ c, c ∈ s.newEpoch.queue → ∃ t, s.pc c = .queued t ∧
      (s.nextEpoch initialCount).pc c = .woken t := by
    intro c hc
    obtain ⟨t, ht⟩ := (I.queued c).mp hc
    exact ⟨t, ht, by rw [hpc, if_pos hc, ht]; rfl⟩
  have hqueue : (s.nextEpoch initialCount).newEpoch.queue = [] := by
    simp only [State.nextEpoch, I.notifyAll_eq]
  have hround := I.count
  exact {
    epoch := by
      have := I.epoch
      simp only [State.nextEpoch]
      omega
    newEpoch := by
      simp only [State.nextEpoch, I.notifyAll_eq, I.newEpoch]
    count := by
      have := I.future (s.round + 1) (Nat.lt_succ_self _)
      simp only [State.nextEpoch]
      omega
    past := by
      intro r hr
      have hr : r < s.round + 1 := hr
      by_cases h : r = s.round
      · rw [h]
        simp only [State.nextEpoch]
        omega
      · exact I.past r (by omega)
    future := fun r (hr : s.round + 1 < r) => I.future r (by omega)
    settled := by
      intro c
      have hold := I.settled c
      by_cases hc : c ∈ s.newEpoch.queue
      · obtain ⟨t, ht, hw⟩ := hwoken c hc
        rw [ht] at hold
        rw [hw]
        exact ⟨hold.1.trans (Nat.le_succ _), hold.2.1⟩
      · rw [hpc, if_neg hc]
        cases hp : s.pc c with
        | outside => trivial
        | blocking t oldEpoch =>
          rw [hp] at hold
          exact ⟨hold.1.trans (Nat.le_succ _), hold.2⟩
        | queued t => exact absurd ((I.queued c).mpr ⟨t, hp⟩) hc
        | woken t =>
          rw [hp] at hold
          exact ⟨hold.1.trans (Nat.le_succ _), hold.2⟩
        | leaving =>
          rw [hp] at hold
          exact Nat.lt_succ_of_lt hold
    queued := by
      intro c
      rw [hqueue]
      refine ⟨fun h => absurd h List.not_mem_nil, fun ⟨t, ht⟩ => ?_⟩
      by_cases hc : c ∈ s.newEpoch.queue
      · obtain ⟨u, -, hw⟩ := hwoken c hc
        rw [hw] at ht
        nomatch ht
      · rw [hpc, if_neg hc] at ht
        exact absurd ((I.queued c).mpr ⟨t, ht⟩) hc
    nodup := by
      rw [hqueue]
      exact List.nodup_nil }

theorem loop (I : Inv initialCount s) {c : Tcb} {t : ℕ} (hc : ∀ t, s.pc c ≠ .queued t)
    (hround : s.roundOf c ≤ s.round) (ht : t = s.roundOf c % 2 ^ 64) :
    Inv initialCount (s.loop c t) := by
  have hepoch := I.epoch
  unfold State.loop
  split
  · refine I.goto hc (fun _ => nofun) ⟨hround, ht, ?_⟩
    rwa [I.newEpoch]
  · refine I.goto hc (fun _ => nofun) ?_
    have hne : s.roundOf c ≠ s.round := by
      intro h
      rw [h] at ht
      omega
    exact lt_of_le_of_ne hround hne

end Inv

def Sound (initialCount : ℕ) (s : State) : Prop :=
  Inv initialCount s ∧ 0 < s.count

theorem Sound.sync (hpos : 1 ≤ initialCount) (h : Sound initialCount s) {c : Tcb}
    (hpc : s.pc c = .outside) : Sound initialCount (s.sync initialCount c) := by
  obtain ⟨I, hcount⟩ := h
  have I' := I.enter hpc (Nat.pos_iff_ne_zero.mp hcount)
  have hne : ∀ t, (s.enter c).pc c ≠ .queued t := by
    intro t ht
    rw [show (s.enter c).pc c = .outside from hpc] at ht
    nomatch ht
  simp only [State.sync]
  split
  · rename_i hzero
    have I'' := I'.nextEpoch hzero
    have hout : ∀ t, ((s.enter c).nextEpoch initialCount).pc c ≠ .queued t := by
      intro t ht
      simp only [State.nextEpoch, I'.notifyAll_eq, if_neg (I'.not_queued hne)] at ht
      exact hne t ht
    refine ⟨I''.goto hout (fun _ => nofun) ?_, hpos⟩
    simp [Settled, State.nextEpoch, State.enter]
  · rename_i hzero
    have hself : (s.enter c).roundOf c = s.round := Function.update_self ..
    refine ⟨I'.loop hne hself.le ?_, Nat.pos_of_ne_zero hzero⟩
    rw [hself]
    exact I.epoch

theorem Sound.step (hpos : 1 ≤ initialCount) (h : Sound initialCount s)
    (hstep : Step initialCount s t) : Sound initialCount t := by
  cases hstep with
  | sync c hpc hcount => exact h.sync hpos hpc
  | action c t oldEpoch hpc hepoch =>
    obtain ⟨I, hcount⟩ := h
    have hold := I.settled c
    rw [hpc] at hold
    have hne : ∀ t, s.pc c ≠ .queued t := fun t ht => by rw [hpc] at ht; nomatch ht
    unfold State.action
    split
    · rename_i heq
      refine ⟨I.enqueue hne ⟨hold.1, hold.2.1, ?_⟩, hcount⟩
      rw [← I.newEpoch, heq]
      exact hold.2.2
    · exact ⟨I.goto hne (fun _ => nofun) ⟨hold.1, hold.2.1⟩, hcount⟩
  | again c t hpc =>
    obtain ⟨I, hcount⟩ := h
    have hold := I.settled c
    rw [hpc] at hold
    exact ⟨I.loop (fun t ht => by rw [hpc] at ht; nomatch ht) hold.1 hold.2, hcount⟩
  | leave c hpc =>
    obtain ⟨I, hcount⟩ := h
    exact ⟨I.goto (fun t ht => by rw [hpc] at ht; nomatch ht) (fun _ => nofun) trivial, hcount⟩

theorem reachable_sound (hpos : 1 ≤ initialCount)
    (h : Reachable (Init initialCount) (Step initialCount) s) : Sound initialCount s :=
  h.invariant (I := Sound initialCount)
    (fun s hs => ⟨inv_of_init hs, by obtain ⟨_⟩ := hs; exact hpos⟩)
    fun s t hs hst => hs.step hpos hst

theorem Sound.leaves (h : Sound initialCount s) {c : Tcb} {t₀ : ℕ} (ht : (s.pc c).t = some t₀)
    (hover : t₀ < s.epoch) :
    ∃ u, ReflTransGen (Step initialCount) s u ∧ u.pc c = .leaving := by
  have hloop : ∀ s : State, s.pc c = .woken t₀ → t₀ < s.epoch →
      ∃ u, ReflTransGen (Step initialCount) s u ∧ u.pc c = .leaving := by
    intro s hpc hover
    refine ⟨s.loop c t₀, .single (.again c t₀ hpc), ?_⟩
    rw [State.loop, if_neg (by omega), State.goto_self]
  obtain ⟨I, -⟩ := h
  have hold := I.settled c
  cases hp : s.pc c with
  | outside => rw [hp] at ht; nomatch ht
  | leaving => rw [hp] at ht; nomatch ht
  | queued t =>
    -- the queue holds only threads of the current epoch
    rw [hp] at ht hold
    obtain rfl : t = t₀ := Option.some.inj ht
    exact absurd hold.2.2 (by omega)
  | woken t =>
    rw [hp] at ht
    obtain rfl : t = t₀ := Option.some.inj ht
    exact hloop s hp hover
  | blocking t oldEpoch =>
    rw [hp] at ht hold
    obtain rfl : t = t₀ := Option.some.inj ht
    have hlt : oldEpoch < s.newEpoch.epoch := by
      rw [I.newEpoch]
      exact lt_of_le_of_lt hold.2.2 hover
    obtain ⟨u, hsteps, hu⟩ := hloop (s.action c t oldEpoch)
      (by rw [State.action, if_neg (by omega), State.goto_self])
      (by rw [State.action, if_neg (by omega)]; exact hover)
    exact ⟨u, .head (.action c t oldEpoch hp (Or.inr hlt)) hsteps, hu⟩

/-- A call returns after all calls of its round and no other have come in, the counter is not
zero for the next one, and nobody whose epoch is over sits in the queue or is kept in the loop. -/
structure Correct (initialCount : ℕ) (s : State) : Prop where
  epoch : s.epoch = s.round % 2 ^ 64
  locals : ∀ c t, (s.pc c).t = some t → t = s.roundOf c % 2 ^ 64
  complete : ∀ c, s.pc c = .leaving → s.entered (s.roundOf c) = initialCount
  count : 0 < s.count
  awake : ∀ c t, (s.pc c).t = some t → t < s.epoch → c ∉ s.newEpoch.queue
  leaves : ∀ c t, (s.pc c).t = some t → t < s.epoch →
    ∃ u, ReflTransGen (Step initialCount) s u ∧ u.pc c = .leaving

theorem barrier_correct (hpos : 1 ≤ initialCount)
    (h : Reachable (Init initialCount) (Step initialCount) s) : Correct initialCount s := by
  have hs := reachable_sound hpos h
  have I := hs.1
  refine ⟨I.epoch, fun c t ht => ?_, fun c hc => ?_, hs.2, fun c t ht hover hmem => ?_,
    fun c t => hs.leaves⟩
  · have hold := I.settled c
    cases hp : s.pc c with
    | outside => rw [hp] at ht; nomatch ht
    | leaving => rw [hp] at ht; nomatch ht
    | woken u =>
      rw [hp] at ht hold
      obtain rfl : u = t := Option.some.inj ht
      exact hold.2
    | queued u | blocking u oldEpoch =>
      rw [hp] at ht hold
      obtain rfl : u = t := Option.some.inj ht
      exact hold.2.1
  · have hold := I.settled c
    rw [hc] at hold
    exact I.past _ hold
  · obtain ⟨u, hu⟩ := (I.queued c).mp hmem
    have hold := I.settled c
    rw [hu] at ht hold
    obtain rfl : u = t := Option.some.inj ht
    exact absurd hold.2.2 (by omega)

/-- Two threads: thread 1 comes in while thread 0 has given the lock back and is not in the queue
yet. -/
theorem two_threads_correct : ∃ s : State, s.round = 1 ∧ s.pc 0 = .woken 0 ∧ s.pc 1 = .outside ∧
    Correct 2 s := by
  have h₀ : Reachable (Init 2) (Step 2) ⟨⟨0, []⟩, 2, 0, fun _ => .outside, 0, fun _ => 0,
      fun _ => 0⟩ := .init (.start _)
  exact ⟨_, by decide, by decide, by decide, barrier_correct (by decide)
    ((((h₀.step (.sync 0 rfl (by decide))).step (.sync 1 (by decide) (by decide))).step
      (.action 0 0 0 (by decide) (by decide))).step (.leave 1 (by decide)))⟩

end OsShell.Barrier
