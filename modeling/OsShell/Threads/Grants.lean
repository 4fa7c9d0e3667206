import OsShell.Threads.Semaphore

/-!
# Who gets a token

Counted over the events of a run: every call of `up` either adds to `count` or
hands its token to the first thread in the queue, and nothing else changes who
has one. The invariant also follows each thread through the two queues, because
the one link a thread has serves both.
-/

namespace OsShell.Threads

open Runs Tokens

variable {T : Type*}

namespace Event

def upped : Event T → Option T
  | .up t _ => some t
  | _ => none

/-- The thread that got a token, by counting down or by hand-over. -/
def granted : Event T → Option T
  | .take t => some t
  | .up _ next => next
  | _ => none

def called : Event T → Option T
  | .take t => some t
  | .block t => some t
  | _ => none

def enqueued : Event T → Option T
  | .enqueue t => some t
  | _ => none

def handed : Event T → Option T
  | .up _ next => next
  | _ => none

def scheduled : Event T → Option T
  | .schedule _ next => some next
  | _ => none

end Event

def among (f : Event T → Option T) (es : List (Event T)) : List T :=
  es.filterMap f

@[simp] theorem among_nil (f : Event T → Option T) : among f [] = [] := rfl

@[simp] theorem among_snoc (f : Event T → Option T) (es : List (Event T)) (e : Event T) :
    among f (es ++ [e]) = among f es ++ (f e).toList := by
  cases h : f e <;> simp [among, h]

def Pc.Owes : Pc T → T → Prop
  | .running owes, u => owes = some u
  | .ready owes, u => owes = some u
  | _, _ => False

/-- Every thread that was taken off the queue is owed a `schedule` by exactly one `up`. -/
structure Debts (pc : T → Pc T) : Prop where
  owed : ∀ u, pc u = .removed ↔ ∃ t, (pc t).Owes u
  unique : ∀ t t' u, (pc t).Owes u → (pc t').Owes u → t = t'

namespace Debts

variable {pc pc' : T → Pc T} {t u : T}

theorem frame (h : Debts pc) (howes : ∀ v w, (pc' v).Owes w ↔ (pc v).Owes w)
    (hremoved : ∀ w, pc' w = .removed ↔ pc w = .removed) : Debts pc' where
  owed w := by simp only [hremoved, howes, h.owed]
  unique v v' w hv hv' := h.unique v v' w ((howes v w).mp hv) ((howes v' w).mp hv')

variable [DecidableEq T]

theorem update (h : Debts pc) {a : Pc T} (howes : ∀ w, a.Owes w ↔ (pc t).Owes w)
    (hremoved : a = .removed ↔ pc t = .removed) : Debts (Function.update pc t a) := by
  refine h.frame (fun v w => ?_) fun w => ?_
  · by_cases hv : v = t
    · rw [hv, Function.update_self, howes]
    · rw [Function.update_of_ne hv]
  · by_cases hw : w = t
    · rw [hw, Function.update_self, hremoved]
    · rw [Function.update_of_ne hw]

theorem incur (h : Debts pc) (ht : pc t = .running none) (hu : pc u = .waiting) :
    Debts (Function.update (Function.update pc t (.running (some u))) u .removed) := by
  have htu : t ≠ u := by
    rintro rfl
    rw [ht] at hu
    cases hu
  have hfree : ∀ v, ¬ (pc v).Owes u := fun v hv => by
    have := (h.owed u).mpr ⟨v, hv⟩
    rw [hu] at this
    cases this
  have howes : ∀ v w, (Function.update (Function.update pc t (.running (some u))) u .removed v).Owes w
      ↔ (pc v).Owes w ∨ v = t ∧ w = u := by
    intro v w
    by_cases hvu : v = u
    · simp [hvu, hu, Pc.Owes, htu.symm]
    by_cases hvt : v = t
    · simp [hvt, htu, ht, Pc.Owes, eq_comm]
    · simp [hvu, hvt]
  refine ⟨fun w => ?_, fun v v' w hv hv' => ?_⟩
  · simp only [howes, exists_or, exists_eq_left, ← h.owed]
    by_cases hwu : w = u
    · simp [hwu]
    by_cases hwt : w = t
    · simp [hwt, htu, ht]
    · simp [hwu, hwt]
  · rw [howes] at hv hv'
    rcases hv with hv | ⟨rfl, rfl⟩
    · rcases hv' with hv' | ⟨rfl, rfl⟩
      · exact h.unique v v' w hv hv'
      · exact absurd hv (hfree v)
    · rcases hv' with hv' | ⟨rfl, -⟩
      · exact absurd hv' (hfree v')
      · rfl

theorem pay (h : Debts pc) (ht : pc t = .running (some u)) :
    Debts (Function.update (Function.update pc t (.running none)) u (.ready none)) := by
  have hu : pc u = .removed := (h.owed u).mpr ⟨t, by rw [ht]; rfl⟩
  have htu : t ≠ u := by
    rintro rfl
    rw [ht] at hu
    cases hu
  have howes : ∀ v w, (Function.update (Function.update pc t (.running none)) u (.ready none) v).Owes w
      ↔ (pc v).Owes w ∧ v ≠ t := by
    intro v w
    by_cases hvu : v = u
    · simp [hvu, hu, Pc.Owes]
    by_cases hvt : v = t
    · simp [hvt, htu, Pc.Owes]
    · simp [hvu, hvt]
  refine ⟨fun w => ?_, fun v v' w hv hv' => ?_⟩
  · simp only [howes]
    by_cases hwu : w = u
    · subst hwu
      simp only [Function.update_self, reduceCtorEq, false_iff]
      rintro ⟨v, hv, hvt⟩
      exact hvt (h.unique v t w hv (by rw [ht]; rfl))
    have hsame : Function.update (Function.update pc t (.running none)) u (.ready none) w = .removed
        ↔ pc w = .removed := by
      by_cases hwt : w = t
      · simp [hwt, htu, ht]
      · simp [hwu, hwt]
    rw [hsame, h.owed]
    refine exists_congr fun v => ⟨fun hv => ⟨hv, ?_⟩, fun hv => hv.1⟩
    rintro rfl
    rw [ht] at hv
    exact hwu (Option.some.inj hv).symm
  · exact h.unique v v' w ((howes v w).mp hv).1 ((howes v' w).mp hv').1

end Debts

variable [DecidableEq T]

/-- `ws` waits in the semaphore and `rs` in the ready queue, after the events `es`. -/
structure Inv (idle : T → Prop) (k : ℕ) (es : List (Event T)) (s : State T) (ws rs : List T) :
    Prop where
  waiting : s.waiting.Holds s.next ws
  readyQ : s.readyQ.Holds s.next rs
  conserved : k + (among Event.upped es).length = s.count + (among Event.granted es).length
  settled : (⟨s.count, ws⟩ : Sem T).Settled
  fifo : among Event.enqueued es = among Event.handed es ++ ws
  mem_waiting : ∀ t, t ∈ ws ↔ s.pc t = .waiting
  mem_ready : ∀ t, t ∈ rs ↔ ∃ owes, s.pc t = .ready owes
  locked : ∀ t, s.pc t = .blocking ↔ s.lock = some t
  empty : s.lock ≠ none → s.count = 0
  debts : Debts s.pc
  scheduled : ∀ u, (among Event.handed es).count u =
    (among Event.scheduled es).count u + if s.pc u = .removed then 1 else 0
  not_idle : ∀ t, s.pc t = .waiting ∨ s.pc t = .removed → ¬ idle t
  called : ∀ t, (among Event.called es).count t = (among Event.granted es).count t +
    if s.pc t = .blocking ∨ s.pc t = .waiting then 1 else 0

namespace Inv

variable {idle : T → Prop} {k : ℕ} {es : List (Event T)} {s s' : State T} {ws rs : List T} {t u : T}
  {owes : Option T}

theorem init (h : Init k s) : Inv idle k [] s [] [] := by
  obtain ⟨hcount, hlock, hwaiting, hready, hpc⟩ := h
  refine ⟨hwaiting ▸ .empty s.next, hready ▸ .empty s.next, by simp [hcount], fun _ => rfl, rfl,
    ?_, ?_, ?_, ?_, ⟨?_, ?_⟩, ?_, ?_, ?_⟩ <;> simp [hpc, hlock, Pc.Owes]

theorem take (h : Inv idle k es s ws rs) (hlock : s.lock = none) (hcount : 0 < s.count) :
    Inv idle k (es ++ [.take t]) s.take ws rs where
  waiting := h.waiting
  readyQ := h.readyQ
  conserved := by
    have := h.conserved
    simp [Event.upped, Event.granted, State.take]
    omega
  settled := by
    have := h.settled.down t
    rwa [Sem.down_of_pos t hcount] at this
  fifo := by simpa [Event.enqueued, Event.handed] using h.fifo
  mem_waiting := h.mem_waiting
  mem_ready := h.mem_ready
  locked := h.locked
  empty := fun hne => absurd hlock hne
  debts := h.debts
  scheduled := fun u => by
    have := h.scheduled u
    simp [Event.handed, Event.scheduled]
    exact this
  not_idle := h.not_idle
  called := by have := h.called; simp [Event.called, Event.granted, State.take]; grind

theorem block (h : Inv idle k es s ws rs) (hpc : s.pc t = .running none) (hlock : s.lock = none)
    (hcount : s.count = 0) : Inv idle k (es ++ [.block t]) (s.block t) ws rs where
  waiting := h.waiting
  readyQ := h.readyQ
  conserved := by simpa [Event.upped, Event.granted, State.block] using h.conserved
  settled := h.settled
  fifo := by simpa [Event.enqueued, Event.handed] using h.fifo
  mem_waiting := by have := h.mem_waiting; simp only [State.block]; grind
  mem_ready := by have := h.mem_ready; simp only [State.block]; grind
  locked := by have := h.locked; simp only [State.block]; grind
  empty := fun _ => hcount
  debts := h.debts.update (by simp [hpc, Pc.Owes]) (by simp [hpc])
  scheduled := by have := h.scheduled; simp [Event.handed, Event.scheduled, State.block]; grind
  not_idle := by have := h.not_idle; simp only [State.block]; grind
  called := by have := h.called; simp [Event.called, Event.granted, State.block]; grind

theorem not_mem_ready (h : Inv idle k es s ws rs) (ht : t ∈ ws) : t ∉ rs := fun hr => by
  obtain ⟨owes, hpc⟩ := (h.mem_ready t).mp hr
  rw [(h.mem_waiting t).mp ht] at hpc
  cases hpc

theorem enqueue (h : Inv idle k es s ws rs) (hpc : s.pc t = .blocking) (hidle : ¬ idle t)
    (hcall : s.enqueue t = some s') : Inv idle k (es ++ [.enqueue t]) s' (ws ++ [t]) rs := by
  have hws : t ∉ ws := fun hm => by simp [(h.mem_waiting t).mp hm] at hpc
  have hrs : t ∉ rs := fun hm => by simp [h.mem_ready, hpc] at hm
  have hcount : s.count = 0 := h.empty (by rw [(h.locked t).mp hpc]; simp)
  obtain ⟨q, next, hadd, hq, hframe⟩ := h.waiting.add hws
  simp only [State.enqueue, hadd, Option.map_some, Option.some.injEq] at hcall
  subst hcall
  refine ⟨hq, h.readyQ.frame fun u hu => hframe u ?_ ?_, ?_, ?_, ?_, ?_, ?_, ?_, ?_, ?_, ?_, ?_, ?_⟩
  · exact fun hm => h.not_mem_ready hm hu
  · exact fun heq => hrs (heq ▸ hu)
  · simpa [Event.upped, Event.granted] using h.conserved
  · have := h.settled.down t
    rwa [Sem.down_of_zero t hcount] at this
  · simp [Event.enqueued, Event.handed, h.fifo]
  · have := h.mem_waiting
    grind
  · have := h.mem_ready
    grind
  · have := h.locked
    grind
  · exact fun hne => absurd rfl hne
  · exact h.debts.update (by simp [hpc, Pc.Owes]) (by simp [hpc])
  · have := h.scheduled
    simp [Event.handed, Event.scheduled]
    grind
  · have := h.not_idle
    grind
  · have := h.called
    simp [Event.called, Event.granted]
    grind

theorem up_none (h : Inv idle k es s [] rs) (hpc : s.pc t = .running none) (hlock : s.lock = none) :
    (s.up t).2 = none ∧ Inv idle k (es ++ [.up t none]) (s.up t).1 [] rs := by
  have hup : s.up t = ({ s with count := s.count + 1 }, none) := by
    simp only [State.up, h.waiting.remove_nil, ← hpc, Function.update_eq_self]
  rw [hup]
  refine ⟨rfl, h.waiting, h.readyQ, ?_, fun _ => rfl, ?_, h.mem_waiting, h.mem_ready, h.locked,
    fun hne => absurd hlock hne, h.debts, ?_, h.not_idle, ?_⟩
  · have := h.conserved
    simp [Event.upped, Event.granted]
    omega
  · simpa [Event.enqueued, Event.handed] using h.fifo
  · simpa [Event.handed, Event.scheduled] using h.scheduled
  · simpa [Event.called, Event.granted] using h.called

theorem up_some (h : Inv idle k es s (u :: ws) rs) (hpc : s.pc t = .running none)
    (hlock : s.lock = none) :
    (s.up t).2 = some u ∧ Inv idle k (es ++ [.up t (some u)]) (s.up t).1 ws rs := by
  have hu : s.pc u = .waiting := (h.mem_waiting u).mp List.mem_cons_self
  have huws : u ∉ ws := (List.nodup_cons.mp h.waiting.nodup).1
  obtain ⟨hnext, hq⟩ := h.waiting.remove_cons
  have hup : s.up t = ({ s with
      waiting := (s.waiting.remove s.next).1
      pc := Function.update (Function.update s.pc t (.running (some u))) u .removed }, some u) := by
    simp only [State.up, hnext]
  have hconserved := h.conserved
  have hfifo := h.fifo
  have hmem := h.mem_waiting
  have hready := h.mem_ready
  have hlocked := h.locked
  have hscheduled := h.scheduled
  have hnot := h.not_idle
  have hcalled := h.called
  rw [hup]
  refine ⟨rfl, hq, h.readyQ, ?_, ?_, ?_, ?_, ?_, ?_, h.empty, h.debts.incur hpc hu, ?_, ?_, ?_⟩
  · simp [Event.upped, Event.granted]
    omega
  · have := h.settled.up
    exact this
  · simp [Event.enqueued, Event.handed, hfifo]
  · grind
  · grind
  · grind
  · simp [Event.handed, Event.scheduled]
    grind
  · grind
  · simp [Event.called, Event.granted]
    grind

theorem schedule [DecidablePred idle] (h : Inv idle k es s ws rs) (hpc : s.pc t = .running (some u))
    (hcall : s.schedule idle t u = some s') :
    Inv idle k (es ++ [.schedule t u]) s' ws (rs ++ [u]) := by
  have hu : s.pc u = .removed := (h.debts.owed u).mpr ⟨t, by rw [hpc]; rfl⟩
  have hws : u ∉ ws := fun hm => by simp [(h.mem_waiting u).mp hm] at hu
  have hrs : u ∉ rs := fun hm => by simp [h.mem_ready, hu] at hm
  obtain ⟨q, next, hadd, hq, hframe⟩ := h.readyQ.add hrs
  simp only [State.schedule, if_neg (h.not_idle u (.inr hu)), hadd, Option.map_some,
    Option.some.injEq] at hcall
  subst hcall
  have hmem := h.mem_waiting
  have hready := h.mem_ready
  have hlocked := h.locked
  have hscheduled := h.scheduled
  have hnot := h.not_idle
  have hcalled := h.called
  refine ⟨h.waiting.frame fun v hv => hframe v ?_ ?_, hq, ?_, h.settled, ?_, ?_, ?_, ?_, h.empty,
    h.debts.pay hpc, ?_, ?_, ?_⟩
  · exact h.not_mem_ready hv
  · exact fun heq => hws (heq ▸ hv)
  · simpa [Event.upped, Event.granted] using h.conserved
  · simpa [Event.enqueued, Event.handed] using h.fifo
  · grind
  · intro v
    rw [List.mem_append, List.mem_singleton, hready]
    by_cases hv : v = u
    · simp [hv]
    by_cases hvt : v = t
    · subst hvt
      simp [hv, hpc]
    · simp [hv, hvt]
  · grind
  · simp [Event.handed, Event.scheduled]
    grind
  · grind
  · simp [Event.called, Event.granted]
    grind

theorem preempt (h : Inv idle k es s ws rs) (hpc : s.pc t = .running owes)
    (hcall : s.preempt t owes = some s') : Inv idle k (es ++ [.preempt t]) s' ws (rs ++ [t]) := by
  have hws : t ∉ ws := fun hm => by simp [(h.mem_waiting t).mp hm] at hpc
  have hrs : t ∉ rs := fun hm => by simp [h.mem_ready, hpc] at hm
  obtain ⟨q, next, hadd, hq, hframe⟩ := h.readyQ.add hrs
  simp only [State.preempt, hadd, Option.map_some, Option.some.injEq] at hcall
  subst hcall
  have hmem := h.mem_waiting
  have hready := h.mem_ready
  have hlocked := h.locked
  have hscheduled := h.scheduled
  have hnot := h.not_idle
  have hcalled := h.called
  refine ⟨h.waiting.frame fun v hv => hframe v ?_ ?_, hq, ?_, h.settled, ?_, ?_, ?_, ?_, h.empty,
    h.debts.update (by simp [hpc, Pc.Owes]) (by simp [hpc]), ?_, ?_, ?_⟩
  · exact h.not_mem_ready hv
  · exact fun heq => hws (heq ▸ hv)
  · simpa [Event.upped, Event.granted] using h.conserved
  · simpa [Event.enqueued, Event.handed] using h.fifo
  · grind
  · intro v
    rw [List.mem_append, List.mem_singleton, hready]
    by_cases hv : v = t
    · simp [hv]
    · simp [hv]
  · grind
  · simp [Event.handed, Event.scheduled]
    grind
  · grind
  · simp [Event.called, Event.granted]
    grind

theorem dispatch (h : Inv idle k es s ws rs) (hpc : s.pc t = .ready owes)
    (hfirst : (s.readyQ.remove s.next).2 = some t) :
    ∃ rs', rs = t :: rs' ∧ Inv idle k (es ++ [.dispatch t]) (s.dispatch t owes) ws rs' := by
  cases rs with
  | nil => rw [h.readyQ.remove_nil] at hfirst; cases hfirst
  | cons v rs =>
    obtain ⟨hnext, hq⟩ := h.readyQ.remove_cons
    obtain rfl : v = t := Option.some.inj (hnext.symm.trans hfirst)
    have hvrs : v ∉ rs := (List.nodup_cons.mp h.readyQ.nodup).1
    have hmem := h.mem_waiting
    have hready := h.mem_ready
    have hlocked := h.locked
    have hscheduled := h.scheduled
    have hnot := h.not_idle
    have hcalled := h.called
    simp only [State.dispatch]
    refine ⟨rs, rfl, h.waiting, hq, ?_, h.settled, ?_, ?_, ?_, ?_, h.empty,
      h.debts.update (by simp [hpc, Pc.Owes]) (by simp [hpc]), ?_, ?_, ?_⟩
    · simpa [Event.upped, Event.granted] using h.conserved
    · simpa [Event.enqueued, Event.handed] using h.fifo
    · grind
    · grind
    · grind
    · simp [Event.handed, Event.scheduled]
      grind
    · grind
    · simp [Event.called, Event.granted]
      grind

end Inv

def Refines (e : Event T) (a a' : Sem T) : Prop :=
  match e with
  | .take t => a.down t = (a', true)
  | .enqueue t => a.down t = (a', false)
  | .up _ next => a.up = (a', next)
  | _ => a' = a

variable {idle : T → Prop} {k : ℕ} {es : List (Event T)} {e : Event T} {s s' : State T}

theorem Inv.step [DecidablePred idle] {ws rs : List T} (h : Inv idle k es s ws rs) (hst : Step idle s e s') :
    ∃ ws' rs', Inv idle k (es ++ [e]) s' ws' rs' ∧ Refines e ⟨s.count, ws⟩ ⟨s'.count, ws'⟩ := by
  cases hst with
  | take hpc hlock hcount => exact ⟨ws, rs, h.take hlock hcount, Sem.down_of_pos _ hcount⟩
  | block hpc hlock hcount => exact ⟨ws, rs, h.block hpc hlock hcount, rfl⟩
  | @enqueue _ t hpc hidle hcall =>
    have hzero : s.count = 0 := h.empty (by rw [(h.locked t).mp hpc]; simp)
    refine ⟨ws ++ [t], rs, h.enqueue hpc hidle hcall, ?_⟩
    rw [State.enqueue_count hcall]
    exact Sem.down_of_zero t hzero
  | @up t hpc hlock =>
    cases ws with
    | nil =>
      obtain ⟨hnext, hinv⟩ := h.up_none hpc hlock
      refine ⟨[], rs, by rwa [hnext], ?_⟩
      have hcount : (s.up t).1.count = s.count + 1 := by
        simp only [State.up, h.waiting.remove_nil]
      rw [hnext, hcount]
      rfl
    | cons u ws =>
      obtain ⟨hnext, hinv⟩ := h.up_some hpc hlock
      refine ⟨ws, rs, by rwa [hnext], ?_⟩
      have hcount : (s.up t).1.count = s.count := by
        simp only [State.up, h.waiting.remove_cons.1]
      rw [hnext, hcount]
      rfl
  | @schedule _ t u hpc hcall =>
    exact ⟨ws, rs ++ [u], h.schedule hpc hcall, by rw [State.schedule_count hcall]; rfl⟩
  | @preempt _ t owes hpc hidle hcall =>
    exact ⟨ws, rs ++ [t], h.preempt hpc hcall, by rw [State.preempt_count hcall]; rfl⟩
  | dispatch hpc hfirst =>
    obtain ⟨rs', -, hinv⟩ := h.dispatch hpc hfirst
    exact ⟨ws, rs', hinv, rfl⟩

theorem inv_of_trace [DecidablePred idle] (h : Trace (Init k) (Step idle) es s) :
    ∃ ws rs, Inv idle k es s ws rs := by
  refine h.invariant (I := fun es s => ∃ ws rs, Inv idle k es s ws rs)
    (fun s hs => ⟨[], [], Inv.init hs⟩) ?_
  rintro es e s t ⟨ws, rs, hinv⟩ hst
  obtain ⟨ws', rs', hinv', -⟩ := hinv.step hst
  exact ⟨ws', rs', hinv'⟩

def holders (es : List (Event T)) : Multiset T :=
  (among Event.granted es : Multiset T) - among Event.upped es

/-- Used as a lock: a thread calls `unlock` only when it has called `lock` more often. -/
def Disciplined (es : List (Event T)) : Prop :=
  ∀ as t next bs, es = as ++ .up t next :: bs →
    (among Event.upped as).count t < (among Event.called as).count t

/-- The thread has called `down` more often than `up`, and it neither waits for a grant nor is about
to. -/
def Inside (es : List (Event T)) (s : State T) (t : T) : Prop :=
  (among Event.upped es).count t < (among Event.called es).count t ∧
    ¬ (s.pc t = .blocking ∨ s.pc t = .waiting)

theorem Inv.granted_of_inside {ws rs : List T} {t : T} (h : Inv idle k es s ws rs)
    (ht : Inside es s t) : t ∈ holders es := by
  have hcalled := h.called t
  rw [if_neg ht.2, Nat.add_zero] at hcalled
  have hcount : 0 < (holders es).count t := by
    rw [holders, Multiset.count_sub, Multiset.coe_count, Multiset.coe_count]
    have := ht.1
    omega
  exact Multiset.count_pos.mp hcount

theorem Disciplined.upped_le [DecidablePred idle] (h : Trace (Init k) (Step idle) es s)
    (hd : Disciplined es) : (among Event.upped es : Multiset T) ≤ among Event.granted es := by
  induction h with
  | start => exact le_rfl
  | @step es e s s' h hst ih =>
    have hle := ih fun as t next bs heq => hd as t next (bs ++ [e]) (by simp [heq])
    rw [among_snoc, among_snoc, ← Multiset.coe_add, ← Multiset.coe_add]
    cases hst with
    | @up t hpc =>
      obtain ⟨ws, rs, hinv⟩ := inv_of_trace h
      have hmem : t ∈ holders es :=
        hinv.granted_of_inside ⟨hd es t _ [] rfl, by rw [hpc]; simp⟩
      have hup := (le_tsub_iff_left hle).mp (Multiset.singleton_le.mpr hmem)
      exact hup.trans (Multiset.le_add_right _ _)
    | _ =>
      refine (le_of_eq ?_).trans (hle.trans (Multiset.le_add_right _ _))
      simp [Event.upped]

theorem Inv.card_holders {ws rs : List T} (hinv : Inv idle 1 es s ws rs)
    (hle : (among Event.upped es : Multiset T) ≤ among Event.granted es) :
    (holders es).card ≤ 1 := by
  have := hinv.conserved
  rw [holders, Multiset.card_sub hle, Multiset.coe_card, Multiset.coe_card]
  omega

structure Sound (idle : T → Prop) [DecidablePred idle] (k : ℕ) (es : List (Event T)) (s : State T)
    (ws : List T) : Prop where
  queue : s.waiting.Holds s.next ws
  conserved : k + (among Event.upped es).length = s.count + (among Event.granted es).length
  no_waiter : 0 < s.count → ws = []
  waits_once : ∀ t, ws.count t = if s.pc t = .waiting then 1 else 0
  in_order : among Event.enqueued es = among Event.handed es ++ ws
  /-- Each time a thread blocked it is scheduled once, or it still waits, or an `up` has
  removed it and is about to schedule it. -/
  scheduled_once : ∀ t, (among Event.enqueued es).count t = (among Event.scheduled es).count t +
    if s.pc t = .waiting ∨ s.pc t = .removed then 1 else 0
  owed : ∀ t, s.pc t = .removed → ∃! u, (s.pc u).Owes t
  enqueues : ∀ t, s.pc t = .blocking → (s.enqueue t).isSome
  schedules : ∀ t u, s.pc t = .running (some u) → (s.schedule idle t u).isSome
  /-- A thread goes on behind a call of `down` only with its grant. -/
  granted : ∀ t, (among Event.called es).count t = (among Event.granted es).count t +
    if s.pc t = .blocking ∨ s.pc t = .waiting then 1 else 0
  lock : k = 1 → Disciplined es → (holders es).card ≤ 1 ∧
    ∀ t u, Inside es s t → Inside es s u → t = u

theorem Inv.count_waiting {ws rs : List T} (h : Inv idle k es s ws rs) (t : T) :
    ws.count t = if s.pc t = .waiting then 1 else 0 := by
  split
  · exact List.count_eq_one_of_mem h.waiting.nodup ((h.mem_waiting t).mpr ‹_›)
  · exact List.count_eq_zero_of_not_mem fun hm => ‹¬ _› ((h.mem_waiting t).mp hm)

/-- Thread 1 blocks on the lock that thread 0 holds, and is handed it. -/
def handOver : List (Event ℕ) :=
  [.take 0, .block 1, .enqueue 1, .up 0 (some 1), .schedule 0 1, .dispatch 1]

theorem handOver_trace : ∃ s, Trace (Init 1) (Step fun _ : ℕ => False) handOver s ∧
    Inside handOver s 1 := by
  let s₀ : State ℕ := ⟨1, none, {}, {}, fun _ => none, fun _ => .running none⟩
  have h0 : Trace (Init 1) (Step fun _ => False) [] s₀ := .start (.start rfl rfl rfl rfl fun _ => rfl)
  have h1 := h0.step (.take (t := 0) rfl rfl (by decide))
  have h2 := h1.step (.block (t := 1) rfl rfl rfl)
  have h3 := h2.step (.enqueue (t := 1) rfl id rfl)
  have h4 := h3.step (.up (t := 0) rfl rfl)
  have h5 := h4.step (.schedule (t := 0) (u := 1) rfl rfl)
  have h6 := h5.step (.dispatch (t := 1) rfl rfl)
  exact ⟨_, h6, by decide, by decide⟩

end OsShell.Threads
