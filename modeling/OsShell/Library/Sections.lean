import OsShell.Library.CountingSemaphore
import OsShell.Library.Runs

/-!
# Sections under a lock

An object whose calls all take one lock, work on shared memory and on further
semaphores, and release the lock. A body is a program; `Safe Q p` says that `p`,
run while nobody else holds the lock, never waits for a token and ends in `Q`.
If every body is safe from `R a` and ends in `R a'` with `a'` what the call does
to the abstract value `a`, then in every interleaving the calls take effect one
after the other, in the order in which they release the lock.
-/

namespace OsShell.Sections

open Runs Tokens

variable {T C A S σ α : Type}

inductive Prog (S σ α : Type)
  | ret (a : α)
  /-- one step on the memory; what follows may depend on what was there before -/
  | act (f : σ → σ) (k : σ → Prog S σ α)
  | down (x : S) (k : Prog S σ α)
  | up (x : S) (k : Prog S σ α)

inductive Phase (C S σ α : Type)
  | outside
  | entering (c : C)
  | inside (c : C) (p : Prog S σ α)

structure State (T C S σ α : Type) where
  mem : σ
  lock : Sem T
  sems : S → Sem T
  thread : T → Phase C S σ α

def State.tokens (s : State T C S σ α) : S → ℕ :=
  fun x => (s.sems x).count

/-- A thread that waits for a token takes no step. -/
def State.Waits (s : State T C S σ α) (t : T) : Prop :=
  ∃ x, t ∈ (s.sems x).waiting

inductive Event (T C α : Type)
  | enter (t : T) (c : C)
  | move (t : T)
  | leave (t : T) (c : C) (a : α)

inductive Init (m : σ) (tokens : S → ℕ) : State T C S σ α → Prop
  | start : Init m tokens ⟨m, ⟨1, []⟩, fun x => ⟨tokens x, []⟩, fun _ => .outside⟩

/-- The calls that have returned, in the order in which they released the lock. -/
def finished (es : List (Event T C α)) : List (C × α) :=
  es.filterMap fun
    | .leave _ c a => some (c, a)
    | _ => none

theorem finished_snoc (es : List (Event T C α)) (e : Event T C α) :
    finished (es ++ [e]) = finished es ++ finished [e] :=
  List.filterMap_append

inductive Legal (spec : C → A → α → A → Prop) (a₀ : A) : List (C × α) → A → Prop
  | nil : Legal spec a₀ [] a₀
  | snoc {h : List (C × α)} {a a' : A} {c : C} {r : α} (hh : Legal spec a₀ h a)
      (hc : spec c a r a') : Legal spec a₀ (h ++ [(c, r)]) a'

variable [DecidableEq S]

/-- The program, run with nobody else; `none` when it waits for a token. -/
def Prog.alone : Prog S σ α → σ → (S → ℕ) → Option (α × σ × (S → ℕ))
  | .ret a, m, tokens => some (a, m, tokens)
  | .act f k, m, tokens => (k m).alone (f m) tokens
  | .down x k, m, tokens =>
    if 0 < tokens x then k.alone m (Function.update tokens x (tokens x - 1)) else none
  | .up x k, m, tokens => k.alone m (Function.update tokens x (tokens x + 1))

def Safe (Q : α → σ → (S → ℕ) → Prop) : Prog S σ α → σ → (S → ℕ) → Prop
  | .ret a, m, tokens => Q a m tokens
  | .act f k, m, tokens => Safe Q (k m) (f m) tokens
  | .down x k, m, tokens =>
    0 < tokens x ∧ Safe Q k m (Function.update tokens x (tokens x - 1))
  | .up x k, m, tokens => Safe Q k m (Function.update tokens x (tokens x + 1))

theorem Safe.alone {Q : α → σ → (S → ℕ) → Prop} {p : Prog S σ α} {m : σ} {tokens : S → ℕ}
    (h : Safe Q p m tokens) : ∃ a m' tokens', p.alone m tokens = some (a, m', tokens') ∧
      Q a m' tokens' := by
  induction p generalizing m tokens with
  | ret a => exact ⟨a, m, tokens, rfl, h⟩
  | act f k ih => exact ih m h
  | down x k ih =>
    obtain ⟨a, m', tokens', hrun, hQ⟩ := ih h.2
    exact ⟨a, m', tokens', by rw [Prog.alone, if_pos h.1, hrun], hQ⟩
  | up x k ih => exact ih h

theorem Safe.mono {Q Q' : α → σ → (S → ℕ) → Prop} {p : Prog S σ α} {m : σ} {tokens : S → ℕ}
    (h : Safe Q p m tokens) (hQ : ∀ a m tokens, Q a m tokens → Q' a m tokens) :
    Safe Q' p m tokens := by
  induction p generalizing m tokens with
  | ret a => exact hQ a m tokens h
  | act f k ih => exact ih m h
  | down x k ih => exact ⟨h.1, ih h.2⟩
  | up x k ih => exact ih h

section Invariant

variable (body : C → Prog S σ α) (spec : C → A → α → A → Prop) (R : A → σ → (S → ℕ) → Prop)

def Done (c : C) (a : A) (r : α) (m : σ) (tokens : S → ℕ) : Prop :=
  ∃ a', spec c a r a' ∧ R a' m tokens

structure Inv (a₀ : A) (es : List (Event T C α)) (s : State T C S σ α) (a : A) : Prop where
  legal : Legal spec a₀ (finished es) a
  quiet : ∀ x, (s.sems x).waiting = []
  settled : s.lock.Settled
  count_le : s.lock.count ≤ 1
  nodup : s.lock.waiting.Nodup
  entering : ∀ t, t ∈ s.lock.waiting ↔ ∃ c, s.thread t = .entering c
  free : 0 < s.lock.count → R a s.mem s.tokens ∧ ∀ t c p, s.thread t ≠ .inside c p
  held : s.lock.count = 0 → ∃ t c p, s.thread t = .inside c p ∧
    Safe (Done spec R c a) p s.mem s.tokens ∧ ∀ u c' p', s.thread u = .inside c' p' → u = t

def Implements : Prop :=
  ∀ c a m tokens, R a m tokens → Safe (Done spec R c a) (body c) m tokens

end Invariant

variable {body : C → Prog S σ α} {spec : C → A → α → A → Prop} {R : A → σ → (S → ℕ) → Prop}
  {a₀ a : A} {es : List (Event T C α)} {s s' : State T C S σ α} {t : T} {c : C}

theorem Inv.init {m : σ} {tokens : S → ℕ} (hR : R a₀ m tokens) (h : Init m tokens s) :
    Inv spec R a₀ [] s a₀ := by
  cases h
  exact ⟨.nil, fun _ => rfl, fun _ => rfl, le_rfl, List.nodup_nil, by simp, fun _ => ⟨hR, by simp⟩,
    by simp⟩

/-- A thread inside is the one that holds the lock, and its next steps are safe. -/
theorem Inv.inside {p : Prog S σ α} (h : Inv spec R a₀ es s a) (ht : s.thread t = .inside c p) :
    s.lock.count = 0 ∧ Safe (Done spec R c a) p s.mem s.tokens ∧
      ∀ u c' p', s.thread u = .inside c' p' → u = t := by
  have hzero : s.lock.count = 0 := by
    by_contra hne
    exact (h.free (by omega)).2 t c p ht
  obtain ⟨u, c', p', hu, hsafe, huniq⟩ := h.held hzero
  obtain rfl := huniq t c p ht
  rw [ht] at hu
  cases hu
  exact ⟨hzero, hsafe, huniq⟩

variable [DecidableEq T]

/-- `lock.down()` -/
def State.enter (body : C → Prog S σ α) (s : State T C S σ α) (t : T) (c : C) : State T C S σ α :=
  let (lock, granted) := s.lock.down t
  { s with
    lock
    thread := Function.update s.thread t (if granted then .inside c (body c) else .entering c) }

/-- `lock.up()`: the thread that is handed the lock is inside at once. -/
def State.leave (body : C → Prog S σ α) (s : State T C S σ α) (t : T) : State T C S σ α :=
  let (lock, next) := s.lock.up
  let thread := Function.update s.thread t .outside
  match next with
  | none => { s with lock, thread }
  | some u =>
    match s.thread u with
    | .entering c => { s with lock, thread := Function.update thread u (.inside c (body c)) }
    | _ => { s with lock, thread }

inductive Step (body : C → Prog S σ α) :
    State T C S σ α → Event T C α → State T C S σ α → Prop
  | enter {s : State T C S σ α} {t : T} {c : C} (h : s.thread t = .outside) :
      Step body s (.enter t c) (s.enter body t c)
  | act {s : State T C S σ α} {t : T} {c : C} {f : σ → σ} {k : σ → Prog S σ α}
      (h : s.thread t = .inside c (.act f k)) (hrun : ¬ s.Waits t) :
      Step body s (.move t)
        { s with mem := f s.mem, thread := Function.update s.thread t (.inside c (k s.mem)) }
  | down {s : State T C S σ α} {t : T} {c : C} {x : S} {k : Prog S σ α}
      (h : s.thread t = .inside c (.down x k)) (hrun : ¬ s.Waits t) :
      Step body s (.move t)
        { s with
          sems := Function.update s.sems x ((s.sems x).down t).1
          thread := Function.update s.thread t (.inside c k) }
  | up {s : State T C S σ α} {t : T} {c : C} {x : S} {k : Prog S σ α}
      (h : s.thread t = .inside c (.up x k)) (hrun : ¬ s.Waits t) :
      Step body s (.move t)
        { s with
          sems := Function.update s.sems x (s.sems x).up.1
          thread := Function.update s.thread t (.inside c k) }
  | leave {s : State T C S σ α} {t : T} {c : C} {a : α}
      (h : s.thread t = .inside c (.ret a)) (hrun : ¬ s.Waits t) :
      Step body s (.leave t c a) (s.leave body t)

theorem Inv.enter (h : Inv spec R a₀ es s a) (himp : Implements body spec R)
    (ht : s.thread t = .outside) : Inv spec R a₀ (es ++ [.enter t c]) (s.enter body t c) a := by
  have hnot : t ∉ s.lock.waiting := fun hm => by
    obtain ⟨c, hc⟩ := (h.entering t).mp hm
    rw [ht] at hc
    cases hc
  have hentering := h.entering
  have hlegal : Legal spec a₀ (finished (es ++ [Event.enter t c])) a := by
    simpa [finished_snoc, finished] using h.legal
  have hle := h.count_le
  by_cases hpos : 0 < s.lock.count
  · obtain ⟨hR, hnone⟩ := h.free hpos
    simp only [State.enter, Sem.down_of_pos t hpos]
    refine ⟨hlegal, h.quiet, fun _ => h.settled hpos, by simp; omega, h.nodup, ?_, by simp; omega,
      fun _ => ⟨t, c, body c, by simp, himp c a _ _ hR, ?_⟩⟩
    · intro u
      by_cases hu : u = t
      · subst hu
        simpa using hnot
      · simpa [hu] using hentering u
    · intro u c' p' hu
      by_contra hut
      exact hnone u c' p' (by simpa [hut] using hu)
  · have hzero : s.lock.count = 0 := by omega
    obtain ⟨v, cv, pv, hv, hsafe, huniq⟩ := h.held hzero
    have hvt : v ≠ t := by
      rintro rfl
      rw [ht] at hv
      cases hv
    simp only [State.enter, Sem.down_of_zero t hzero]
    refine ⟨hlegal, h.quiet, fun hp => absurd hp (by simp [hzero]), by simp [hzero], ?_, ?_,
      fun hp => absurd hp (by simp [hzero]), fun _ => ⟨v, cv, pv, by simpa [hvt] using hv, hsafe, ?_⟩⟩
    · rw [← List.concat_eq_append]
      exact h.nodup.concat hnot
    · intro u
      by_cases hu : u = t
      · simp [hu]
      · simpa [hu] using hentering u
    · intro u c' p' hu
      by_cases hut : u = t
      · simp [hut] at hu
      · exact huniq u c' p' (by simpa [hut] using hu)

theorem Inv.move {p p' : Prog S σ α} {m : σ} {sems : S → Sem T} (h : Inv spec R a₀ es s a)
    (ht : s.thread t = .inside c p) (hquiet : ∀ x, (sems x).waiting = [])
    (hsafe : Safe (Done spec R c a) p' m fun x => (sems x).count) :
    Inv spec R a₀ (es ++ [.move t])
      { s with mem := m, sems, thread := Function.update s.thread t (.inside c p') } a := by
  obtain ⟨hzero, -, huniq⟩ := h.inside ht
  have hentering := h.entering
  refine ⟨by simpa [finished_snoc, finished] using h.legal, hquiet, h.settled, h.count_le, h.nodup,
    ?_, fun hp => absurd hp (by simp [hzero]), fun _ => ⟨t, c, p', by simp, hsafe, ?_⟩⟩
  · intro u
    by_cases hu : u = t
    · subst hu
      simpa [ht] using hentering u
    · simpa [hu] using hentering u
  · intro u c' q hu
    by_contra hut
    exact hut (huniq u c' q (by simpa [hut] using hu))

theorem Inv.leave {r : α} (h : Inv spec R a₀ es s a) (himp : Implements body spec R)
    (ht : s.thread t = .inside c (.ret r)) :
    ∃ a', Inv spec R a₀ (es ++ [.leave t c r]) (s.leave body t) a' := by
  obtain ⟨hzero, ⟨a', hspec, hR⟩, huniq⟩ := h.inside ht
  have hentering := h.entering
  have hlegal : Legal spec a₀ (finished (es ++ [Event.leave t c r])) a' := by
    rw [finished_snoc]
    exact h.legal.snoc hspec
  refine ⟨a', ?_⟩
  cases hw : s.lock.waiting with
  | nil =>
    simp only [State.leave, Sem.up, hw]
    refine ⟨hlegal, h.quiet, fun _ => rfl, by simp [hzero], List.nodup_nil, ?_,
      fun _ => ⟨hR, ?_⟩, by simp⟩
    · intro u
      by_cases hu : u = t
      · simp [hu]
      · simpa [hu, hw] using hentering u
    · intro u c' p' hu
      by_cases hut : u = t
      · simp [hut] at hu
      · exact hut (huniq u c' p' (by simpa [hut] using hu))
  | cons u us =>
    obtain ⟨cu, hcu⟩ := (hentering u).mp (by simp [hw])
    have hut : u ≠ t := by
      rintro rfl
      rw [ht] at hcu
      cases hcu
    have hnodup := hw ▸ h.nodup
    obtain ⟨huus, hus⟩ := List.nodup_cons.mp hnodup
    simp only [State.leave, Sem.up, hw, hcu]
    refine ⟨hlegal, h.quiet, fun hp => absurd hp (by simp [hzero]), by simp [hzero], hus, ?_,
      fun hp => absurd hp (by simp [hzero]),
      fun _ => ⟨u, cu, body cu, by simp, himp cu a' _ _ hR, ?_⟩⟩
    · intro v
      by_cases hvu : v = u
      · subst hvu
        simpa using huus
      by_cases hvt : v = t
      · subst hvt
        have hnot : v ∉ s.lock.waiting := fun hm => by simp [hentering, ht] at hm
        simp only [hw, List.mem_cons, not_or] at hnot
        simp [hvu, hnot.2]
      · have := hentering v
        simp only [hw, List.mem_cons, hvu, false_or] at this
        simpa [hvu, hvt] using this
    · intro v c' p' hv
      by_contra hvu
      by_cases hvt : v = t
      · simp [hvt, Ne.symm hut] at hv
      · exact hvt (huniq v c' p' (by simpa [hvu, hvt] using hv))

theorem Inv.step {e : Event T C α} (h : Inv spec R a₀ es s a) (himp : Implements body spec R)
    (hst : Step body s e s') : ∃ a', Inv spec R a₀ (es ++ [e]) s' a' := by
  cases hst with
  | enter ht => exact ⟨a, h.enter himp ht⟩
  | act ht hrun =>
    obtain ⟨-, hsafe, -⟩ := h.inside ht
    exact ⟨a, h.move ht h.quiet hsafe⟩
  | @down t c x k ht hrun =>
    obtain ⟨-, ⟨hpos, hsafe⟩, -⟩ := h.inside ht
    refine ⟨a, h.move ht (fun y => ?_) ?_⟩
    · by_cases hy : y = x
      · subst hy
        rw [Function.update_self, Sem.down_of_pos t hpos]
        exact h.quiet y
      · rw [Function.update_of_ne hy]
        exact h.quiet y
    · convert hsafe using 1
      funext y
      by_cases hy : y = x
      · subst hy
        rw [Function.update_self, Function.update_self, Sem.down_of_pos t hpos]
        rfl
      · rw [Function.update_of_ne hy, Function.update_of_ne hy]
        rfl
  | @up t c x k ht hrun =>
    obtain ⟨-, hsafe, -⟩ := h.inside ht
    change Safe _ k _ _ at hsafe
    have hup : (s.sems x).up.1 = ⟨(s.sems x).count + 1, []⟩ := by
      simp only [Sem.up, h.quiet x]
    refine ⟨a, h.move ht (fun y => ?_) ?_⟩
    · by_cases hy : y = x
      · rw [hy, Function.update_self, hup]
      · rw [Function.update_of_ne hy]
        exact h.quiet y
    · convert hsafe using 1
      funext y
      by_cases hy : y = x
      · subst hy
        rw [Function.update_self, Function.update_self, hup]
        rfl
      · rw [Function.update_of_ne hy, Function.update_of_ne hy]
        rfl
  | leave ht hrun => exact h.leave himp ht

theorem inv_of_trace {m : σ} {tokens : S → ℕ} (himp : Implements body spec R)
    (hR : R a₀ m tokens) (h : Trace (Init m tokens) (Step body) es s) :
    ∃ a, Inv spec R a₀ es s a := by
  refine h.invariant (I := fun es s => ∃ a, Inv spec R a₀ es s a)
    (fun s hs => ⟨a₀, Inv.init hR hs⟩) ?_
  rintro es e s s' ⟨a, hinv⟩ hst
  exact hinv.step himp hst

end OsShell.Sections
