import Mathlib

/-!
# Runs of a transition system

A run is a finite sequence of steps from an initial state. An invariant is
proved once for the initial states and once for a single step; the theorem
here carries it to every state a run reaches. `Trace` also keeps the events of
the run, oldest first, so that an invariant can count them.
-/

namespace OsShell.Runs

open Relation (ReflTransGen)

variable {σ : Type*}

def Reachable (init : σ → Prop) (step : σ → σ → Prop) (s : σ) : Prop :=
  ∃ s₀, init s₀ ∧ ReflTransGen step s₀ s

theorem Reachable.init {init : σ → Prop} {step : σ → σ → Prop} {s : σ} (h : init s) :
    Reachable init step s :=
  ⟨s, h, .refl⟩

theorem Reachable.step {init : σ → Prop} {step : σ → σ → Prop} {s t : σ}
    (h : Reachable init step s) (hst : step s t) : Reachable init step t := by
  obtain ⟨s₀, h₀, hr⟩ := h
  exact ⟨s₀, h₀, hr.tail hst⟩

theorem Reachable.invariant {init : σ → Prop} {step : σ → σ → Prop} {I : σ → Prop}
    (h₀ : ∀ s, init s → I s) (hstep : ∀ s t, I s → step s t → I t) {s : σ}
    (h : Reachable init step s) : I s := by
  obtain ⟨s₀, hi, hr⟩ := h
  induction hr with
  | refl => exact h₀ s₀ hi
  | tail _ hst ih => exact hstep _ _ ih hst

inductive Trace {ε : Type*} (init : σ → Prop) (step : σ → ε → σ → Prop) : List ε → σ → Prop
  | start {s : σ} (h : init s) : Trace init step [] s
  | step {es : List ε} {e : ε} {s t : σ} (h : Trace init step es s) (hst : step s e t) :
    Trace init step (es ++ [e]) t

theorem Trace.invariant {ε : Type*} {init : σ → Prop} {step : σ → ε → σ → Prop}
    {I : List ε → σ → Prop} (h₀ : ∀ s, init s → I [] s)
    (hstep : ∀ es e s t, I es s → step s e t → I (es ++ [e]) t) {es : List ε} {s : σ}
    (h : Trace init step es s) : I es s := by
  induction h with
  | start h => exact h₀ _ h
  | step _ hst ih => exact hstep _ _ _ _ ih hst

theorem Trace.mono {ε : Type*} {init : σ → Prop} {step step' : σ → ε → σ → Prop}
    (hstep : ∀ s e t, step s e t → step' s e t) {es : List ε} {s : σ} (h : Trace init step es s) :
    Trace init step' es s := by
  induction h with
  | start h => exact .start h
  | step _ hst ih => exact ih.step (hstep _ _ _ hst)

theorem Trace.cons {ε : Type*} {step : σ → ε → σ → Prop} {s t u : σ} {e : ε} {es : List ε}
    (hst : step s e t) (h : Trace (· = t) step es u) : Trace (· = s) step (e :: es) u := by
  induction h with
  | start h =>
    subst h
    have hstart : Trace (· = s) step [] s := .start rfl
    exact hstart.step hst
  | step _ hst' ih => exact ih.step hst'

/-- When some step lowers a rank until the goal is met, a run meets it in that many steps. -/
theorem exists_trace_of_rank {ε : Type*} (step : σ → ε → σ → Prop) (I goal : σ → Prop) (rank : σ → ℕ)
    (hstep : ∀ s, I s → goal s ∨ ∃ e t, step s e t ∧ I t ∧ rank t < rank s) {s : σ} (hs : I s) :
    ∃ es t, Trace (· = s) step es t ∧ es.length ≤ rank s ∧ I t ∧ goal t := by
  induction hn : rank s using Nat.strong_induction_on generalizing s with
  | _ n ih =>
    subst hn
    rcases hstep s hs with hgoal | ⟨e, t, hst, ht, hlt⟩
    · exact ⟨[], s, .start rfl, Nat.zero_le _, hs, hgoal⟩
    · obtain ⟨es, u, hrun, hlen, hu, hgoal⟩ := ih (rank t) hlt ht rfl
      exact ⟨e :: es, u, hrun.cons hst, by simp only [List.length_cons]; omega, hu, hgoal⟩

end OsShell.Runs
