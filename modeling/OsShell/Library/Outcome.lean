import Mathlib

/-!
# Outcomes of computations that may stop early

A computation in `Except` either returns a value or stops with an error.
`Outcome c Q E` says what holds of the value and what holds of the error; the
rules follow the shape of the computation, and a bounded loop is handled by an
invariant that is indexed by the counter.
-/

namespace OsShell.Stopping

universe u

variable {ε : Type*} {α β σ : Type u}

def Outcome (c : Except ε α) (Q : α → Prop) (E : ε → Prop) : Prop :=
  match c with
  | .ok a => Q a
  | .error e => E e

@[simp] theorem ok_bind (a : α) (f : α → Except ε β) : (Except.ok a >>= f) = f a := rfl

@[simp] theorem error_bind (e : ε) (f : α → Except ε β) : (Except.error e >>= f) = .error e := rfl

theorem bind_eq_ok {c : Except ε α} {f : α → Except ε β} {b : β} :
    (c >>= f) = .ok b ↔ ∃ a, c = .ok a ∧ f a = .ok b := by
  cases c with
  | ok a => simp
  | error e => simp

theorem Outcome.ok {a : α} {Q : α → Prop} {E : ε → Prop} (h : Q a) :
    Outcome (Except.ok a) Q E :=
  h

theorem Outcome.error {e : ε} {Q : α → Prop} {E : ε → Prop} (h : E e) :
    Outcome (Except.error e) Q E :=
  h

theorem Outcome.bind {c : Except ε α} {f : α → Except ε β} {Q : β → Prop} {E : ε → Prop}
    (h : Outcome c (fun a => Outcome (f a) Q E) E) : Outcome (c >>= f) Q E := by
  cases c with
  | ok a => exact h
  | error e => exact h

theorem Outcome.mono {c : Except ε α} {Q Q' : α → Prop} {E : ε → Prop}
    (h : Outcome c Q E) (hQ : ∀ a, Q a → Q' a) : Outcome c Q' E := by
  cases c with
  | ok a => exact hQ a h
  | error e => exact h

theorem Outcome.weaken {c : Except ε α} {Q Q' : α → Prop} {E E' : ε → Prop}
    (h : Outcome c Q E) (hQ : ∀ a, Q a → Q' a) (hE : ∀ e, E e → E' e) : Outcome c Q' E' := by
  cases c with
  | ok a => exact hQ a h
  | error e => exact hE e h

theorem Outcome.of_ok {c : Except ε α} {Q : α → Prop} {E : ε → Prop} {a : α}
    (h : Outcome c Q E) (hc : c = .ok a) : Q a := by
  subst hc
  exact h

theorem Outcome.returns {c : Except ε α} {Q : α → Prop} (h : Outcome c Q fun _ => False) :
    ∃ a, c = .ok a ∧ Q a := by
  cases c with
  | ok a => exact ⟨a, rfl, h⟩
  | error e => exact h.elim

/-- `for (i = lo; i < lo + n; i++) body`, on a state that the body changes. -/
def forRange (lo n : ℕ) (body : ℕ → σ → Except ε σ) (s : σ) : Except ε σ :=
  match n with
  | 0 => .ok s
  | n + 1 => body lo s >>= forRange (lo + 1) n body

theorem Outcome.forRange {lo n : ℕ} {body : ℕ → σ → Except ε σ} {s : σ} (P : ℕ → σ → Prop)
    {E : ε → Prop} (h₀ : P lo s)
    (hbody : ∀ i s, lo ≤ i → i < lo + n → P i s → Outcome (body i s) (P (i + 1)) E) :
    Outcome (Stopping.forRange lo n body s) (P (lo + n)) E := by
  induction n generalizing lo s with
  | zero => exact h₀
  | succ n ih =>
    refine Outcome.bind ((hbody lo s le_rfl (by omega) h₀).mono fun t ht => ?_)
    have := ih ht fun i s hi hin hP => hbody i s (by omega) (by omega) hP
    rwa [Nat.add_right_comm] at this

theorem forRange_eq_foldlM {τ : Type*} {lo n : ℕ} {body : ℕ → σ → Except ε σ}
    {step : σ → τ → Except ε σ} {ops : ℕ → List τ} {s : σ} (R : ℕ → σ → Prop) (h₀ : R lo s)
    (hbody : ∀ i s, lo ≤ i → i < lo + n → R i s → body i s = (ops i).foldlM step s)
    (hnext : ∀ i s t, lo ≤ i → i < lo + n → R i s → (ops i).foldlM step s = .ok t → R (i + 1) t) :
    Stopping.forRange lo n body s = ((List.range' lo n).flatMap ops).foldlM step s := by
  induction n generalizing lo s with
  | zero => rfl
  | succ n ih =>
    rw [List.range'_succ, List.flatMap_cons, List.foldlM_append, Stopping.forRange,
      hbody lo s le_rfl (by omega) h₀]
    cases hops : (ops lo).foldlM step s with
    | error e => rfl
    | ok t =>
      exact ih (hnext lo s t le_rfl (by omega) h₀ hops)
        (fun i s hi hin => hbody i s (by omega) (by omega))
        fun i s t hi hin => hnext i s t (by omega) (by omega)

theorem forRange_flag {lo n : ℕ} {body : ℕ → Bool × σ → Except ε (Bool × σ)}
    {body' : ℕ → σ → Except ε σ} {flag : ℕ → Bool} {b : Bool} {s : σ}
    (hbody : ∀ i b s, body i (b, s) = body' i s >>= fun t => .ok (b || flag i, t)) :
    Stopping.forRange lo n body (b, s) =
      Stopping.forRange lo n body' s >>= fun t => .ok (b || (List.range' lo n).any flag, t) := by
  induction n generalizing lo b s with
  | zero => simp [Stopping.forRange]
  | succ n ih =>
    rw [Stopping.forRange, Stopping.forRange, hbody, List.range'_succ, List.any_cons, ← Bool.or_assoc]
    cases body' lo s with
    | error e => rfl
    | ok t => exact ih

-- the rules above are all there is to know; unfolding would run the computation
attribute [irreducible] Outcome

end OsShell.Stopping
