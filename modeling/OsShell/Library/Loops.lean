import Mathlib

/-!
# Loops

One round of a loop takes a state to the next one, or ends the loop. Where only
finitely many states can be reached, the loop ends if and only if it does not
come back to a state.
-/

namespace OsShell.Loops

open Relation

variable {α : Type*} {next : α → Option α} {a b : α}

/-- The state after `n` rounds; none when the loop has ended. -/
def after (next : α → Option α) : ℕ → α → Option α
  | 0, a => some a
  | n + 1, a => (next a).bind (after next n)

def Ends (next : α → Option α) (a : α) : Prop :=
  ∃ n, after next n a = none

def Steps (next : α → Option α) (a b : α) : Prop :=
  next a = some b

def Returns (next : α → Option α) (a : α) : Prop :=
  ∃ b, ReflTransGen (Steps next) a b ∧ TransGen (Steps next) b b

theorem ends_of_none (h : next a = none) : Ends next a :=
  ⟨1, by rw [after, h, Option.bind_none]⟩

theorem ends_of_steps (h : Steps next a b) : Ends next a ↔ Ends next b := by
  constructor
  · rintro ⟨n, hn⟩
    cases n with
    | zero => nomatch hn
    | succ n =>
      refine ⟨n, ?_⟩
      rwa [after, h, Option.bind_some] at hn
  · rintro ⟨n, hn⟩
    refine ⟨n + 1, ?_⟩
    rwa [after, h, Option.bind_some]

theorem not_transGen_of_after {n : ℕ} (h : after next n b = none) :
    ¬ TransGen (Steps next) b b := by
  induction n generalizing b with
  | zero => nomatch h
  | succ n ih =>
    intro hcycle
    obtain ⟨c, hbc, hcb⟩ := TransGen.head'_iff.mp hcycle
    rw [after, hbc, Option.bind_some] at h
    exact ih h (TransGen.tail' hcb hbc)

theorem Ends.of_reflTransGen (h : Ends next a) (hab : ReflTransGen (Steps next) a b) :
    Ends next b := by
  induction hab with
  | refl => exact h
  | tail _ hstep ih => exact (ends_of_steps hstep).mp ih

theorem ends_of_finite (hfin : {b | ReflTransGen (Steps next) a b}.Finite)
    (hno : ¬ Returns next a) : Ends next a := by
  let Reached := {b // ReflTransGen (Steps next) a b}
  let later (x y : Reached) : Prop := TransGen (Steps next) y.1 x.1
  have : Finite Reached := hfin
  have : IsTrans Reached later := ⟨fun _ _ _ hxy hyz => hyz.trans hxy⟩
  have : Std.Irrefl later := ⟨fun x hx => hno ⟨x.1, x.2, hx⟩⟩
  have hwf : WellFounded later := Finite.wellFounded_of_trans_of_irrefl later
  have hall : ∀ x : Reached, Ends next x.1 := by
    intro x
    induction x using hwf.induction with
    | _ x ih =>
      cases hx : next x.1 with
      | none => exact ends_of_none hx
      | some c =>
        have hstep : Steps next x.1 c := hx
        exact (ends_of_steps hstep).mpr (ih ⟨c, x.2.tail hstep⟩ (TransGen.single hstep))
  exact hall ⟨a, ReflTransGen.refl⟩

theorem ends_iff_of_finite (hfin : {b | ReflTransGen (Steps next) a b}.Finite) :
    Ends next a ↔ ¬ Returns next a := by
  constructor
  · rintro h ⟨b, hab, hbb⟩
    obtain ⟨n, hn⟩ := h.of_reflTransGen hab
    exact not_transGen_of_after hn hbb
  · exact ends_of_finite hfin

end OsShell.Loops
