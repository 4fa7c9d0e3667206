import Mathlib

/-!
# What an allocator is for

An allocator hands out sets of cells under pointers. Live pointers own
pairwise disjoint cells, and no step changes a cell that belongs to a pointer
the step is not about. Which cells a pointer gets, and what they hold at
first, is left open.
-/

namespace OsShell.Allocator

variable {P I V : Type*}

structure State (P I V : Type*) where
  live : Set P
  owns : P → Set I
  value : I → V

def Keeps (s t : State P I V) (L : Set P) : Prop :=
  ∀ p ∈ L, t.owns p = s.owns p ∧ ∀ i ∈ s.owns p, t.value i = s.value i

inductive Step (s t : State P I V) : Prop
  | alloc (p : P) (fresh : p ∉ s.live) (apart : ∀ q ∈ s.live, Disjoint (t.owns p) (s.owns q))
      (live : t.live = insert p s.live) (keeps : Keeps s t s.live)
  | release (p : P) (held : p ∈ s.live) (live : t.live = s.live \ {p})
      (keeps : Keeps s t (s.live \ {p}))
  | write (p : P) (held : p ∈ s.live) (live : t.live = s.live)
      (owns : ∀ q ∈ s.live, t.owns q = s.owns q) (keeps : Keeps s t (s.live \ {p}))
  | skip (live : t.live = s.live) (keeps : Keeps s t s.live)

def Separated (s : State P I V) : Prop :=
  ∀ p ∈ s.live, ∀ q ∈ s.live, p ≠ q → Disjoint (s.owns p) (s.owns q)

theorem Step.separated {s t : State P I V} (hs : Separated s) (h : Step s t) : Separated t := by
  cases h with
  | alloc p fresh apart live keeps =>
    intro q hq r hr hqr
    rw [live] at hq hr
    rcases hq with rfl | hq <;> rcases hr with rfl | hr
    · exact absurd rfl hqr
    · exact (keeps r hr).1 ▸ apart r hr
    · exact ((keeps q hq).1 ▸ apart q hq).symm
    · rw [(keeps q hq).1, (keeps r hr).1]
      exact hs q hq r hr hqr
  | release p held live keeps =>
    intro q hq r hr hqr
    rw [live] at hq hr
    rw [(keeps q hq).1, (keeps r hr).1]
    exact hs q hq.1 r hr.1 hqr
  | write p held live owns keeps =>
    intro q hq r hr hqr
    rw [live] at hq hr
    rw [owns q hq, owns r hr]
    exact hs q hq r hr hqr
  | skip live keeps =>
    intro q hq r hr hqr
    rw [live] at hq hr
    rw [(keeps q hq).1, (keeps r hr).1]
    exact hs q hq r hr hqr

end OsShell.Allocator
