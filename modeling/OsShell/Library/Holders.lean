import Mathlib

/-!
# Who holds a value

Places that may hold a value each. `holders` are those that hold a given one,
but for some places that are left out. Each lemma is about one change: a place
is left out, counted again or written.
-/

namespace OsShell.Holders

variable {L V : Type*} [Fintype L] [DecidableEq L] [DecidableEq V]

def holders (f : L → Option V) (X : Finset L) (v : V) : Finset L :=
  Finset.univ.filter fun l => f l = some v ∧ l ∉ X

variable {f : L → Option V} {X : Finset L} {l : L} {v : V}

@[simp] theorem mem_holders : l ∈ holders f X v ↔ f l = some v ∧ l ∉ X := by
  simp [holders]

theorem holders_insert : holders f (insert l X) v = (holders f X v).erase l := by
  ext r
  simp only [mem_holders, Finset.mem_insert, Finset.mem_erase]
  tauto

theorem card_holders_lt (hl : l ∈ X) : (holders f X v).card < Fintype.card L :=
  Finset.card_lt_univ_of_notMem fun h => (mem_holders.mp h).2 hl

theorem card_leave (hl : f l = some v) (hX : l ∉ X) :
    (holders f (insert l X) v).card + 1 = (holders f X v).card := by
  rw [holders_insert]
  exact Finset.card_erase_add_one (mem_holders.mpr ⟨hl, hX⟩)

theorem holders_leave (hl : f l ≠ some v) : holders f (insert l X) v = holders f X v := by
  rw [holders_insert]
  exact Finset.erase_eq_of_notMem fun h => hl (mem_holders.mp h).1

theorem card_swap {r : L} (heq : f l = f r) (hl : l ∉ X) (hr : r ∉ X) :
    (holders f (insert l X) v).card = (holders f (insert r X) v).card := by
  by_cases hv : f l = some v
  · have := card_leave hv hl
    have := card_leave (heq ▸ hv) hr
    omega
  · rw [holders_leave hv, holders_leave (heq ▸ hv)]

theorem holders_update (hl : l ∈ X) (w : Option V) :
    holders (Function.update f l w) X v = holders f X v := by
  ext r
  by_cases hr : r = l
  · simp [hr, hl]
  · simp [Function.update_of_ne hr]

theorem holders_zero : (holders f X v).card = 0 ↔ ∀ r, f r = some v → r ∈ X := by
  rw [Finset.card_eq_zero, Finset.eq_empty_iff_forall_notMem]
  simp

end OsShell.Holders
