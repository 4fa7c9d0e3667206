import Mathlib

/-!
# Counting semaphores

What a semaphore is for: a number of tokens and the queue of those who wait for
one. `down` takes a token or joins the queue, `up` hands a token to the first in
the queue or keeps it. Each is one step; how a kernel makes it one is elsewhere.
Where threads hold the tokens of several semaphores, `Conserved` says that none
gets lost: those that are left and those that are held make a total.
-/

namespace OsShell.Tokens

variable {T : Type*}

structure Sem (T : Type*) where
  count : ℕ
  waiting : List T

namespace Sem

/-- The flag says whether the caller got a token and may go on. -/
def down (s : Sem T) (t : T) : Sem T × Bool :=
  if 0 < s.count then ({ s with count := s.count - 1 }, true)
  else ({ s with waiting := s.waiting ++ [t] }, false)

/-- The second part is the one who is handed the token. -/
def up (s : Sem T) : Sem T × Option T :=
  match s.waiting with
  | [] => ({ s with count := s.count + 1 }, none)
  | t :: ts => ({ s with waiting := ts }, some t)

/-- Nobody waits while there is a token. -/
def Settled (s : Sem T) : Prop :=
  0 < s.count → s.waiting = []

theorem down_of_pos {s : Sem T} (t : T) (h : 0 < s.count) :
    s.down t = (⟨s.count - 1, s.waiting⟩, true) :=
  if_pos h

theorem down_of_zero {s : Sem T} (t : T) (h : s.count = 0) :
    s.down t = (⟨s.count, s.waiting ++ [t]⟩, false) :=
  if_neg (by omega)

theorem Settled.down {s : Sem T} (h : s.Settled) (t : T) : (s.down t).1.Settled := by
  unfold Sem.down
  split
  · exact fun _ => h ‹_›
  · exact fun hpos => absurd hpos ‹_›

theorem Settled.up {s : Sem T} (h : s.Settled) : s.up.1.Settled := by
  unfold Sem.up
  split
  · exact fun _ => ‹_›
  · rename_i t ts hw
    intro hpos
    simp [h hpos] at hw

end Sem

section Conserved

variable {X : Type*}

/-- `holds t x`: the thread `t` has a token of the semaphore `x`. -/
def Conserved (sems : X → Sem T) (holds : T → X → Bool) (total : X → ℕ) : Prop :=
  ∃ A : X → Finset T, (∀ x t, t ∈ A x ↔ holds t x = true) ∧
    ∀ x, (sems x).count + (A x).card = total x

variable {sems : X → Sem T} {holds holds' : T → X → Bool} {total : X → ℕ} {x : X}

namespace Conserved

theorem pos (h : Conserved sems holds total) {t : T} (ht : holds t x = true) : 0 < total x := by
  obtain ⟨A, hA, htotal⟩ := h
  have := htotal x
  have := Finset.card_pos.mpr ⟨t, (hA x t).mpr ht⟩
  omega

theorem unique (h : Conserved sems holds total) (hone : total x = 1) {t u : T}
    (ht : holds t x = true) (hu : holds u x = true) : t = u := by
  obtain ⟨A, hA, htotal⟩ := h
  have hcard := htotal x
  exact Finset.card_le_one.mp (by omega) t ((hA x t).mpr ht) u ((hA x u).mpr hu)

theorem move [DecidableEq T] {sems' : X → Sem T} {total' : X → ℕ} (h : Conserved sems holds total)
    (t : T) (hother : ∀ u, u ≠ t → holds' u = holds u)
    (htotal : ∀ x, (sems' x).count + (holds' t x).toNat + total x =
      (sems x).count + (holds t x).toNat + total' x) : Conserved sems' holds' total' := by
  obtain ⟨A, hA, hsum⟩ := h
  refine ⟨fun x => if holds' t x then insert t (A x) else (A x).erase t, fun x u => ?_, fun x => ?_⟩
  · by_cases hu : u = t
    · rw [hu]
      cases hb : holds' t x <;> simp [hb]
    · rw [hother u hu, ← hA x u]
      cases hb : holds' t x <;> simp [hb, hu]
  · have hold := hsum x
    have hnew := htotal x
    have hmem : holds t x = true ↔ t ∈ A x := (hA x t).symm
    cases hb : holds t x <;> cases hb' : holds' t x <;>
      simp only [hb, hb', Bool.false_eq_true, false_iff, true_iff, Bool.toNat_false,
        Bool.toNat_true, if_true, if_false] at hmem hnew ⊢
    · rw [Finset.erase_eq_of_notMem hmem]
      omega
    · rw [Finset.card_insert_of_notMem hmem]
      omega
    · have := Finset.card_erase_of_mem hmem
      have := Finset.card_pos.mpr ⟨t, hmem⟩
      omega
    · rw [Finset.insert_eq_self.mpr hmem]
      omega

variable [DecidableEq T] [DecidableEq X]

theorem take (h : Conserved sems holds total) {t : T} (hpos : 0 < (sems x).count)
    (hfree : holds t x = false) (hother : ∀ u, u ≠ t → holds' u = holds u)
    (ht : ∀ y, holds' t y = (holds t y || y == x)) (waiting : List T) :
    Conserved (Function.update sems x ⟨(sems x).count - 1, waiting⟩) holds' total := by
  refine h.move t hother fun y => ?_
  rw [ht]
  by_cases hy : y = x
  · simp only [hy, Function.update_self, hfree, beq_self_eq_true, Bool.or_true, Bool.toNat_true,
      Bool.toNat_false]
    omega
  · rw [Function.update_of_ne hy, beq_false_of_ne hy, Bool.or_false]

theorem give (h : Conserved sems holds total) {t : T} (hhas : holds t x = true)
    (hother : ∀ u, u ≠ t → holds' u = holds u) (ht : ∀ y, holds' t y = (holds t y && y != x))
    (waiting : List T) :
    Conserved (Function.update sems x ⟨(sems x).count + 1, waiting⟩) holds' total := by
  refine h.move t hother fun y => ?_
  rw [ht, bne]
  by_cases hy : y = x
  · simp only [hy, Function.update_self, hhas, beq_self_eq_true, Bool.not_true, Bool.and_false,
      Bool.toNat_true, Bool.toNat_false]
  · rw [Function.update_of_ne hy, beq_false_of_ne hy, Bool.not_false, Bool.and_true]

end Conserved

end Conserved

variable {X : Type*} [DecidableEq T] [DecidableEq X]

structure Waits (sems : X → Sem T) (waitsFor : T → Option X) : Prop where
  mem : ∀ x t, t ∈ (sems x).waiting ↔ waitsFor t = some x
  nodup : ∀ x, (sems x).waiting.Nodup

variable {sems sems' : X → Sem T} {waitsFor : T → Option X} {x : X}

omit [DecidableEq T] [DecidableEq X] in
theorem Waits.congr (h : Waits sems waitsFor) (hw : ∀ x, (sems' x).waiting = (sems x).waiting) :
    Waits sems' waitsFor where
  mem x t := by
    rw [hw]
    exact h.mem x t
  nodup x := by
    rw [hw]
    exact h.nodup x

theorem Waits.join (h : Waits sems waitsFor) {t : T} (ht : waitsFor t = none) (count : ℕ) :
    Waits (Function.update sems x ⟨count, (sems x).waiting ++ [t]⟩)
      (Function.update waitsFor t (some x)) where
  mem y u := by
    have hnew : ∀ z, t ∉ (sems z).waiting := fun z hz => by
      rw [(h.mem z t).mp hz] at ht
      nomatch ht
    have hold := h.mem y u
    by_cases hu : u = t
    · by_cases hy : y = x
      · simp [hu, hy]
      · simp [hu, hy, hnew, Ne.symm hy]
    · by_cases hy : y = x
      · simpa [hu, hy] using hy ▸ hold
      · simpa [hu, hy] using hold
  nodup y := by
    by_cases hy : y = x
    · rw [hy, Function.update_self]
      refine List.nodup_append.mpr ⟨h.nodup x, List.nodup_singleton t, fun u hu v hv => ?_⟩
      rintro rfl
      rw [List.mem_singleton.mp hv, h.mem x t, ht] at hu
      nomatch hu
    · rw [Function.update_of_ne hy]
      exact h.nodup y

theorem Waits.leave (h : Waits sems waitsFor) {u : T} {us : List T}
    (hx : (sems x).waiting = u :: us) (count : ℕ) :
    Waits (Function.update sems x ⟨count, us⟩) (Function.update waitsFor u none) where
  mem y v := by
    have hold := h.mem y v
    have hfor : waitsFor u = some x := (h.mem x u).mp (by rw [hx]; exact List.mem_cons_self ..)
    have hnot : u ∉ us := (List.nodup_cons.mp (hx ▸ h.nodup x)).1
    by_cases hv : v = u
    · by_cases hy : y = x
      · simp [hv, hy, hnot]
      · rw [hv, hfor] at hold
        simpa [hv, hy, Ne.symm hy] using hold
    · by_cases hy : y = x
      · rw [hy, hx] at hold
        simpa [hv, hy] using hold
      · simpa [hv, hy] using hold
  nodup y := by
    by_cases hy : y = x
    · rw [hy, Function.update_self]
      exact (List.nodup_cons.mp (hx ▸ h.nodup x)).2
    · rw [Function.update_of_ne hy]
      exact h.nodup y

end OsShell.Tokens
