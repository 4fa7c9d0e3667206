import OsShell.Library.Runs

/-!
# The lock that disables interrupts

Any number of cores call `lock` and `unlock` of one lock; every atomic
operation is a step. `observed c` remembers the interrupt state in which the
core `c` called `lock`; the code has no such field. A core that is in neither
call and does not hold the lock may turn its interrupts on and off. The monitor
hints of the spinning loop are left out.
-/

namespace OsShell.InterruptSafeLock

open Runs

variable {C : Type*}

/-- Where a core is; the flag is its local `wasDisabled`. -/
inductive Pc
  | outside
  /-- about to disable interrupts -/
  | trying
  | disabled (wasDisabled : Bool)
  /-- the exchange found the lock taken -/
  | failed (wasDisabled : Bool)
  /-- the exchange took the lock -/
  | taken (wasDisabled : Bool)
  /-- between the calls -/
  | holding
  /-- `unlock` has read `was` -/
  | unlocking (wasDisabled : Bool)
  /-- it has released the lock -/
  | released (wasDisabled : Bool)
deriving DecidableEq

structure State (C : Type*) where
  taken : Bool
  was : Bool
  interruptsDisabled : C → Bool
  observed : C → Bool
  pc : C → Pc

def Pc.Owns : Pc → Prop
  | .taken _ => True
  | .holding => True
  | .unlocking _ => True
  | _ => False

instance (p : Pc) : Decidable p.Owns := by
  cases p <;> simp only [Pc.Owns] <;> infer_instance

variable [DecidableEq C]

namespace State

def goto (s : State C) (c : C) (p : Pc) : State C := { s with pc := Function.update s.pc c p }

/-- `Interrupts::disable` -/
def disable (s : State C) (c : C) : State C :=
  { s with interruptsDisabled := Function.update s.interruptsDisabled c true }

/-- `Interrupts::restore` -/
def restore (s : State C) (c : C) (wasDisabled : Bool) : State C :=
  if wasDisabled then s
  else { s with interruptsDisabled := Function.update s.interruptsDisabled c false }

end State

inductive Init : State C → Prop
  | start (interruptsDisabled observed : C → Bool) :
      Init ⟨false, false, interruptsDisabled, observed, fun _ => .outside⟩

inductive Step : State C → State C → Prop
  | toggle {s : State C} (c : C) (d : Bool) (hpc : s.pc c = .outside) :
      Step s { s with interruptsDisabled := Function.update s.interruptsDisabled c d }
  | lock {s : State C} (c : C) (hpc : s.pc c = .outside) :
      Step s ({ s with observed := Function.update s.observed c (s.interruptsDisabled c) }.goto c
        .trying)
  | disable {s : State C} (c : C) (hpc : s.pc c = .trying) :
      Step s ((s.disable c).goto c (.disabled (s.interruptsDisabled c)))
  | exchange {s : State C} (c : C) (w : Bool) (hpc : s.pc c = .disabled w) :
      Step s ({ s with taken := true }.goto c (if s.taken then .failed w else .taken w))
  | again {s : State C} (c : C) (w : Bool) (hpc : s.pc c = .failed w) :
      Step s ((s.restore c w).goto c .trying)
  | store {s : State C} (c : C) (w : Bool) (hpc : s.pc c = .taken w) :
      Step s ({ s with was := w }.goto c .holding)
  | unlock {s : State C} (c : C) (hpc : s.pc c = .holding) :
      Step s (s.goto c (.unlocking s.was))
  | release {s : State C} (c : C) (w : Bool) (hpc : s.pc c = .unlocking w) :
      Step s ({ s with taken := false }.goto c (.released w))
  | restore {s : State C} (c : C) (w : Bool) (hpc : s.pc c = .released w) :
      Step s ((s.restore c w).goto c .outside)

def Settled (s : State C) (c : C) : Pc → Prop
  | .outside => True
  | .trying => s.interruptsDisabled c = s.observed c
  | .disabled w | .failed w | .taken w | .unlocking w | .released w =>
    s.interruptsDisabled c = true ∧ w = s.observed c
  | .holding => s.interruptsDisabled c = true ∧ s.was = s.observed c

structure Inv (s : State C) : Prop where
  settled : ∀ c, Settled s c (s.pc c)
  owner : ∀ c, (s.pc c).Owns → s.taken = true
  unique : ∀ c d, (s.pc c).Owns → (s.pc d).Owns → c = d

variable {s t : State C}

omit [DecidableEq C] in
theorem inv_of_init (h : Init s) : Inv s := by
  obtain ⟨d, o⟩ := h
  exact ⟨fun _ => trivial, fun _ h => h.elim, fun _ _ h => h.elim⟩

theorem restore_eq (c : C) (w : Bool) (hc : s.interruptsDisabled c = true) :
    (s.restore c w).interruptsDisabled c = w := by
  cases w with
  | true => exact hc
  | false => exact Function.update_self ..

theorem restore_other {c d : C} (w : Bool) (hd : d ≠ c) :
    (s.restore c w).interruptsDisabled d = s.interruptsDisabled d := by
  cases w with
  | true => rfl
  | false => exact Function.update_of_ne hd _ _

theorem restore_same (c : C) (w : Bool) : (s.restore c w).taken = s.taken ∧
    (s.restore c w).was = s.was ∧ (s.restore c w).observed = s.observed ∧
    (s.restore c w).pc = s.pc := by
  cases w <;> exact ⟨rfl, rfl, rfl, rfl⟩

omit [DecidableEq C] in
theorem Inv.settled_other (I : Inv s) {c d : C} (hd : d ≠ c) (hpc : t.pc d = s.pc d)
    (hdis : t.interruptsDisabled d = s.interruptsDisabled d) (hobs : t.observed d = s.observed d)
    (hwas : t.was = s.was ∨ (s.pc c).Owns) : Settled t d (t.pc d) := by
  have hold := I.settled d
  rw [hpc]
  cases hp : s.pc d with
  | holding =>
    rw [hp] at hold
    rcases hwas with hwas | howns
    · exact ⟨hdis.trans hold.1, hwas.trans (hold.2.trans hobs.symm)⟩
    · exact absurd (I.unique d c (by rw [hp]; trivial) howns) hd
  | outside => trivial
  | _ =>
    rw [hp] at hold
    simp only [Settled, hdis, hobs] at hold ⊢
    exact hold

/-- What a step of the core `c` has to show: it keeps `c` settled, becomes owner only of a free
lock, and frees the lock or writes `was` only as its owner. -/
theorem Inv.frame (I : Inv s) (c : C) (hpc : ∀ d, d ≠ c → t.pc d = s.pc d)
    (hdis : ∀ d, d ≠ c → t.interruptsDisabled d = s.interruptsDisabled d)
    (hobs : ∀ d, d ≠ c → t.observed d = s.observed d) (hwas : t.was = s.was ∨ (s.pc c).Owns)
    (htaken : s.taken = true → t.taken = true ∨ (s.pc c).Owns) (hc : Settled t c (t.pc c))
    (howns : (t.pc c).Owns → t.taken = true ∧ ((s.pc c).Owns ∨ s.taken = false)) : Inv t where
  settled d := by
    by_cases hd : d = c
    · rw [hd]
      exact hc
    · exact I.settled_other hd (hpc d hd) (hdis d hd) (hobs d hd) hwas
  owner d hd := by
    by_cases hdc : d = c
    · rw [hdc] at hd
      exact (howns hd).1
    · rw [hpc d hdc] at hd
      rcases htaken (I.owner d hd) with ht | hs
      · exact ht
      · exact absurd (I.unique d c hd hs) hdc
  unique := by
    -- a core that owned the lock before is the one that moved, or the lock was not free
    have hnew : ∀ d, (t.pc d).Owns → (t.pc c).Owns → d = c := by
      intro d hd hc'
      by_contra hdc
      rw [hpc d hdc] at hd
      rcases (howns hc').2 with hs | hfree
      · exact hdc (I.unique d c hd hs)
      · exact absurd (I.owner d hd) (by rw [hfree]; exact Bool.false_ne_true)
    intro d e hd he
    by_cases hdc : d = c
    · rw [hdc] at hd ⊢
      exact (hnew e he hd).symm
    · by_cases hec : e = c
      · rw [hec] at he ⊢
        exact hnew d hd he
      · rw [hpc d hdc] at hd
        rw [hpc e hec] at he
        exact I.unique d e hd he

theorem Inv.step (I : Inv s) (h : Step s t) : Inv t := by
  cases h with
  | toggle c d hpc =>
    have hnot : ¬ (s.pc c).Owns := by rw [hpc]; exact id
    refine I.frame c (fun _ _ => rfl) (fun e he => Function.update_of_ne he _ _) (fun _ _ => rfl)
      (Or.inl rfl) Or.inl ?_ fun h => absurd h hnot
    rw [hpc]
    trivial
  | lock c hpc =>
    refine I.frame c (fun e he => Function.update_of_ne he _ _) (fun _ _ => rfl)
      (fun e he => Function.update_of_ne he _ _) (Or.inl rfl) Or.inl ?_ ?_
    · simp [State.goto, Settled]
    · simp [State.goto, Pc.Owns]
  | disable c hpc =>
    have hc := I.settled c
    rw [hpc] at hc
    refine I.frame c (fun e he => Function.update_of_ne he _ _)
      (fun e he => Function.update_of_ne he _ _) (fun _ _ => rfl) (Or.inl rfl) Or.inl ?_ ?_
    · simpa [State.goto, State.disable, Settled] using hc
    · simp [State.goto, State.disable, Pc.Owns]
  | exchange c w hpc =>
    have hc := I.settled c
    rw [hpc] at hc
    refine I.frame c (fun e he => Function.update_of_ne he _ _) (fun _ _ => rfl) (fun _ _ => rfl)
      (Or.inl rfl) (fun _ => Or.inl rfl) ?_ ?_
    · simp only [State.goto, Function.update_self]
      split <;> exact hc
    · simp only [State.goto, Function.update_self]
      cases htaken : s.taken with
      | true => exact fun h => h.elim
      | false => exact fun _ => ⟨trivial, Or.inr rfl⟩
  | again c w hpc =>
    have hc := I.settled c
    rw [hpc] at hc
    obtain ⟨htaken, hwas, hobs, hpcs⟩ := restore_same (s := s) c w
    refine I.frame c (fun e he => ?_) (fun e he => restore_other w he)
      (fun e _ => congrFun hobs e) (Or.inl hwas) (fun h => Or.inl (htaken.trans h)) ?_ ?_
    · simp only [State.goto, Function.update_of_ne he, hpcs]
    · simp only [State.goto, Function.update_self, Settled, hobs, restore_eq c w hc.1]
      exact hc.2
    · simp [State.goto, Pc.Owns]
  | store c w hpc =>
    have hc := I.settled c
    rw [hpc] at hc
    have howns : (s.pc c).Owns := by rw [hpc]; trivial
    refine I.frame c (fun e he => Function.update_of_ne he _ _) (fun _ _ => rfl) (fun _ _ => rfl)
      (Or.inr howns) Or.inl ?_ fun _ => ⟨I.owner c howns, Or.inl howns⟩
    simp only [State.goto, Function.update_self]
    exact hc
  | unlock c hpc =>
    have hc := I.settled c
    rw [hpc] at hc
    have howns : (s.pc c).Owns := by rw [hpc]; trivial
    refine I.frame c (fun e he => Function.update_of_ne he _ _) (fun _ _ => rfl) (fun _ _ => rfl)
      (Or.inl rfl) Or.inl ?_ fun _ => ⟨I.owner c howns, Or.inl howns⟩
    simp only [State.goto, Function.update_self]
    exact hc
  | release c w hpc =>
    have hc := I.settled c
    rw [hpc] at hc
    have howns : (s.pc c).Owns := by rw [hpc]; trivial
    refine I.frame c (fun e he => Function.update_of_ne he _ _) (fun _ _ => rfl) (fun _ _ => rfl)
      (Or.inl rfl) (fun _ => Or.inr howns) ?_ ?_
    · simp only [State.goto, Function.update_self]
      exact hc
    · simp [State.goto, Pc.Owns]
  | restore c w hpc =>
    obtain ⟨htaken, hwas, hobs, hpcs⟩ := restore_same (s := s) c w
    refine I.frame c (fun e he => ?_) (fun e he => restore_other w he)
      (fun e _ => congrFun hobs e) (Or.inl hwas) (fun h => Or.inl (htaken.trans h)) ?_ ?_
    · simp only [State.goto, Function.update_of_ne he, hpcs]
    · simp [State.goto, Settled]
    · simp [State.goto, Pc.Owns]

/-- One core at a time owns the lock, with its interrupts off, and the last step of `unlock` puts
them back to what they were when the core called `lock`. -/
structure Correct (s : State C) : Prop where
  exclusive : ∀ c d, (s.pc c).Owns → (s.pc d).Owns → c = d
  disabled : ∀ c, (s.pc c).Owns → s.interruptsDisabled c = true
  restores : ∀ c w, s.pc c = .released w → (s.restore c w).interruptsDisabled c = s.observed c

omit [DecidableEq C] in
theorem Inv.disabled (I : Inv s) (c : C) (h : (s.pc c).Owns) : s.interruptsDisabled c = true := by
  have hc := I.settled c
  cases hp : s.pc c with
  | taken w | holding | unlocking w =>
    rw [hp] at hc
    exact hc.1
  | outside | trying | disabled w | failed w | released w =>
    rw [hp] at h
    exact h.elim

theorem lock_correct (h : Reachable Init Step s) : Correct s := by
  have I : Inv s := h.invariant (I := Inv) (fun s hs => inv_of_init hs) fun s t I hst => I.step hst
  refine ⟨I.unique, I.disabled, fun c w hpc => ?_⟩
  have hc := I.settled c
  rw [hpc] at hc
  rw [restore_eq c w hc.1]
  exact hc.2

/-- Core 0 is about to restore its interrupts while core 1, which called with them off, has the
lock already. -/
theorem two_cores_correct : ∃ s : State (Fin 2), s.pc 0 = .released false ∧ s.pc 1 = .taken true ∧
    Correct s := by
  have h₀ : Reachable Init Step (⟨false, false, ![false, true], fun _ => false, fun _ => .outside⟩ :
      State (Fin 2)) := .init (.start _ _)
  exact ⟨_, by decide, by decide, lock_correct (((((((((h₀.step (.lock 0 rfl)).step
    (.disable 0 (by decide))).step (.exchange 0 false (by decide))).step
    (.store 0 false (by decide))).step (.unlock 0 (by decide))).step
    (.release 0 false (by decide))).step (.lock 1 (by decide))).step
    (.disable 1 (by decide))).step (.exchange 1 true (by decide)))⟩

end OsShell.InterruptSafeLock
