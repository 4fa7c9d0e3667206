import OsShell.Process.Exit
import OsShell.Process.Fork
import OsShell.Process.HandleRuns

/-!
# What a parent learns of its child

Which child a handle stands for is read off the calls that have returned:
`fork` binds it, the first `wait` or `close` after that unbinds it. Seen from
one future, whatever the processes do is a step of the future or nothing.
-/

namespace OsShell.Processes

open Runs Futures Futures.Future PhysMem Vmm

variable {F S P : Type}

def childAt (p : Process F S P) (id : Id) : Option P :=
  (lookup p id).bind Obj.child?

section Tables

variable {p p' : Process F S P} {q : P} {id : Id}

theorem childAt_handle (p : Process F S P) (i : Fin 10) :
    childAt p (handle .child i) = p.children i := by
  unfold childAt
  rw [lookup_handle]
  cases h : p.children i <;> simp [Process.slot, h, Obj.child?]

theorem childAt_tables (p : Process F S P) (files : Fin 10 → Option F) (sems : Fin 10 → Option S) :
    childAt { p with files, sems } = childAt p := by
  funext id
  unfold childAt lookup
  cases decode id with
  | none => rfl
  | some ki =>
    obtain ⟨k, i⟩ := ki
    cases k with
    | child => rfl
    | file => cases h : p.files i <;> cases h' : files i <;> simp [Process.slot, h, h', Obj.child?]
    | sem => cases h : p.sems i <;> cases h' : sems i <;> simp [Process.slot, h, h', Obj.child?]

theorem childAt_of_children (h : ∀ i, p.children i = none) : childAt p = fun _ => none := by
  funext id
  unfold childAt lookup
  cases decode id with
  | none => rfl
  | some ki =>
    obtain ⟨k, i⟩ := ki
    cases k with
    | child => simp [Process.slot, h i]
    | file => cases hf : p.files i <;> simp [Process.slot, hf, Obj.child?]
    | sem => cases hs : p.sems i <;> simp [Process.slot, hs, Obj.child?]

theorem childAt_close (p : Process F S P) (id : Id) : childAt (p.close id).2 =
    Function.update (childAt p) id none := by
  funext id'
  unfold childAt
  rw [(close_eq p id).2]
  by_cases hid : id' = id <;> simp [hid]

theorem childAt_wait (p : Process F S P) (id : Id) : childAt (p.wait id).2.2 =
    Function.update (childAt p) id none := by
  funext id'
  unfold childAt
  rw [(wait_eq p id).2.2]
  by_cases hid : id' = id
  · subst hid
    cases h : (lookup p id').bind Obj.child? <;> simp [h]
  · simp [hid]

theorem close_output (p : Process F S P) (id : Id) : (p.close id).2.output = p.output := by
  unfold Process.close
  split
  · split <;> rfl
  · split
    · split <;> rfl
    · split
      · split <;> rfl
      · rfl

theorem wait_output (p : Process F S P) (id : Id) : (p.wait id).2.2.output = p.output := by
  unfold Process.wait
  split
  · rfl
  · split <;> rfl

theorem wait_childAt (p : Process F S P) (id : Id) :
    (p.wait id).2.1 = childAt p id ∧ (p.wait id).1 = if (childAt p id).isSome then 0 else -1 :=
  ⟨(wait_eq p id).2.1, (wait_eq p id).1⟩

theorem close_childAt (p : Process F S P) (i : Fin 10) :
    (p.close (handle .child i)).1 = if (childAt p (handle .child i)).isSome then 0 else -1 := by
  rw [(close_eq p _).1, childAt_handle, lookup_handle]
  cases h : p.children i <;> simp [Process.slot, h]

theorem close_of_childAt (h : (childAt p id).isSome) : (p.close id).1 = 0 := by
  rw [(close_eq p id).1]
  unfold childAt at h
  cases hl : lookup p id <;> simp_all

theorem fork_cases {c : Config} {shared : ℕ} {m : Machine} {r : Forked F S P}
    (hcall : fork c shared q p m = .ok r) : r.parent.output = p.output ∧
      (r.child = none → r.parent = p) ∧
      ∀ child, r.child = some child → child.output = q ∧ ∀ i, child.children i = none := by
  unfold fork at hcall
  split at hcall
  · obtain rfl := Except.ok.inj hcall
    exact ⟨rfl, fun _ => rfl, nofun⟩
  · cases hmake : (make c shared q m : Except Halt (Process F S P × Machine)) with
    | error e => rw [hmake] at hcall; cases hcall
    | ok made =>
      rw [hmake] at hcall
      simp only [Stopping.ok_bind] at hcall
      have hmade : made.1.output = q ∧ ∀ i, made.1.children i = none := by
        unfold make at hmake
        cases hpd : makePd c shared m with
        | error e => rw [hpd] at hmake; cases hmake
        | ok x => rw [hpd] at hmake; cases hmake; exact ⟨rfl, fun _ => rfl⟩
      cases hcopy : copyPrivate p.pd made.1.pd made.2 with
      | error e => rw [hcopy] at hcall; cases hcall
      | ok m' =>
        rw [hcopy] at hcall
        obtain rfl := Except.ok.inj hcall
        refine ⟨rfl, nofun, fun child hchild => ?_⟩
        obtain rfl := Option.some.inj hchild
        exact hmade

end Tables

variable [DecidableEq P]

def Exchange.replay (p : P) (M : Id → Option P) : Exchange P → Id → Option P
  | .fork p' q r => if p' = p then Function.update M (.ofInt 32 r) (some q) else M
  | .wait p' id r _ => if p' = p ∧ r = 0 then Function.update M id none else M
  | .close p' id r => if p' = p ∧ r = 0 then Function.update M id none else M
  | _ => M

/-- The children of `p` by handle, after the calls that have returned. -/
def bound (es : List (Exchange P)) (p : P) : Id → Option P :=
  es.foldl (Exchange.replay p) fun _ => none

@[simp] theorem bound_snoc (es : List (Exchange P)) (e : Exchange P) (p : P) :
    bound (es ++ [e]) p = e.replay p (bound es p) := by
  simp [bound, List.foldl_append]

def Pc.setter : Pc P → Setting Status
  | .exiting stage => stage
  | _ => .outside

def Pc.getter (q : P) : Pc P → Getting
  | .waiting _ q' stage => if q' = q then stage else .outside
  | _ => .outside

def World.view (w : World F S P) (q : P) : Futures.State P Status :=
  ⟨w.future q, (w.pc q).setter, fun p => (w.pc p).getter q⟩

def Pc.awaits : Pc P → Option (Id × P)
  | .waiting id q _ | .storing id q _ => some (id, q)
  | _ => none

def Exchange.process : Exchange P → P
  | .fork p _ _ | .wait p _ _ _ | .close p _ _ | .exit p _ | .ready p | .step p => p

/-- How many steps `get` or `set` still takes at most. -/
def Pc.left : Pc P → ℕ
  | .waiting _ _ stage => stage.left
  | .exiting stage => stage.left
  | _ => 0

structure Inv (es : List (Exchange P)) (w : World F S P) : Prop where
  output : ∀ p, w.pc p ≠ .unborn → (w.proc p).output = p
  view : ∀ q, Futures.Inv (w.view q)
  binds : ∀ p, bound es p = childAt (w.proc p)
  awaits : ∀ p id q, (w.pc p).awaits = some (id, q) → childAt (w.proc p) id = some q
  born : ∀ p id q, childAt (w.proc p) id = some q → w.pc q ≠ .unborn
  stored : ∀ p id q v, w.pc p = .storing id q v →
    (w.pc q).setter = .waking v ∨ (w.pc q).setter = .done v
  exits : ∀ q v, .exit q v ∈ es ↔ (w.pc q).setter.value = some v
  ready : ∀ q v, (w.pc q).setter = .waking v ∨ (w.pc q).setter = .done v → .ready q ∈ es
  forked : ∀ q, w.pc q = .unborn → ∀ p r, .fork p q r ∉ es
  empty : ∀ q, w.pc q = .unborn → ∀ id, childAt (w.proc q) id = none
  parent : ∀ p id p' id' q, childAt (w.proc p) id = some q → childAt (w.proc p') id' = some q → p = p'
  inside : ∀ p id q, w.pc p ≠ .waiting id q .outside

variable {w w' : World F S P} {es : List (Exchange P)} {e : Exchange P} {p q u : P}
  {f f' : Future P Status} {woken : Option P}

omit [DecidableEq P] in
theorem get_woken {st st' : Getting} (h : f.get p st = some (f', some u, st')) : u ∈ f.go.waiting := by
  cases st with
  | upping =>
    simp only [Future.get] at h
    cases hw : f.go.waiting with
    | nil => simp [Tokens.Sem.up, hw] at h
    | cons t ts => simp_all [Tokens.Sem.up]
  | _ => simp [Future.get] at h

omit [DecidableEq P] in
theorem set_woken {st st' : Setting Status} (h : f.set st = some (f', some u, st')) :
    u ∈ f.go.waiting := by
  cases st with
  | waking v =>
    simp only [Future.set] at h
    cases hw : f.go.waiting with
    | nil => simp [Tokens.Sem.up, hw] at h
    | cons t ts => simp_all [Tokens.Sem.up]
  | _ => simp [Future.set] at h

omit [DecidableEq P] in
theorem setting_cases (p : P) (st : Setting Status) :
    setting p st = .ready p ∨ setting p st = .step p := by
  cases st with
  | readying v => exact .inl rfl
  | _ => exact .inr rfl

omit [DecidableEq P] in
theorem set_stage {st st' : Setting Status} (h : f.set st = some (f', woken, st')) :
    st'.value = st.value ∧ (∀ v, st = .waking v ∨ st = .done v → st' = .done v) ∧
      ∀ v, st' = .waking v ∨ st' = .done v → st = .readying v ∨ st = .waking v := by
  cases st with
  | asserting v =>
    simp only [Future.set] at h
    split at h <;> cases h
    exact ⟨rfl, by simp, by simp⟩
  | storing v | readying v | waking v =>
    cases h
    exact ⟨rfl, by simp, by simp⟩
  | outside | done v => cases h

theorem view_getter {C : Pc P} (hset : C.setter = (w.pc p).setter) :
    World.view { w with pc := Function.update w.pc p C } q =
      { w.view q with getter := Function.update (w.view q).getter p (C.getter q) } := by
  simp only [World.view]
  congr 1
  · by_cases hp : q = p <;> simp [hp, hset]
  · funext p'
    by_cases hp : p' = p <;> simp [hp]

theorem view_setter {C : Pc P} (hget : C.getter q = (w.pc p).getter q) :
    World.view { w with pc := Function.update w.pc p C } q =
      { w.view q with setter := if q = p then C.setter else (w.pc q).setter } := by
  simp only [World.view]
  congr 1
  · by_cases hp : q = p <;> simp [hp]
  · funext p'
    by_cases hp : p' = p <;> simp [hp, hget]

theorem view_same {C : Pc P} (hset : C.setter = (w.pc p).setter)
    (hget : C.getter q = (w.pc p).getter q) :
    World.view { w with pc := Function.update w.pc p C } q = w.view q := by
  rw [view_getter hset, hget]
  change { w.view q with getter := Function.update (w.view q).getter p ((w.view q).getter p) } = _
  rw [Function.update_eq_self]

theorem wakeUp_cases (pc : P → Pc P) (woken : Option P) (p : P) : wakeUp pc woken p = pc p ∨
    ∃ id q stage, pc p = .waiting id q stage ∧ wakeUp pc woken p = .waiting id q .upping := by
  cases woken with
  | none => exact .inl rfl
  | some u =>
    simp only [wakeUp]
    by_cases hp : p = u
    · subst hp
      rw [Function.update_self]
      cases hpc : pc p <;> simp
    · rw [Function.update_of_ne hp]
      exact .inl rfl

theorem wakeUp_setter (pc : P → Pc P) (woken : Option P) (p : P) :
    (wakeUp pc woken p).setter = (pc p).setter := by
  rcases wakeUp_cases pc woken p with h | ⟨id, q, stage, h, h'⟩
  · rw [h]
  · rw [h, h']
    rfl

theorem wakeUp_awaits (pc : P → Pc P) (woken : Option P) (p : P) :
    (wakeUp pc woken p).awaits = (pc p).awaits := by
  rcases wakeUp_cases pc woken p with h | ⟨id, q, stage, h, h'⟩
  · rw [h]
  · rw [h, h']
    rfl

theorem wakeUp_getter {pc : P → Pc P} (hwoken : ∀ u, woken = some u → (pc u).getter q = .blocked)
    (q' p : P) : (wakeUp pc woken p).getter q' =
      if q' = q then wake (fun p => (pc p).getter q) woken p else (pc p).getter q' := by
  cases woken with
  | none => by_cases hq : q' = q <;> simp [wakeUp, wake, hq]
  | some u =>
    have hu := hwoken u rfl
    simp only [wakeUp, wake]
    by_cases hp : p = u
    · subst hp
      rw [Function.update_self, Function.update_self]
      cases hpc : pc p with
      | waiting id q'' st =>
        rw [hpc] at hu
        simp only [Pc.getter] at hu ⊢
        by_cases hq : q'' = q
        · subst hq
          by_cases hq' : q' = q''
          · simp [hq']
          · simp [hq', Ne.symm hq']
        · simp [hq] at hu
      | _ => simp [hpc, Pc.getter] at hu
    · rw [Function.update_of_ne hp, Function.update_of_ne hp]
      by_cases hq : q' = q <;> simp [hq]

theorem wakeUp_left {pc : P → Pc P} (hwoken : ∀ u, woken = some u → (pc u).getter q = .blocked)
    (p : P) : (wakeUp pc woken p).left ≤ (pc p).left := by
  cases woken with
  | none => exact le_rfl
  | some u =>
    have hu := hwoken u rfl
    simp only [wakeUp]
    by_cases hp : p = u
    · subst hp
      rw [Function.update_self]
      cases hpc : pc p with
      | waiting id q' stage =>
        rw [hpc, Pc.getter] at hu
        split at hu
        · simp [hu, Pc.left, Getting.left]
        · cases hu
      | _ => exact le_rfl
    · rw [Function.update_of_ne hp]

theorem view_exit (hset : (w.pc p).setter = .outside)
    (hget : ∀ q, (w.pc p).getter q = .outside) (v : Status) (q : P) :
    World.view { w with pc := Function.update w.pc p (.exiting (.asserting v)) } q = w.view q ∨
      Futures.Step (w.view q)
        (World.view { w with pc := Function.update w.pc p (.exiting (.asserting v)) } q) := by
  have hgoto : (Pc.exiting (.asserting v)).getter q = (w.pc p).getter q := (hget q).symm ▸ rfl
  rw [view_setter hgoto]
  by_cases hq : q = p
  · subst hq
    right
    rw [if_pos rfl]
    exact .call hset
  · left
    rw [if_neg hq]
    rfl

theorem view_wake {pc : P → Pc P} (hwoken : ∀ u, woken = some u → (pc u).getter q = .blocked)
    (w : World F S P) (q' : P) :
    World.view { w with future := Function.update w.future q f, pc := wakeUp pc woken } q' =
      if q' = q then ⟨f, (pc q).setter, wake (World.view { w with pc } q).getter woken⟩
      else World.view { w with pc } q' := by
  simp only [World.view, wakeUp_setter]
  by_cases hq : q' = q
  · subst hq
    rw [if_pos rfl, Function.update_self]
    congr 1
    funext p
    rw [wakeUp_getter hwoken, if_pos rfl]
  · rw [if_neg hq, Function.update_of_ne hq]
    congr 1
    funext p
    rw [wakeUp_getter hwoken, if_neg hq]

namespace Inv

theorem blocked (h : Inv es w) (hu : u ∈ (w.future q).go.waiting) : (w.pc u).getter q = .blocked :=
  ((h.view q).lined.waiting u).mp hu

theorem get_wakes (h : Inv es w) {id : Id} {stage stage' : Getting}
    (hpc : w.pc p = .waiting id q stage) (hget : (w.future q).get p stage = some (f, woken, stage'))
    (hu : woken = some u) : (Function.update w.pc p (.waiting id q stage') u).getter q = .blocked := by
  subst hu
  have hblocked := h.blocked (get_woken hget)
  have hup : u ≠ p := fun heq => by
    rw [heq, hpc, Pc.getter, if_pos rfl] at hblocked
    rw [hblocked] at hget
    cases hget
  rwa [Function.update_of_ne hup]

theorem set_wakes (h : Inv es w) {stage stage' : Setting Status} (hpc : w.pc p = .exiting stage)
    (hset : (w.future p).set stage = some (f, woken, stage')) (hu : woken = some u) :
    (Function.update w.pc p (.exiting stage') u).getter p = .blocked := by
  subst hu
  have hblocked := h.blocked (set_woken hset)
  have hup : u ≠ p := fun heq => by
    rw [heq, hpc] at hblocked
    cases hblocked
  rwa [Function.update_of_ne hup]

theorem view_move (h : Inv es w) (hst : Move w e w') (q : P) :
    w'.view q = w.view q ∨ Futures.Step (w.view q) (w'.view q) ∨
      w'.view q = ⟨.new 0, .outside, fun _ => .outside⟩ := by
  cases hst with
  | @fork p q' c shared m r child hpc hnew hcall hchild =>
    have hout : ∀ p, (w.pc p).getter q' = .outside := fun p => by
      cases hp : w.pc p with
      | waiting id q'' st =>
        by_cases hq : q'' = q'
        · exact absurd hnew (h.born p id q' (h.awaits p id q' (by rw [hp, ← hq]; rfl)))
        · simp [Pc.getter, hq]
      | _ => rfl
    by_cases hq : q = q'
    · subst hq
      right; right
      simp only [World.view, Function.update_self, Pc.setter]
      congr 1
      funext p
      by_cases hp : p = q
      · simp [hp, Pc.getter]
      · rw [Function.update_of_ne hp]
        exact hout p
    · left
      have hview : World.view { w with pc := Function.update w.pc q' .running } q = w.view q :=
        view_same (by rw [hnew]; rfl) (by rw [hnew]; rfl)
      rw [← hview]
      simp only [World.view, Function.update_of_ne hq]
  | forkFails hpc hcall hchild => exact .inl rfl
  | @wait p q' id hpc hcall =>
    by_cases hq : q' = q
    · subst hq
      right; left
      rw [view_getter (by rw [hpc]; rfl)]
      simp only [Pc.getter, if_true]
      exact .enter (by simp [World.view, hpc, Pc.getter])
    · exact .inl (view_same (by rw [hpc]; rfl) (by simp [hpc, Pc.getter, hq]))
  | waitFails hpc hcall => exact .inl rfl
  | @get p q' id stage stage' f woken hpc hget =>
    have hstage : (w.pc p).getter q' = stage := by simp [hpc, Pc.getter]
    rw [view_wake fun u => h.get_wakes hpc hget]
    have hview := view_getter (w := w) (p := p) (q := q')
      (C := .waiting id q' stage') (by rw [hpc]; rfl)
    by_cases hq : q = q'
    · subst hq
      right; left
      rw [if_pos rfl, hview]
      have hset : (Function.update w.pc p (.waiting id q stage') q).setter = (w.view q).setter := by
        by_cases hp : q = p <;> simp [hp, Pc.setter, World.view, hpc]
      rw [hset]
      simp only [Pc.getter, if_true]
      exact .get (s := w.view q) (by simpa only [World.view, hstage] using hget)
    · left
      rw [if_neg hq]
      exact view_same (by rw [hpc]; rfl) (by simp [hpc, Pc.getter, Ne.symm hq])
  | @gets p q' id hpc =>
    by_cases hq : q' = q
    · subst hq
      right; left
      rw [view_getter (by rw [hpc]; rfl)]
      exact .leave (by simp [World.view, hpc, Pc.getter])
    · exact .inl (view_same (by rw [hpc]; rfl) (by simp [hpc, Pc.getter, hq]))
  | @waits p q' id v hpc =>
    left
    exact view_same (w := w) (by rw [hpc]; rfl) (by rw [hpc]; rfl)
  | close hpc => exact .inl rfl
  | tables hpc => exact .inl rfl
  | @exit p v hpc =>
    exact (view_exit (by rw [hpc]; rfl) (fun _ => by rw [hpc]; rfl) v q).imp_right .inl
  | @pageFault p hpc =>
    refine (view_exit (p := p) ?_ (fun q => ?_) 1 q).imp_right .inl
    · rcases hpc with hpc | ⟨id, q', v, hpc⟩ <;> rw [hpc] <;> rfl
    · rcases hpc with hpc | ⟨id, q', v, hpc⟩ <;> rw [hpc] <;> rfl
  | @set p stage stage' f woken hpc hset =>
    have hout : (w.proc p).output = p := h.output p (by simp [hpc])
    rw [hout] at hset ⊢
    rw [view_wake fun u => h.set_wakes hpc hset]
    have hview := view_setter (w := w) (p := p) (q := q) (C := .exiting stage') (by rw [hpc]; rfl)
    by_cases hq : q = p
    · subst hq
      right; left
      rw [if_pos rfl, hview, Function.update_self]
      have hview' : (w.view q).setter = stage := by simp only [World.view, hpc, Pc.setter]
      exact .set (s := w.view q) (hview' ▸ hset)
    · left
      rw [if_neg hq, hview, if_neg hq]
      rfl

theorem goto (h : Inv es w) (C : Pc P) (future : P → Future P Status) (woken : Option P)
    (hview : ∀ q, Futures.Inv (World.view { w with future, pc := wakeUp (Function.update w.pc p C) woken } q))
    (hborn : w.pc p ≠ .unborn) (hborn' : C ≠ .unborn)
    (hawaits : ∀ id q, C.awaits = some (id, q) → childAt (w.proc p) id = some q)
    (hinside : ∀ id q, C ≠ .waiting id q .outside)
    (hstored : ∀ id q v, C = .storing id q v →
      (w.pc q).setter = .waking v ∨ (w.pc q).setter = .done v)
    (hkeeps : ∀ v, (w.pc p).setter = .waking v ∨ (w.pc p).setter = .done v →
      C.setter = .waking v ∨ C.setter = .done v)
    (hreplay : ∀ p' M, e.replay p' M = M)
    (hexits : ∀ q v, e = .exit q v ∨ (w.pc q).setter.value = some v ↔
      (Function.update w.pc p C q).setter.value = some v)
    (hready : ∀ v, C.setter = .waking v ∨ C.setter = .done v → .ready p ∈ es ++ [e])
    (hfork : ∀ p' q r, e ≠ .fork p' q r) :
    Inv (es ++ [e]) { w with future, pc := wakeUp (Function.update w.pc p C) woken } := by
  have hcases := wakeUp_cases (Function.update w.pc p C) woken
  have hsetter := wakeUp_setter (Function.update w.pc p C) woken
  have hwaits := wakeUp_awaits (Function.update w.pc p C) woken
  have hunborn : ∀ q, wakeUp (Function.update w.pc p C) woken q = .unborn ↔ w.pc q = .unborn := by
    intro q
    have := hcases q
    grind
  refine ⟨fun q hq => h.output q (mt (hunborn q).mpr hq), hview, fun q => ?_, fun q id q' hq => ?_,
    fun q id q' hq => mt (hunborn q').mp (h.born q id q' hq), fun q id q' v hq => ?_,
    fun q v => ?_, fun q v hq => ?_, fun q hq p' r hmem => ?_,
    fun q hq => h.empty q ((hunborn q).mp hq), h.parent, fun q id q' => ?_⟩
  · rw [bound_snoc, hreplay, h.binds]
  · have := h.awaits q id q'
    rw [hwaits] at hq
    grind
  · have := h.stored q id q' v
    have := hcases q
    rw [hsetter]
    grind
  · have := h.exits q v
    have := hexits q v
    rw [hsetter]
    grind
  · have := h.ready q v
    have := hready v
    rw [hsetter] at hq
    grind
  · have := h.forked q ((hunborn q).mp hq) p' r
    have := hfork p' q r
    grind
  · have := h.inside q id q'
    have := hinside id q'
    have := hcases q
    grind

theorem retable (h : Inv es w) {proc : Process F S P} (hborn : w.pc p ≠ .unborn)
    (hset : (w.pc p).setter = .outside)
    (hview : ∀ q, World.view { w with pc := Function.update w.pc p .running } q = w.view q)
    (houtput : proc.output = (w.proc p).output)
    (hown : childAt proc = e.replay p (childAt (w.proc p)))
    (hother : ∀ q ≠ p, ∀ M, e.replay q M = M)
    (hless : ∀ id q, childAt proc id = some q → childAt (w.proc p) id = some q)
    (hexit : ∀ q v, e ≠ .exit q v) (hfork : ∀ p' q r, e ≠ .fork p' q r) :
    Inv (es ++ [e]) { w with
      proc := Function.update w.proc p proc
      pc := Function.update w.pc p .running } := by
  have hunborn : ∀ q, Function.update w.pc p .running q = .unborn ↔ w.pc q = .unborn := by grind
  have hsetter : ∀ q, (Function.update w.pc p .running q).setter = (w.pc q).setter := fun q => by
    by_cases hqp : q = p
    · rw [hqp, Function.update_self, hset]
      rfl
    · rw [Function.update_of_ne hqp]
  refine ⟨fun q hq => ?_, fun q => hview q ▸ h.view q, fun q => ?_, fun q id q' hq => ?_,
    fun q id q' hq => mt (hunborn q').mp ?_, fun q id q' v hq => ?_, fun q v => ?_, fun q v hq => ?_,
    fun q hq p' r hmem => ?_, fun q hq id => ?_, fun q id q' id' c hq hq' => ?_, fun q id q' => ?_⟩
  · have := h.output q (mt (hunborn q).mpr hq)
    grind
  · rw [bound_snoc, h.binds]
    by_cases hqp : q = p
    · subst hqp
      simp only [Function.update_self, hown]
    · simp only [Function.update_of_ne hqp, hother q hqp]
  · by_cases hqp : q = p
    · simp [hqp, Pc.awaits] at hq
    · simp only [Function.update_of_ne hqp] at hq ⊢
      exact h.awaits q id q' hq
  · by_cases hqp : q = p
    · subst hqp
      simp only [Function.update_self] at hq
      exact h.born q id q' (hless id q' hq)
    · simp only [Function.update_of_ne hqp] at hq
      exact h.born q id q' hq
  · have := h.stored q id q' v
    simp only [hsetter]
    grind
  · have := h.exits q v
    have := hexit q v
    simp only [hsetter]
    grind
  · have := h.ready q v
    simp only [hsetter] at hq
    grind
  · have := h.forked q ((hunborn q).mp hq) p' r
    have := hfork p' q r
    grind
  · have hqp : q ≠ p := fun heq => hborn (heq ▸ (hunborn q).mp hq)
    simp only [Function.update_of_ne hqp]
    exact h.empty q ((hunborn q).mp hq) id
  · have hold : ∀ q id, childAt (Function.update w.proc p proc q) id = some c →
        childAt (w.proc q) id = some c := fun q id hq => by
      have := hless id c
      grind
    exact h.parent q id q' id' c (hold q id hq) (hold q' id' hq')
  · have := h.inside q id q'
    grind

theorem retable_running (h : Inv es w) {proc : Process F S P} (hrun : w.pc p = .running)
    (houtput : proc.output = (w.proc p).output)
    (hown : childAt proc = e.replay p (childAt (w.proc p)))
    (hother : ∀ q ≠ p, ∀ M, e.replay q M = M)
    (hless : ∀ id q, childAt proc id = some q → childAt (w.proc p) id = some q)
    (hexit : ∀ q v, e ≠ .exit q v) (hfork : ∀ p' q r, e ≠ .fork p' q r) :
    Inv (es ++ [e]) { w with proc := Function.update w.proc p proc } := by
  have hpc : Function.update w.pc p .running = w.pc := by rw [← hrun, Function.update_eq_self]
  have := h.retable (p := p) (by rw [hrun]; nofun) (by rw [hrun]; rfl) (fun q => by rw [hpc]) houtput
    hown hother hless hexit hfork
  rwa [hpc] at this

theorem fork (h : Inv es w) {c : Config} {shared : ℕ} {m : Machine} {r : Forked F S P}
    {child : Process F S P} (hpc : w.pc p = .running) (hnew : w.pc q = .unborn)
    (hcall : fork c shared q (w.proc p) m = .ok r) (hchild : r.child = some child)
    (hview : ∀ q', Futures.Inv (World.view
      { proc := Function.update (Function.update w.proc p r.parent) q child
        future := Function.update w.future q (.new 0)
        pc := Function.update w.pc q .running } q')) :
    Inv (es ++ [.fork p q r.id])
      { proc := Function.update (Function.update w.proc p r.parent) q child
        future := Function.update w.future q (.new 0)
        pc := Function.update w.pc q .running } := by
  obtain ⟨i, hlow, hid, hlookup⟩ := fork_allocates hcall (by rw [hchild]; rfl)
  obtain ⟨houtput, -, hmade⟩ := fork_cases hcall
  obtain ⟨hown, hnone⟩ := hmade child hchild
  have hpq : p ≠ q := fun heq => by rw [heq, hnew] at hpc; cases hpc
  have hchildren : childAt child = fun _ => none := childAt_of_children hnone
  have hparent : childAt r.parent = Function.update (childAt (w.proc p)) (handle .child i) (some q) := by
    funext id
    unfold childAt
    rw [hlookup]
    by_cases hi : id = handle .child i <;> simp [hi, Obj.child?]
  have hsetter : ∀ q', (Function.update w.pc q .running q').setter = (w.pc q').setter := fun q' => by
    by_cases hq : q' = q
    · rw [hq, Function.update_self, hnew]
      rfl
    · rw [Function.update_of_ne hq]
  have hproc : ∀ q', childAt (Function.update (Function.update w.proc p r.parent) q child q') =
      (Exchange.fork p q r.id).replay q' (bound es q') := fun q' => by
    by_cases hq : q' = q
    · have hnone' : bound es q = fun _ => none := by
        rw [h.binds]
        exact funext (h.empty q hnew)
      rw [hq, Function.update_self, hchildren, Exchange.replay, if_neg hpq, hnone']
    · rw [Function.update_of_ne hq]
      by_cases hp : q' = p
      · rw [hp, Function.update_self, hparent, Exchange.replay, if_pos rfl, hid, BitVec.ofInt_toInt,
          h.binds]
      · rw [Function.update_of_ne hp, Exchange.replay, if_neg (Ne.symm hp), h.binds]
  have hold : ∀ q' id c,
      childAt (Function.update (Function.update w.proc p r.parent) q child q') id = some c →
        c = q ∧ q' = p ∨ childAt (w.proc q') id = some c := fun q' id c => by
    have hparent := congrFun hparent id
    have hchildren := congrFun hchildren id
    grind
  refine ⟨fun q' hq => ?_, hview, fun q' => ?_, fun q' id q'' hq => ?_, fun q' id q'' hq => ?_,
    fun q' id q'' v hq => ?_, fun q' v => ?_, fun q' v hq => ?_, fun q' hq p' r' hmem => ?_,
    fun q' hq id => ?_, fun p₁ id₁ p₂ id₂ c h₁ h₂ => ?_, fun q' id q'' => ?_⟩
  · have := h.output q'
    grind
  · rw [bound_snoc]
    exact (hproc q').symm
  · have hne : q' ≠ q := fun heq => by simp [heq, Pc.awaits] at hq
    simp only [Function.update_of_ne hne] at hq ⊢
    have hnp : q' ≠ p := fun heq => by simp [heq, hpc, Pc.awaits] at hq
    rw [Function.update_of_ne hnp]
    exact h.awaits q' id q'' hq
  · have hborn : childAt (w.proc q') id = some q'' → w.pc q'' ≠ .unborn := h.born q' id q''
    rcases hold q' id q'' hq with ⟨rfl, -⟩ | hq
    · simp
    · have := hborn hq
      grind
  · have := h.stored q' id q'' v
    simp only [hsetter]
    grind
  · have := h.exits q' v
    simp only [hsetter]
    grind
  · have := h.ready q' v
    simp only [hsetter] at hq
    grind
  · have := h.forked q'
    grind
  · have := h.empty q'
    grind
  · -- the new child had no handle before
    have hborn : ∀ p' id, childAt (w.proc p') id = some q → False := fun p' id hp' =>
      h.born p' id q hp' hnew
    rcases hold p₁ id₁ c h₁ with ⟨hc, hp₁⟩ | hold₁ <;>
      rcases hold p₂ id₂ c h₂ with ⟨hc', hp₂⟩ | hold₂
    · exact hp₁.trans hp₂.symm
    · exact (hborn p₂ id₂ (hc ▸ hold₂)).elim
    · exact (hborn p₁ id₁ (hc' ▸ hold₁)).elim
    · exact h.parent p₁ id₁ p₂ id₂ c hold₁ hold₂
  · have := h.inside q' id q''
    grind

theorem goto_pc (h : Inv es w) (C : Pc P)
    (hview : ∀ q, Futures.Inv (World.view { w with pc := Function.update w.pc p C } q))
    (hborn : w.pc p ≠ .unborn) (hborn' : C ≠ .unborn)
    (hawaits : ∀ id q, C.awaits = some (id, q) → childAt (w.proc p) id = some q)
    (hinside : ∀ id q, C ≠ .waiting id q .outside)
    (hstored : ∀ id q v, C = .storing id q v →
      (w.pc q).setter = .waking v ∨ (w.pc q).setter = .done v)
    (hset : (w.pc p).setter = .outside)
    (hreplay : ∀ p' M, e.replay p' M = M)
    (hexits : ∀ q v, e = .exit q v ↔ q = p ∧ C.setter.value = some v)
    (hready : ∀ v, C.setter ≠ .waking v ∧ C.setter ≠ .done v)
    (hfork : ∀ p' q r, e ≠ .fork p' q r) :
    Inv (es ++ [e]) { w with pc := Function.update w.pc p C } := by
  refine h.goto C w.future none hview hborn hborn' hawaits hinside hstored ?_ hreplay (fun q v => ?_) ?_ hfork
  · rw [hset]
    simp
  · have := hexits q v
    by_cases hq : q = p
    · subst hq
      simp [hset, Setting.value, this]
    · simp [hq, this]
  · intro v hv
    have := hready v
    grind

theorem exit (h : Inv es w) {v : Status} (hborn : w.pc p ≠ .unborn)
    (hset : (w.pc p).setter = .outside)
    (hview : ∀ q, Futures.Inv
      (World.view { w with pc := Function.update w.pc p (.exiting (.asserting v)) } q)) :
    Inv (es ++ [.exit p v]) { w with pc := Function.update w.pc p (.exiting (.asserting v)) } :=
  h.goto_pc _ hview hborn nofun nofun nofun nofun hset (fun _ _ => rfl)
    (fun q v => by simp [Pc.setter, Setting.value, eq_comm]) (fun v => ⟨nofun, nofun⟩) nofun

theorem move (h : Inv es w) (hst : Move w e w') : Inv (es ++ [e]) w' := by
  have hview : ∀ q, Futures.Inv (w'.view q) := fun q => by
    rcases h.view_move hst q with heq | hstep | hnew
    · exact heq ▸ h.view q
    · exact (h.view q).step hstep
    · exact hnew ▸ inv_new 0
  cases hst with
  | fork hpc hnew hcall hchild => exact h.fork hpc hnew hcall hchild hview
  | @forkFails p q c shared m r hpc hcall hchild =>
    obtain ⟨-, hsame, -⟩ := fork_cases hcall
    rw [hsame hchild]
    exact h.retable_running hpc rfl rfl (fun _ _ _ => rfl) (fun _ _ => id) nofun nofun
  | @wait p q id hpc hcall =>
    refine h.goto_pc _ hview (by rw [hpc]; nofun) nofun (fun id' q' hq => ?_) nofun nofun (by rw [hpc]; rfl)
      (fun _ _ => rfl) (fun q v => ⟨nofun, nofun⟩) (fun v => ⟨nofun, nofun⟩) nofun
    rw [Pc.awaits] at hq
    cases hq
    rw [← (wait_childAt (w.proc p) id).1, hcall]
  | @waitFails p id hpc hcall =>
    rw [(wait_childAt (w.proc p) id).1] at hcall
    have hret := (wait_childAt (w.proc p) id).2
    rw [hcall, Option.isSome_none] at hret
    have hown : childAt ((w.proc p).wait id).2.2 = childAt (w.proc p) := by
      rw [childAt_wait, ← hcall, Function.update_eq_self]
    refine h.retable_running hpc (wait_output _ _) ?_ (fun q hq M => ?_) (fun id' q hq => ?_) nofun nofun
    · rw [hown, hret]
      simp [Exchange.replay]
    · rw [Exchange.replay, if_neg fun hc => hq hc.1.symm]
    · rwa [hown] at hq
  | @get p q id stage stage' f woken hpc hget =>
    refine h.goto _ _ _ hview (by rw [hpc]; nofun) nofun (fun id' q' hq => ?_) (fun id' q' hst => ?_) nofun
      (fun v hv => ?_) (fun _ _ => rfl) (fun q' v => ?_) nofun nofun
    · rw [Pc.awaits] at hq
      cases hq
      exact h.awaits p id q (by rw [hpc]; rfl)
    · have := (get_left hget).2
      grind
    · rw [hpc] at hv
      exact hv
    · by_cases hq : q' = p
      · subst hq
        simp [hpc, Pc.setter, Setting.value]
      · simp [hq]
  | @gets p q id hpc =>
    refine h.goto_pc _ hview (by rw [hpc]; nofun) nofun (fun id' q' hq => ?_) nofun (fun id' q' v hq => ?_)
      (by rw [hpc]; rfl) (fun _ _ => rfl) (fun q v => ⟨nofun, nofun⟩) (fun v => ⟨nofun, nofun⟩) nofun
    · rw [Pc.awaits] at hq
      cases hq
      exact h.awaits p id q (by rw [hpc]; rfl)
    · cases hq
      have hread : (w.view q).getter p = .reading := by simp [World.view, hpc, Pc.getter]
      obtain ⟨v, hv, hval⟩ := (h.view q).get_value hread
      change (w.pc q).setter = _ ∨ (w.pc q).setter = _
      rw [show (w.future q).t = v from hval]
      exact hv
  | @waits p q id v hpc =>
    have hq := h.awaits p id q (by rw [hpc]; rfl)
    have hret := (wait_childAt (w.proc p) id).2
    rw [hq, Option.isSome_some] at hret
    refine h.retable (by rw [hpc]; nofun) (by rw [hpc]; rfl)
      (fun q => view_same (by rw [hpc]; rfl) (by rw [hpc]; rfl)) (wait_output _ _) ?_
      (fun q hq M => ?_) (fun id' q hq => ?_) nofun nofun
    · rw [childAt_wait, hret]
      simp [Exchange.replay]
    · rw [Exchange.replay, if_neg fun hc => hq hc.1.symm]
    · rw [childAt_wait] at hq
      grind
  | @close p id hpc =>
    refine h.retable_running hpc (close_output _ _) ?_ (fun q hq M => ?_) (fun id' q hq => ?_) nofun nofun
    · rw [childAt_close, Exchange.replay]
      cases hc : childAt (w.proc p) id with
      | none =>
        rw [← hc, Function.update_eq_self]
        split <;> rfl
      | some q =>
        rw [if_pos ⟨rfl, close_of_childAt (by rw [hc]; rfl)⟩]
    · rw [Exchange.replay, if_neg fun hc => hq hc.1.symm]
    · rw [childAt_close] at hq
      grind
  | @tables p files sems hpc =>
    refine h.retable_running hpc rfl ?_ (fun _ _ _ => rfl) (fun id q hq => ?_) nofun nofun
    · rw [childAt_tables]
      rfl
    · rwa [childAt_tables] at hq
  | @exit p v hpc =>
    exact h.exit (by rw [hpc]; nofun) (by rw [hpc]; rfl) hview
  | @pageFault p hpc =>
    refine h.exit ?_ ?_ hview
    · rcases hpc with hpc | ⟨id, q, v, hpc⟩ <;> rw [hpc] <;> nofun
    · rcases hpc with hpc | ⟨id, q, v, hpc⟩ <;> rw [hpc] <;> rfl
  | @set p stage stage' f woken hpc hset =>
    have hset' := set_stage hset
    refine h.goto _ _ _ hview (by rw [hpc]; nofun) nofun nofun nofun nofun (fun v hv => ?_)
      (fun p' M => ?_) (fun q v => ?_) (fun v hv => ?_) fun p' q r => ?_
    · rw [hpc] at hv
      exact .inr (hset'.2.1 v hv)
    · cases stage <;> rfl
    · have hne : setting p stage ≠ .exit q v := by cases stage <;> nofun
      by_cases hq : q = p
      · subst hq
        simp [hne, hpc, Pc.setter, hset'.1]
      · simp [hne, hq]
    · rcases hset'.2.2 v hv with rfl | rfl
      · exact List.mem_append_right es (List.mem_singleton.mpr rfl)
      · exact List.mem_append_left _ (h.ready p v (.inl (by rw [hpc]; rfl)))
    · cases stage <;> nofun

variable {id : Id} {v : Status}

theorem exiting (h : Inv es w) (hexit : .exit q v ∈ es) :
    ∃ stage, w.pc q = .exiting stage ∧ stage.value = some v := by
  have hv := (h.exits q v).mp hexit
  cases hq : w.pc q with
  | exiting stage => exact ⟨stage, rfl, by rwa [hq] at hv⟩
  | _ => rw [hq] at hv; cases hv

theorem set_goes (h : Inv es w) (hexit : .exit q v ∈ es) : w.pc q = .exiting (.done v) ∨
    ∃ e w', Move w e w' ∧ e.process = q ∧ (w'.pc q).left < (w.pc q).left := by
  obtain ⟨stage, hq, hv⟩ := h.exiting hexit
  rcases Nat.eq_zero_or_pos stage.left with hzero | hpos
  · left
    cases stage with
    | done v' => rw [hq, Option.some.inj hv]
    | outside => cases hv
    | _ => cases hzero
  · right
    have hout : (w.proc q).output = q := h.output q (by rw [hq]; nofun)
    have hassert : ∀ v, stage = .asserting v → (w.future q).isReady = false := fun v hst =>
      (h.view q).set_asserts (v := v) (by rw [World.view, hq, hst]; rfl)
    obtain ⟨⟨f, woken, stage'⟩, hset⟩ := Option.isSome_iff_exists.mp (set_isSome hpos hassert)
    have hset' : (w.future (w.proc q).output).set stage = some (f, woken, stage') := by rwa [hout]
    refine ⟨_, _, .set hq hset', by cases stage <;> rfl, ?_⟩
    calc _ ≤ (Function.update w.pc q (.exiting stage') q).left :=
          wakeUp_left (fun u => h.set_wakes hq hset) q
      _ < (w.pc q).left := by
          have := set_left hset
          rw [Function.update_self, hq]
          simp only [Pc.left]
          omega

theorem get_goes (h : Inv es w) {stage : Getting} (hp : w.pc p = .waiting id q stage)
    (hstage : stage ≠ .blocked) : ∃ w', Move w (.step p) w' ∧ (w'.pc p).left < (w.pc p).left := by
  have hget : stage = .testing ∨ stage = .downing ∨ stage = .upping →
      ∃ w', Move w (.step p) w' ∧ (w'.pc p).left < (w.pc p).left := fun hst => by
    obtain ⟨⟨f, woken, stage'⟩, hget⟩ :=
      Option.isSome_iff_exists.mp (get_isSome (w.future q) p hst)
    refine ⟨_, .get hp hget, ?_⟩
    calc _ ≤ (Function.update w.pc p (.waiting id q stage') p).left :=
          wakeUp_left (fun u => h.get_wakes hp hget) p
      _ < (w.pc p).left := by
          rw [Function.update_self, hp]
          exact (get_left hget).1
  cases stage with
  | outside => exact absurd hp (h.inside p id q)
  | blocked => exact absurd rfl hstage
  | reading =>
    exact ⟨_, .gets hp, by simp [hp, Pc.left, Getting.left]⟩
  | testing => exact hget (.inl rfl)
  | downing => exact hget (.inr (.inl rfl))
  | upping => exact hget (.inr (.inr rfl))

theorem not_blocked (h : Inv es w) (hq : w.pc q = .exiting (.done v)) :
    w.pc p ≠ .waiting id q .blocked := fun hp => by
  have hview : (w.view q).getter p = .blocked := by simp [World.view, hp, Pc.getter]
  obtain ⟨t, hne, ht⟩ := (h.view q).blocked_progress (v := v) (by rw [World.view, hq]; rfl) hview
  simp only [World.view] at ht
  cases hpc : w.pc t with
  | waiting id' q' stage =>
    simp only [hpc, Pc.getter] at ht
    by_cases hq' : q' = q
    · have hchild := h.awaits p id q (by rw [hp]; rfl)
      have hchild' := h.awaits t id' q (by rw [hpc, hq']; rfl)
      exact hne (h.parent t id' p id q hchild' hchild)
    · rw [if_neg hq'] at ht
      cases ht
  | _ => simp [hpc, Pc.getter] at ht

theorem keeps (h : Inv es w) (hexit : .exit q v ∈ es) (hp : (w.pc p).awaits = some (id, q))
    (hst : Move w e w') : e = .wait p id 0 (some v) ∨ e = .exit p 1 ∨
      (w'.pc p).awaits = some (id, q) ∧ (w'.pc p).left ≤ (w.pc p).left ∧
        (w'.pc q).left ≤ (w.pc q).left := by
  obtain ⟨stage, hq, hv⟩ := h.exiting hexit
  have hsame : ∀ p' C, p' ≠ p → p' ≠ q → (Function.update w.pc p' C p).awaits = some (id, q) ∧
      (Function.update w.pc p' C p).left ≤ (w.pc p).left ∧
        (Function.update w.pc p' C q).left ≤ (w.pc q).left := fun p' C hne hne' => by
    rw [Function.update_of_ne hne.symm, Function.update_of_ne hne'.symm]
    exact ⟨hp, le_rfl, le_rfl⟩
  have hrun : ∀ p', w.pc p' = .running → p' ≠ p ∧ p' ≠ q := fun p' hrun => by
    refine ⟨fun heq => ?_, fun heq => ?_⟩
    · rw [← heq, hrun] at hp
      cases hp
    · rw [heq, hq] at hrun
      cases hrun
  cases hst with
  | @fork p' q' c shared m r child hpc hnew hcall hchild =>
    exact .inr (.inr (hsame q' .running (fun heq => by rw [← heq, hnew] at hp; cases hp)
      fun heq => by rw [heq, hq] at hnew; cases hnew))
  | forkFails | waitFails | close | tables => exact .inr (.inr ⟨hp, le_rfl, le_rfl⟩)
  | @wait p' q' id' hpc hcall => exact .inr (.inr (hsame p' _ (hrun p' hpc).1 (hrun p' hpc).2))
  | @exit p' v' hpc => exact .inr (.inr (hsame p' _ (hrun p' hpc).1 (hrun p' hpc).2))
  | @get p' q' id' st st' f woken hpc hget =>
    have hle := wakeUp_left fun u => h.get_wakes hpc hget
    have hq' : q ≠ p' := fun heq => by rw [← heq, hq] at hpc; cases hpc
    refine .inr (.inr ⟨?_, (hle p).trans ?_, (hle q).trans ?_⟩)
    · rw [wakeUp_awaits]
      by_cases hpp : p = p'
      · subst hpp
        rw [hpc] at hp
        rw [Function.update_self]
        exact hp
      · rwa [Function.update_of_ne hpp]
    · by_cases hpp : p = p'
      · subst hpp
        rw [Function.update_self, hpc]
        exact (get_left hget).1.le
      · rw [Function.update_of_ne hpp]
    · rw [Function.update_of_ne hq']
  | @gets p' q' id' hpc =>
    have hq' : p' ≠ q := fun heq => by rw [heq, hq] at hpc; cases hpc
    by_cases hpp : p' = p
    · subst hpp
      rw [hpc, Pc.awaits] at hp
      refine .inr (.inr ⟨?_, ?_, ?_⟩)
      · simpa only [Function.update_self, Pc.awaits] using hp
      · simp [Pc.left]
      · simp only [Function.update_of_ne hq'.symm, le_refl]
    · exact .inr (.inr (hsame p' _ hpp hq'))
  | @waits p' id' q' v' hpc =>
    have hq' : p' ≠ q := fun heq => by rw [heq, hq] at hpc; cases hpc
    by_cases hpp : p' = p
    · subst hpp
      left
      rw [hpc] at hp
      cases hp
      have hchild := h.awaits p' id q (by rw [hpc]; rfl)
      have hstored := h.stored p' id q v' hpc
      have hvalue : v' = v := by
        rw [hq] at hstored
        rcases hstored with hst | hst <;> · rw [Pc.setter] at hst; rw [hst] at hv; exact Option.some.inj hv
      rw [(wait_childAt _ _).2, hchild, hvalue]
      rfl
    · exact .inr (.inr (hsame p' _ hpp hq'))
  | @pageFault p' hpc =>
    have hq' : p' ≠ q := fun heq => by
      rw [heq, hq] at hpc
      rcases hpc with hpc | ⟨_, _, _, hpc⟩ <;> cases hpc
    by_cases hpp : p' = p
    · subst hpp
      exact .inr (.inl rfl)
    · exact .inr (.inr (hsame p' _ hpp hq'))
  | @set p' st st' f woken hpc hset =>
    have hout : (w.proc p').output = p' := h.output p' (by rw [hpc]; nofun)
    rw [hout] at hset
    have hle := wakeUp_left fun u => h.set_wakes hpc hset
    have hpp : p ≠ p' := fun heq => by rw [heq, hpc] at hp; cases hp
    refine .inr (.inr ⟨?_, (hle p).trans ?_, (hle q).trans ?_⟩)
    · rwa [wakeUp_awaits, Function.update_of_ne hpp]
    · rw [Function.update_of_ne hpp]
    · by_cases hqp : q = p'
      · subst hqp
        have := set_left hset
        rw [Function.update_self, hpc]
        simp only [Pc.left]
        omega
      · rw [Function.update_of_ne hqp]

theorem goes (h : Inv es w) (hexit : .exit q v ∈ es) (hp : (w.pc p).awaits = some (id, q)) :
    w.pc p = .storing id q v ∨ ∃ e w', Move w e w' ∧ (e.process = p ∨ e.process = q) ∧
      (w'.pc p).awaits = some (id, q) ∧
      (w'.pc p).left + (w'.pc q).left < (w.pc p).left + (w.pc q).left := by
  obtain ⟨stage, hq, -⟩ := h.exiting hexit
  have hset : w.pc q ≠ .exiting (.done v) → ∃ e w', Move w e w' ∧ (e.process = p ∨ e.process = q) ∧
      (w'.pc p).awaits = some (id, q) ∧
      (w'.pc p).left + (w'.pc q).left < (w.pc p).left + (w.pc q).left := fun hdone => by
    obtain ⟨e, w', hst, hby, hlt⟩ := (h.set_goes hexit).resolve_left hdone
    have hne : e.process ≠ p := fun heq => by
      rw [← heq, hby, hq] at hp
      cases hp
    obtain rfl | rfl | ⟨hp', hle, -⟩ := h.keeps hexit hp hst
    · exact absurd rfl hne
    · exact absurd rfl hne
    · exact ⟨e, w', hst, .inr hby, hp', by omega⟩
  cases hpc : w.pc p with
  | waiting id' q' stage' =>
    have hp' : some (id', q') = some (id, q) := by rw [← hp, hpc, Pc.awaits]
    obtain ⟨rfl, rfl⟩ := Prod.mk.inj (Option.some.inj hp')
    right
    by_cases hblocked : stage' = .blocked
    · subst hblocked
      exact hpc ▸ hset fun hdone => h.not_blocked hdone hpc
    · obtain ⟨w', hst, hlt⟩ := h.get_goes hpc hblocked
      obtain he | he | ⟨hp', -, hle⟩ := h.keeps hexit hp hst
      · cases he
      · cases he
      · exact ⟨_, w', hst, .inl rfl, hp', by rw [hpc] at hlt; omega⟩
  | storing id' q' v' =>
    left
    have hp' : some (id', q') = some (id, q) := by rw [← hp, hpc, Pc.awaits]
    obtain ⟨rfl, rfl⟩ := Prod.mk.inj (Option.some.inj hp')
    have hv := (h.exits q' v).mp hexit
    rcases h.stored p id' q' v' hpc with hst | hst <;>
      · rw [hst] at hv
        cases hv
        rfl
  | _ => rw [hpc] at hp; cases hp

theorem returns (h : Inv es w) (hexit : .exit q v ∈ es) (hp : (w.pc p).awaits = some (id, q)) :
    ∃ es' w' w'', Trace (· = w) (fun w e w' => Move w e w' ∧ (e.process = p ∨ e.process = q)) es' w' ∧
      es'.length ≤ (w.pc p).left + (w.pc q).left ∧ Move w' (.wait p id 0 (some v)) w'' := by
  obtain ⟨es', w', hrun, hlen, ⟨es₁, h₁, -, hp₁⟩, hgoal⟩ := exists_trace_of_rank
    (fun w e w' => Move w e w' ∧ (e.process = p ∨ e.process = q))
    (fun w : World F S P => ∃ es, Inv es w ∧ .exit q v ∈ es ∧ (w.pc p).awaits = some (id, q))
    (fun w => w.pc p = .storing id q v) (fun w => (w.pc p).left + (w.pc q).left)
    (fun w ⟨es, h, hexit, hp⟩ => (h.goes hexit hp).imp_right fun ⟨e, w', hst, hby, hp', hlt⟩ =>
      ⟨e, w', ⟨hst, hby⟩, ⟨es ++ [e], h.move hst, List.mem_append_left _ hexit, hp'⟩, hlt⟩)
    ⟨es, h, hexit, hp⟩
  have hwait := Move.waits hgoal
  rw [(wait_childAt _ _).2, h₁.awaits p id q hp₁] at hwait
  exact ⟨es', w', _, hrun, hlen, hwait⟩

theorem wait_learns (h : Inv es w) {r : ℤ} {stored : Option Status}
    (hst : Move w (.wait p id r stored) w') :
    match bound es p id with
    | some q => r = 0 ∧ .ready q ∈ es ∧ ∃ v, stored = some v ∧ ∀ v', .exit q v' ∈ es ↔ v' = v
    | none => r = -1 ∧ stored = none := by
  generalize he : Exchange.wait p id r stored = e at hst
  cases hst with
  | @waitFails p id hpc hcall =>
    cases he
    obtain ⟨hret, hval⟩ := wait_childAt (w.proc p) id
    rw [hret] at hcall
    rw [hval, h.binds, hcall]
    exact ⟨rfl, rfl⟩
  | @waits p q id v hpc =>
    cases he
    have hq := h.awaits p id q (by rw [hpc]; rfl)
    obtain ⟨-, hval⟩ := wait_childAt (w.proc p) id
    have hset := h.stored p id q v hpc
    rw [hval, h.binds, hq]
    refine ⟨rfl, h.ready q v hset, v, rfl, fun v' => ?_⟩
    rw [h.exits]
    rcases hset with hset | hset <;> simp [hset, Setting.value, eq_comm]
  | @set p stage stage' f woken hpc hset =>
    rcases setting_cases p stage with h' | h' <;> rw [h'] at he <;> cases he
  | _ => cases he

theorem close_learns (h : Inv es w) {i : Fin 10} {r : ℤ}
    (hst : Move w (.close p (handle .child i) r) w') :
    r = if (bound es p (handle .child i)).isSome then 0 else -1 := by
  generalize he : Exchange.close p (handle .child i) r = e at hst
  cases hst with
  | close hpc =>
    cases he
    rw [close_childAt, h.binds]
  | @set p stage stage' f woken hpc hset =>
    rcases setting_cases p stage with h' | h' <;> rw [h'] at he <;> cases he
  | _ => cases he

theorem fork_learns (h : Inv es w) {r : ℤ} (hst : Move w (.fork p q r) w') :
    (∃ i, r = (handle .child i).toInt ∧ bound es p (handle .child i) = none) ∧
      (∀ p' r', .fork p' q r' ∉ es) ∧ ∀ v, .exit q v ∉ es := by
  generalize he : Exchange.fork p q r = e at hst
  cases hst with
  | @fork p q c shared m r child hpc hnew hcall hchild =>
    cases he
    obtain ⟨i, hlow, hid, -⟩ := fork_allocates hcall (by rw [hchild]; rfl)
    refine ⟨⟨i, hid, ?_⟩, h.forked q hnew, fun v hv => ?_⟩
    · rw [h.binds, childAt, hlow.1]
      rfl
    · have := (h.exits q v).mp hv
      rw [hnew] at this
      cases this
  | @set p stage stage' f woken hpc hset =>
    rcases setting_cases p stage with h' | h' <;> rw [h'] at he <;> cases he
  | _ => cases he

theorem finds_token (h : Inv es w) {stage : Getting} (hdone : w.pc q = .exiting (.done v))
    (hp : w.pc p = .waiting id q stage) (hstage : stage ≠ .upping) :
    0 < (w.future q).go.count ∨ ∃ p' id', p' ≠ p ∧ w.pc p' = .waiting id' q .upping := by
  have hview : (w.view q).getter p = stage := by simp [World.view, hp, Pc.getter]
  rcases (h.view q).get_progress (by rw [World.view, hdone]; rfl) (hview.symm ▸ hstage) with
    hpos | ⟨p', hne, hp'⟩
  · exact .inl hpos
  · right
    simp only [World.view] at hp'
    cases hpc : w.pc p' with
    | waiting id' q' stage' =>
      simp only [hpc, Pc.getter] at hp'
      by_cases hq : q' = q
      · rw [if_pos hq] at hp'
        exact ⟨p', id', hne, by rw [hpc, hq, hp']⟩
      · rw [if_neg hq] at hp'
        cases hp'
    | _ => simp [hpc, Pc.getter] at hp'

end Inv

theorem inv_of_begin (h : Begin w) : Inv [] w := by
  obtain ⟨hpc, houtput, hchildren, hfuture⟩ := h
  have hsetter : ∀ q, (w.pc q).setter = .outside := fun q => by
    rcases hpc q with hq | hq <;> rw [hq] <;> rfl
  have hchild : ∀ q, childAt (w.proc q) = fun _ => none := fun q => childAt_of_children (hchildren q)
  refine ⟨fun p hp => houtput p ((hpc p).resolve_right hp), fun q => ?_, fun p => (hchild p).symm,
    fun p id q hq => ?_, fun p id q hq => ?_, fun p id q v hq => ?_, fun q v => ?_, fun q v hq => ?_,
    fun q _ p r => List.not_mem_nil, fun q _ id => congrFun (hchild q) id,
    fun p id p' id' q hq => ?_, fun p id q hq => ?_⟩
  · have hview : w.view q = ⟨.new 0, .outside, fun _ => .outside⟩ := by
      simp only [World.view, hfuture, hsetter]
      congr 1
      funext p
      rcases hpc p with hp | hp <;> rw [hp] <;> rfl
    exact hview ▸ inv_new 0
  · rcases hpc p with hp | hp <;> rw [hp] at hq <;> cases hq
  · rw [hchild p] at hq
    cases hq
  · rcases hpc p with hp | hp <;> rw [hp] at hq <;> cases hq
  · simp [hsetter, Setting.value]
  · simp [hsetter] at hq
  · rw [hchild p] at hq
    cases hq
  · rcases hpc p with hp | hp <;> rw [hp] at hq <;> cases hq

theorem inv_of_trace (h : Trace Begin Move es w) : Inv es w :=
  h.invariant (fun _ => inv_of_begin) fun _ _ _ _ => Inv.move

/-- What a parent learns, after the calls `es` and with the processes where they are in `w`. -/
structure Learns (es : List (Exchange P)) (w : World F S P) : Prop where
  /-- the status is the child's, and was set before -/
  wait : ∀ p id r stored w', Move w (.wait p id r stored) w' →
    match bound es p id with
    | some q => r = 0 ∧ .ready q ∈ es ∧ ∃ v, stored = some v ∧ ∀ v', .exit q v' ∈ es ↔ v' = v
    | none => r = -1 ∧ stored = none
  close : ∀ p i r w', Move w (.close p (handle .child i) r) w' →
    r = if (bound es p (handle .child i)).isSome then 0 else -1
  /-- the slot is free, and the child is new -/
  fork : ∀ p q r w', Move w (.fork p q r) w' →
    (∃ i, r = (handle .child i).toInt ∧ bound es p (handle .child i) = none) ∧
      (∀ p' r', .fork p' q r' ∉ es) ∧ ∀ v, .exit q v ∉ es
  /-- once `set` has returned, whoever has no token finds one, or is handed one -/
  progress : ∀ q v, w.pc q = .exiting (.done v) → ∀ p id stage, w.pc p = .waiting id q stage →
    stage ≠ .upping → 0 < (w.future q).go.count ∨
      ∃ p' id', p' ≠ p ∧ w.pc p' = .waiting id' q .upping
  asserts : ∀ p v, w.pc p = .exiting (.asserting v) →
    (w.future (w.proc p).output).isReady = false
  /-- a child that exits comes to the end of `set` -/
  sets : ∀ q v, .exit q v ∈ es → w.pc q = .exiting (.done v) ∨
    ∃ e w', Move w e w' ∧ e.process = q ∧ (w'.pc q).left < (w.pc q).left
  gets : ∀ p id q stage, w.pc p = .waiting id q stage → stage ≠ .blocked →
    ∃ w', Move w (.step p) w' ∧ (w'.pc p).left < (w.pc p).left
  unblocked : ∀ p id q v, w.pc q = .exiting (.done v) → w.pc p ≠ .waiting id q .blocked
  /-- the steps of the two alone let the parent return -/
  returns : ∀ p id q v, (w.pc p).awaits = some (id, q) → .exit q v ∈ es → ∃ es' w' w'',
    Trace (· = w) (fun w e w' => Move w e w' ∧ (e.process = p ∨ e.process = q)) es' w' ∧
      es'.length ≤ (w.pc p).left + (w.pc q).left ∧ Move w' (.wait p id 0 (some v)) w''
  /-- and no other step takes it back -/
  keeps : ∀ p id q v e w', (w.pc p).awaits = some (id, q) → .exit q v ∈ es → Move w e w' →
    e = .wait p id 0 (some v) ∨ e = .exit p 1 ∨ (w'.pc p).awaits = some (id, q) ∧
      (w'.pc p).left ≤ (w.pc p).left ∧ (w'.pc q).left ≤ (w.pc q).left

theorem trace_learns (h : Trace Begin Move es w) : Learns es w := by
  have hinv := inv_of_trace h
  exact
    { wait := fun _ _ _ _ _ => hinv.wait_learns
      close := fun _ _ _ _ => hinv.close_learns
      fork := fun _ _ _ _ => hinv.fork_learns
      progress := fun _ _ hdone _ _ _ => hinv.finds_token hdone
      asserts := fun p v hp => by
        rw [hinv.output p (by rw [hp]; nofun)]
        exact (hinv.view p).set_asserts (by rw [World.view, hp]; rfl)
      sets := fun _ _ => hinv.set_goes
      gets := fun _ _ _ _ => hinv.get_goes
      unblocked := fun _ _ _ _ => hinv.not_blocked
      returns := fun _ _ _ _ hp hexit => hinv.returns hexit hp
      keeps := fun _ _ _ _ _ _ hp hexit => hinv.keeps hexit hp }

theorem small_forks (u v : ℕ) : ∃ (c : Config) (shared : ℕ) (m : Machine) (p : Process ℕ ℕ ℕ)
    (r : Forked ℕ ℕ ℕ) (child : Process ℕ ℕ ℕ), p.output = u ∧ (∀ i, p.children i = none) ∧
    fork c shared v p m = .ok r ∧ r.child = some child ∧ r.id = 0x10000000 ∧
    r.parent.children 0 = some v := by
  obtain ⟨s, pd, h, hlive⟩ := small_process
  have hpd : pd ∈ s.live := by simp [hlive]
  obtain ⟨fl, hfl, henough⟩ := enough_of_small h (by decide) hpd
  obtain ⟨r, low, A, occ, ⟨hstart, hcount⟩, -, I, -⟩ := h.inv
  let p : Process ℕ ℕ ℕ := ⟨fun _ => none, fun _ => none, fun _ => none, u, pd⟩
  obtain ⟨child, -, m, -, -, -, hfork, -, -, -, -, hout⟩ :=
    fork_spec smallPlatform hstart hcount I p hpd v hfl henough (show p.children 0 = none from rfl)
      fun k hk => absurd hk (Nat.not_lt_zero _)
  refine ⟨_, _, _, p, _, child, rfl, fun _ => rfl, hfork, rfl, rfl, ?_⟩
  simp [hout]

theorem small_exchange : ∃ es, ∃ w : World ℕ ℕ ℕ, Trace Begin Move es w ∧ .exit 7 3 ∈ es ∧
    w.pc 5 = .storing (handle .child 0) 7 3 := by
  obtain ⟨c, shared, m, p, r, child, hout, hnone, hcall, hchild, hid, hparent⟩ := small_forks 5 7
  obtain ⟨hown, -⟩ := (fork_cases hcall).2.2 child hchild
  obtain ⟨files, sems, children, output, pd⟩ := child
  simp only at hown
  subst hown
  let w₀ : World ℕ ℕ ℕ := ⟨fun _ => p, fun _ => .new 0, fun q => if q = 5 then .running else .unborn⟩
  have hwait : (r.parent.wait (handle .child 0)).2.1 = some 7 := by
    rw [(wait_childAt r.parent _).1, childAt_handle, hparent]
  have h0 : Trace Begin Move [] w₀ := .start ⟨fun q => by
      by_cases hq : q = 5 <;> simp [w₀, hq], fun q hq => by
      by_cases hq' : q = 5 <;> simp [w₀, hq'] at hq ⊢
      exact hout, fun _ => hnone, fun _ => rfl⟩
  have h1 := h0.step (.fork (p := 5) (q := 7) rfl rfl hcall hchild)
  have h2 := h1.step (.exit (p := 7) (v := 3) rfl)
  have h3 := h2.step (.set (p := 7) rfl rfl)
  have h4 := h3.step (.set (p := 7) rfl rfl)
  have h5 := h4.step (.wait (p := 5) rfl hwait)
  have h6 := h5.step (.get (p := 5) rfl rfl)
  have h7 := h6.step (.get (p := 5) rfl rfl)
  have h8 := h7.step (.set (p := 7) rfl rfl)
  have h9 := h8.step (.set (p := 7) rfl rfl)
  have h10 := h9.step (.get (p := 5) rfl rfl)
  have h11 := h10.step (.gets (p := 5) rfl)
  exact ⟨_, _, h11, by simp, rfl⟩

theorem small_exchange_learns : ∃ es, ∃ w : World ℕ ℕ ℕ, .exit 7 3 ∈ es ∧ Learns es w := by
  obtain ⟨es, w, h, hexit, -⟩ := small_exchange
  exact ⟨es, w, hexit, trace_learns h⟩

end OsShell.Processes
