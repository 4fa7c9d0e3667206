import OsShell.Library.CountingSemaphore

/-!
# Futures

A value that is set once and may be read by any number of threads. `get` does
not lock: it looks at `isReady`, and only when that is not yet set does it go
through the semaphore, taking a token and giving it back for the next reader.
A call is followed from one access of the shared fields to the next.
-/

namespace OsShell.Futures

open Tokens

variable {T V : Type*}

structure Future (T V : Type*) where
  go : Sem T
  isReady : Bool
  t : V

inductive Setting (V : Type*)
  | outside
  | asserting (v : V)
  | storing (v : V)
  | readying (v : V)
  | waking (v : V)
  | done (v : V)

def Setting.value : Setting V → Option V
  | .outside => none
  | .asserting v | .storing v | .readying v | .waking v | .done v => some v

/-- How many steps `set` still takes. -/
def Setting.left : Setting V → ℕ
  | .asserting _ => 4
  | .storing _ => 3
  | .readying _ => 2
  | .waking _ => 1
  | .outside | .done _ => 0

inductive Getting
  | outside
  | testing
  | downing
  /-- in the queue of `go` -/
  | blocked
  | upping
  | reading

/-- How many steps `get` still takes at most, where being handed the token is one. -/
def Getting.left : Getting → ℕ
  | .testing => 5
  | .downing => 4
  | .blocked => 3
  | .upping => 2
  | .reading => 1
  | .outside => 0

namespace Future

def new (t : V) : Future T V := ⟨⟨0, []⟩, false, t⟩

/-- The next step of `set`, with the thread that it wakes; `none` when there is none, or when the
assertion fails. -/
def set (f : Future T V) : Setting V → Option (Future T V × Option T × Setting V)
  | .asserting v => if f.isReady then none else some (f, none, .storing v)
  | .storing v => some ({ f with t := v }, none, .readying v)
  | .readying v => some ({ f with isReady := true }, none, .waking v)
  | .waking v =>
    let (go, woken) := f.go.up
    some ({ f with go }, woken, .done v)
  | .outside | .done _ => none

/-- The next step of `get` in thread `me`, up to the return of `t`. -/
def get (f : Future T V) (me : T) : Getting → Option (Future T V × Option T × Getting)
  | .testing => some (f, none, if f.isReady then .reading else .downing)
  | .downing =>
    let (go, granted) := f.go.down me
    some ({ f with go }, none, if granted then .upping else .blocked)
  | .upping =>
    let (go, woken) := f.go.up
    some ({ f with go }, woken, .reading)
  | .outside | .blocked | .reading => none

theorem set_isSome {f : Future T V} {st : Setting V} (hleft : 0 < st.left)
    (hassert : ∀ v, st = .asserting v → f.isReady = false) : (f.set st).isSome := by
  cases st with
  | asserting v => simp [set, hassert v rfl]
  | storing v | readying v | waking v => rfl
  | outside | done v => exact absurd hleft (lt_irrefl 0)

theorem set_left {f f' : Future T V} {st st' : Setting V} {woken : Option T}
    (h : f.set st = some (f', woken, st')) : st'.left + 1 = st.left := by
  cases st with
  | asserting v =>
    simp only [set] at h
    split at h <;> cases h
    rfl
  | storing v | readying v | waking v =>
    cases h
    rfl
  | outside | done v => cases h

theorem get_isSome (f : Future T V) (me : T) {st : Getting}
    (h : st = .testing ∨ st = .downing ∨ st = .upping) : (f.get me st).isSome := by
  rcases h with rfl | rfl | rfl <;> rfl

theorem get_left {f f' : Future T V} {me : T} {st st' : Getting} {woken : Option T}
    (h : f.get me st = some (f', woken, st')) : st'.left < st.left ∧ st' ≠ .outside := by
  cases st with
  | testing | downing =>
    simp only [get] at h
    cases h
    split <;> simp [Getting.left]
  | upping =>
    cases h
    simp [Getting.left]
  | outside | blocked | reading => cases h

end Future

structure State (T V : Type*) where
  future : Future T V
  setter : Setting V
  getter : T → Getting

section Steps

variable [DecidableEq T]

def wake (getter : T → Getting) : Option T → T → Getting
  | none => getter
  | some u => Function.update getter u .upping

inductive Step : State T V → State T V → Prop
  | call {s : State T V} {v : V} (hout : s.setter = .outside) :
    Step s { s with setter := .asserting v }
  | set {s : State T V} {f : Future T V} {woken : Option T} {st : Setting V}
      (hset : s.future.set s.setter = some (f, woken, st)) :
    Step s ⟨f, st, wake s.getter woken⟩
  | enter {s : State T V} {me : T} (hout : s.getter me = .outside) :
    Step s { s with getter := Function.update s.getter me .testing }
  | get {s : State T V} {f : Future T V} {me : T} {woken : Option T} {st : Getting}
      (hget : s.future.get me (s.getter me) = some (f, woken, st)) :
    Step s ⟨f, s.setter, wake (Function.update s.getter me st) woken⟩
  | leave {s : State T V} {me : T} (hread : s.getter me = .reading) :
    Step s { s with getter := Function.update s.getter me .outside }

end Steps

/-- The token that `set` gives: `go` has it, or one getter between its `down` and its `up`. -/
def Token (go : Sem T) (getter : T → Getting) : Prop :=
  go.count = 1 ∧ (∀ t, getter t ≠ .upping) ∨ go.count = 0 ∧ ∃ t, ∀ u, getter u = .upping ↔ u = t

/-- Those who wait in `go` are those who are blocked, and none of them while there is a token. -/
structure Lined (go : Sem T) (getter : T → Getting) : Prop where
  waiting : ∀ t, t ∈ go.waiting ↔ getter t = .blocked
  nodup : go.waiting.Nodup
  settled : go.Settled

structure Inv (s : State T V) : Prop where
  ready : s.future.isReady = true ↔ ∃ v, s.setter = .waking v ∨ s.setter = .done v
  value : ∀ v, s.setter = .readying v ∨ s.setter = .waking v ∨ s.setter = .done v → s.future.t = v
  lined : Lined s.future.go s.getter
  reading : ∀ t, s.getter t = .reading → s.future.isReady = true
  before : (∀ v, s.setter ≠ .done v) → s.future.go.count = 0 ∧ ∀ t, s.getter t ≠ .upping
  after : ∀ v, s.setter = .done v → Token s.future.go s.getter

theorem inv_new (t : V) : Inv ⟨.new t, .outside, fun _ : T => .outside⟩ where
  ready := by simp [Future.new]
  value := by simp
  lined := ⟨by simp [Future.new], List.nodup_nil, fun _ => rfl⟩
  reading := nofun
  before := fun _ => ⟨rfl, nofun⟩
  after := nofun

variable [DecidableEq T] {go : Sem T} {getter : T → Getting} {s s' : State T V} {f : Future T V}
  {me t : T} {woken : Option T} {v : V}

theorem Lined.give (h : Lined go getter) (hzero : go.count = 0) (hnone : ∀ t, getter t ≠ .upping) :
    Lined go.up.1 (wake getter go.up.2) ∧ Token go.up.1 (wake getter go.up.2) ∧
      ∀ t, wake getter go.up.2 t = .reading ↔ getter t = .reading := by
  obtain ⟨hwaiting, hnodup, hsettled⟩ := h
  cases hw : go.waiting with
  | nil =>
    have hup : go.up = ({ go with count := go.count + 1 }, none) := by rw [Sem.up, hw]
    rw [hup]
    exact ⟨⟨hwaiting, hnodup, fun _ => hw⟩, .inl ⟨congrArg (· + 1) hzero, hnone⟩, fun _ => Iff.rfl⟩
  | cons u us =>
    have hup : go.up = ({ go with waiting := us }, some u) := by rw [Sem.up, hw]
    rw [hw] at hwaiting hnodup
    have hu := hwaiting u
    have hus := (List.nodup_cons.mp hnodup).1
    rw [hup]
    refine ⟨⟨fun t => ?_, (List.nodup_cons.mp hnodup).2, fun hpos => ?_⟩, .inr ⟨hzero, u, fun t => ?_⟩,
      fun t => ?_⟩
    · have := hwaiting t
      simp only [wake]
      grind
    · simp only at hpos
      omega
    · have := hnone t
      simp only [wake]
      grind
    · simp only [wake]
      grind

theorem Lined.move {st : Getting} (h : Lined go getter) (hme : getter me ≠ .blocked)
    (hst : st ≠ .blocked) : Lined go (Function.update getter me st) :=
  ⟨fun t => by have := h.waiting t; grind, h.nodup, h.settled⟩

theorem Token.move {st : Getting} (h : Token go getter) (hme : getter me ≠ .upping)
    (hst : st ≠ .upping) : Token go (Function.update getter me st) := by
  rcases h with ⟨hone, hnone⟩ | ⟨hzero, t, ht⟩
  · exact .inl ⟨hone, fun u => by have := hnone u; grind⟩
  · exact .inr ⟨hzero, t, fun u => by have := ht u; grind⟩

theorem Lined.down (h : Lined go getter) (hme : getter me = .downing) :
    Lined (go.down me).1
      (Function.update getter me (if (go.down me).2 then .upping else .blocked)) := by
  have hnot : me ∉ go.waiting := fun hm => by
    have := (h.waiting me).mp hm
    rw [hme] at this
    cases this
  refine ⟨fun t => ?_, ?_, h.settled.down me⟩
  · have := h.waiting t
    unfold Sem.down
    split <;> grind
  · unfold Sem.down
    split
    · exact h.nodup
    · rw [← List.concat_eq_append]
      exact h.nodup.concat hnot

theorem Token.down (h : Token go getter) (hme : getter me = .downing) :
    Token (go.down me).1
      (Function.update getter me (if (go.down me).2 then .upping else .blocked)) := by
  rcases h with ⟨hone, hnone⟩ | ⟨hzero, t, ht⟩
  · rw [Sem.down_of_pos me (by omega)]
    refine .inr ⟨by simp [hone], me, fun u => ?_⟩
    have := hnone u
    grind
  · rw [Sem.down_of_zero me hzero]
    refine .inr ⟨hzero, t, fun u => ?_⟩
    have := ht u
    grind

namespace Inv

theorem set {st : Setting V} (h : Inv s) (hset : s.future.set s.setter = some (f, woken, st)) :
    Inv ⟨f, st, wake s.getter woken⟩ := by
  obtain ⟨hready, hvalue, hlined, hreading, hbefore, hafter⟩ := h
  cases hs : s.setter with
  | outside | done v => simp [hs, Future.set] at hset
  | asserting v =>
    simp only [hs, Future.set] at hset
    split at hset
    · cases hset
    · cases hset
      have := hbefore (by simp [hs])
      exact ⟨by simpa [hs] using hready, by simp, hlined, hreading, fun _ => this, by simp⟩
  | storing v =>
    simp only [hs, Future.set] at hset
    cases hset
    have := hbefore (by simp [hs])
    exact ⟨by simpa [hs] using hready, by simp, hlined, hreading, fun _ => this, by simp⟩
  | readying v =>
    simp only [hs, Future.set] at hset
    cases hset
    have := hbefore (by simp [hs])
    exact ⟨by simp, by simpa using hvalue v (by simp [hs]), hlined, fun _ _ => rfl, fun _ => this,
      by simp⟩
  | waking v =>
    simp only [hs, Future.set] at hset
    cases hset
    obtain ⟨hzero, hnone⟩ := hbefore (by simp [hs])
    obtain ⟨hlined', htoken, hread⟩ := hlined.give hzero hnone
    exact ⟨by simpa [hs] using hready, by simpa using hvalue v (by simp [hs]), hlined',
      fun t ht => hreading t ((hread t).mp ht), fun hno => absurd rfl (hno v), fun _ _ => htoken⟩

theorem get {st : Getting} (h : Inv s) (hget : s.future.get me (s.getter me) = some (f, woken, st)) :
    Inv ⟨f, s.setter, wake (Function.update s.getter me st) woken⟩ := by
  obtain ⟨hready, hvalue, hlined, hreading, hbefore, hafter⟩ := h
  cases hs : s.getter me with
  | outside | blocked | reading => simp [hs, Future.get] at hget
  | testing =>
    simp only [hs, Future.get] at hget
    cases hget
    refine ⟨hready, hvalue, hlined.move (by simp [hs]) (by split <;> simp), fun t ht => ?_,
      fun hno => ⟨(hbefore hno).1, fun t => ?_⟩,
      fun v hv => (hafter v hv).move (by simp [hs]) (by split <;> simp)⟩
    · have := hreading t
      simp only [wake] at ht
      grind
    · have := (hbefore hno).2 t
      simp only [wake]
      grind
  | downing =>
    simp only [hs, Future.get] at hget
    cases hget
    refine ⟨hready, hvalue, hlined.down hs, fun t ht => ?_, fun hno => ?_,
      fun v hv => (hafter v hv).down hs⟩
    · have := hreading t
      simp only [wake] at ht
      grind
    · obtain ⟨hzero, hnone⟩ := hbefore hno
      simp only [Sem.down_of_zero me hzero, wake]
      exact ⟨hzero, fun t => by have := hnone t; grind⟩
  | upping =>
    simp only [hs, Future.get] at hget
    cases hget
    have hdone : ∃ v, s.setter = .done v := by
      by_contra hno
      exact (hbefore fun v hv => hno ⟨v, hv⟩).2 me hs
    obtain ⟨v, hv⟩ := hdone
    obtain ⟨hzero, hnone⟩ : s.future.go.count = 0 ∧
        ∀ t, Function.update s.getter me .reading t ≠ .upping := by
      rcases hafter v hv with ⟨-, hnone⟩ | ⟨hzero, t, ht⟩
      · exact absurd hs (hnone me)
      · have hme := (ht me).mp hs
        exact ⟨hzero, fun u => by have := ht u; grind⟩
    have hisReady : s.future.isReady = true := hready.mpr ⟨v, .inr hv⟩
    have hmove : Lined s.future.go (Function.update s.getter me .reading) :=
      hlined.move (by simp [hs]) nofun
    obtain ⟨hlined', htoken, -⟩ := hmove.give hzero hnone
    exact ⟨hready, hvalue, hlined', fun _ _ => hisReady, fun hno => absurd hv (hno v),
      fun _ _ => htoken⟩

theorem step (h : Inv s) (hst : Step s s') : Inv s' := by
  cases hst with
  | call hout =>
    obtain ⟨hready, hvalue, hlined, hreading, hbefore, hafter⟩ := h
    exact ⟨by simpa [hout] using hready, by simp, hlined, hreading,
      fun _ => hbefore (by simp [hout]), by simp⟩
  | set hset => exact h.set hset
  | @enter me hout =>
    refine ⟨h.ready, h.value, h.lined.move (by simp [hout]) nofun, fun t ht => h.reading t ?_,
      fun hno => ⟨(h.before hno).1, fun t => ?_⟩, fun v hv => (h.after v hv).move (by simp [hout]) nofun⟩
    · grind
    · have := (h.before hno).2 t
      grind
  | get hget => exact h.get hget
  | @leave me hread =>
    refine ⟨h.ready, h.value, h.lined.move (by simp [hread]) nofun, fun t ht => h.reading t ?_,
      fun hno => ⟨(h.before hno).1, fun t => ?_⟩,
      fun v hv => (h.after v hv).move (by simp [hread]) nofun⟩
    · grind
    · have := (h.before hno).2 t
      grind

omit [DecidableEq T] in
theorem get_value (h : Inv s) (hread : s.getter me = .reading) :
    ∃ v, (s.setter = .waking v ∨ s.setter = .done v) ∧ s.future.t = v := by
  obtain ⟨v, hv⟩ := h.ready.mp (h.reading me hread)
  exact ⟨v, hv, h.value v (.inr hv)⟩

omit [DecidableEq T] in
theorem set_asserts (h : Inv s) (hs : s.setter = .asserting v) : s.future.isReady = false := by
  cases hr : s.future.isReady with
  | false => rfl
  | true =>
    obtain ⟨w, hw | hw⟩ := h.ready.mp hr <;> rw [hs] at hw <;> cases hw

omit [DecidableEq T] in
theorem get_progress (h : Inv s) (hdone : s.setter = .done v) (hme : s.getter me ≠ .upping) :
    0 < s.future.go.count ∨ ∃ t, t ≠ me ∧ s.getter t = .upping := by
  rcases h.after v hdone with ⟨hone, -⟩ | ⟨-, t, ht⟩
  · exact .inl (by omega)
  · have htu := (ht t).mpr rfl
    exact .inr ⟨t, fun heq => hme (heq ▸ htu), htu⟩

omit [DecidableEq T] in
theorem blocked_progress (h : Inv s) (hdone : s.setter = .done v) (hme : s.getter me = .blocked) :
    ∃ t, t ≠ me ∧ s.getter t = .upping := by
  refine (h.get_progress hdone (by rw [hme]; nofun)).resolve_left fun hpos => ?_
  have hmem := (h.lined.waiting me).mpr hme
  rw [h.lined.settled hpos] at hmem
  cases hmem

end Inv

end OsShell.Futures
