import OsShell.Library.CountingSemaphore
import OsShell.Library.Runs

/-!
# The bounded buffer

Any number of threads call `put` and `get` of one buffer. Each `down`, each `up`
and what stands between `lock.down()` and `lock.up()` is a step, and a thread
can be stopped between any two. `head` and `n` are words of 32 bits. The code
keeps no `unread`, `stored` or `got`: they say which places hold a value that
nobody has read yet, and which values have been written and read so far.
-/

namespace OsShell.BoundedBuffer

open Runs Tokens

variable {T V : Type*}

inductive Name
  | nEmpty
  | nFull
  | lock
deriving DecidableEq

inductive Call (V : Type*)
  | put (t : V)
  | get
deriving DecidableEq

namespace Call

def first : Call V → Name
  | .put _ => .nEmpty
  | .get => .nFull

def last : Call V → Name
  | .put _ => .nFull
  | .get => .nEmpty

end Call

/-- Where a thread is; `out` is the local of `get`. -/
inductive Pc (V : Type*)
  | outside
  | waiting (c : Call V)
  /-- past the first `down` -/
  | reserved (c : Call V)
  | waitingLock (c : Call V)
  | locked (c : Call V)
  /-- about to call `lock.up()` -/
  | done (c : Call V) (out : Option V)
  /-- about to call the last `up` -/
  | unlocked (c : Call V) (out : Option V)
deriving DecidableEq

namespace Pc

def waitsFor : Pc V → Option Name
  | .waiting c => some c.first
  | .waitingLock _ => some .lock
  | _ => none

/-- The tokens a thread has got from a `down`, or owes to an `up`. -/
def holds : Pc V → Name → Bool
  | .reserved c, x => x == c.first
  | .waitingLock c, x => x == c.first
  | .locked c, x => x == c.first || x == .lock
  | .done c _, x => x == c.last || x == .lock
  | .unlocked c _, x => x == c.last
  | _, _ => false

/-- `down` returns to the thread that `up` has removed from the queue. -/
def resume : Pc V → Pc V
  | .waiting c => .reserved c
  | .waitingLock c => .locked c
  | p => p

theorem resume_waitsFor (p : Pc V) : p.resume.waitsFor = none := by
  cases p <;> rfl

theorem resume_holds {p : Pc V} {x : Name} (h : p.waitsFor = some x) (y : Name) :
    p.resume.holds y = (p.holds y || y == x) := by
  cases p with
  | waiting c =>
    obtain rfl : c.first = x := Option.some.inj h
    rfl
  | waitingLock c =>
    obtain rfl : Name.lock = x := Option.some.inj h
    rfl
  | _ => nomatch h

theorem holds_of_waitsFor {p : Pc V} {x : Name} (h : p.waitsFor = some x) : p.holds x = false := by
  cases p with
  | waiting c => rfl
  | waitingLock c =>
    obtain rfl : Name.lock = x := Option.some.inj h
    cases c <;> rfl
  | _ => nomatch h

end Pc

structure Buffer (V : Type*) where
  head : ℕ
  n : ℕ
  data : ℕ → V
  unread : ℕ → Bool
  stored : List V
  got : List V

namespace Buffer

def tail (N : ℕ) (b : Buffer V) : ℕ := (b.head + b.n) % 2 ^ 32 % N

/-- `data[(head + n) % N] = t; n++` -/
def store (N : ℕ) (b : Buffer V) (t : V) : Buffer V :=
  { b with
    data := Function.update b.data (b.tail N) t
    n := (b.n + 1) % 2 ^ 32
    unread := Function.update b.unread (b.tail N) true
    stored := b.stored ++ [t] }

/-- `out = data[head]; head = (head + 1) % N; n--` -/
def load (N : ℕ) (b : Buffer V) : V × Buffer V :=
  let out := b.data b.head
  (out,
    { b with
      head := (b.head + 1) % 2 ^ 32 % N
      n := (b.n + (2 ^ 32 - 1)) % 2 ^ 32
      unread := Function.update b.unread b.head false
      got := b.got ++ [out] })

end Buffer

structure State (T V : Type*) where
  sems : Name → Sem T
  buffer : Buffer V
  pc : T → Pc V

namespace State

variable [DecidableEq T]

def goto (s : State T V) (t : T) (p : Pc V) : State T V :=
  { s with pc := Function.update s.pc t p }

def down (s : State T V) (t : T) (x : Name) (after wait : Pc V) : State T V :=
  let (sem, granted) := (s.sems x).down t
  { s with sems := Function.update s.sems x sem }.goto t (if granted then after else wait)

def up (s : State T V) (t : T) (x : Name) (after : Pc V) : State T V :=
  let (sem, next) := (s.sems x).up
  let s := { s with sems := Function.update s.sems x sem }.goto t after
  match next with
  | none => s
  | some u => s.goto u (s.pc u).resume

/-- What stands between `lock.down()` and `lock.up()`. -/
def access (N : ℕ) (s : State T V) (t : T) : Call V → State T V
  | .put v => { s with buffer := s.buffer.store N v }.goto t (.done (.put v) none)
  | .get =>
    let (out, buffer) := s.buffer.load N
    { s with buffer }.goto t (.done .get (some out))

end State

/-- `BoundedBuffer(N)` -/
def initialSems (N : ℕ) : Name → Sem T
  | .nEmpty => ⟨N, []⟩
  | .nFull => ⟨0, []⟩
  | .lock => ⟨1, []⟩

inductive Init (N : ℕ) : State T V → Prop
  | start (data : ℕ → V) :
      Init N ⟨initialSems N, ⟨0, 0, data, fun _ => false, [], []⟩, fun _ => .outside⟩

inductive Step [DecidableEq T] (N : ℕ) : State T V → State T V → Prop
  | first {s : State T V} (t : T) (c : Call V) (hpc : s.pc t = .outside) :
      Step N s (s.down t c.first (.reserved c) (.waiting c))
  | lock {s : State T V} (t : T) (c : Call V) (hpc : s.pc t = .reserved c) :
      Step N s (s.down t .lock (.locked c) (.waitingLock c))
  | access {s : State T V} (t : T) (c : Call V) (hpc : s.pc t = .locked c) :
      Step N s (s.access N t c)
  | unlock {s : State T V} (t : T) (c : Call V) (out : Option V) (hpc : s.pc t = .done c out) :
      Step N s (s.up t .lock (.unlocked c out))
  | last {s : State T V} (t : T) (c : Call V) (out : Option V) (hpc : s.pc t = .unlocked c out) :
      Step N s (s.up t c.last .outside)

/-- The tokens of each semaphore, those that threads have included. -/
def total (N n : ℕ) : Name → ℕ
  | .nEmpty => N - n
  | .nFull => n
  | .lock => 1

structure Holds (N : ℕ) (b : Buffer V) (xs : List V) : Prop where
  length : xs.length = b.n
  n_le : b.n ≤ N
  head_lt : b.head < N
  place : ∀ i (h : i < xs.length), b.data ((b.head + i) % N) = xs[i]
  unread : ∀ p, b.unread p = true ↔ ∃ i < b.n, p = (b.head + i) % N
  stored : b.stored = b.got ++ xs

structure Inv (N : ℕ) (s : State T V) : Prop where
  waits : Waits s.sems (Pc.waitsFor ∘ s.pc)
  conserved : Conserved s.sems (Pc.holds ∘ s.pc) (total N s.buffer.n)
  holds : ∃ xs, Holds N s.buffer xs

variable [DecidableEq T] {N : ℕ} {s : State T V} {t : T} {x : Name}

namespace State

theorem goto_comp {β : Type*} (f : Pc V → β) (s : State T V) (t : T) (p : Pc V) :
    f ∘ (s.goto t p).pc = Function.update (f ∘ s.pc) t (f p) :=
  Function.comp_update ..

theorem goto_other {u : T} (h : u ≠ t) (p : Pc V) : (s.goto t p).pc u = s.pc u :=
  Function.update_of_ne h _ _

theorem down_of_pos (after wait : Pc V) (h : 0 < (s.sems x).count) : s.down t x after wait =
    State.goto ⟨Function.update s.sems x ⟨(s.sems x).count - 1, (s.sems x).waiting⟩, s.buffer,
      s.pc⟩ t after := by
  simp only [down, Sem.down_of_pos t h, if_true]

theorem down_of_zero (after wait : Pc V) (h : (s.sems x).count = 0) : s.down t x after wait =
    State.goto ⟨Function.update s.sems x ⟨(s.sems x).count, (s.sems x).waiting ++ [t]⟩, s.buffer,
      s.pc⟩ t wait := by
  simp only [down, Sem.down_of_zero t h, Bool.false_eq_true, if_false]

theorem up_of_nil (after : Pc V) (h : (s.sems x).waiting = []) : s.up t x after =
    State.goto ⟨Function.update s.sems x ⟨(s.sems x).count + 1, []⟩, s.buffer, s.pc⟩ t
      after := by
  simp only [up, Sem.up, h]

theorem up_of_cons (after : Pc V) {u : T} {us : List T} (h : (s.sems x).waiting = u :: us)
    (hu : u ≠ t) : s.up t x after =
      (State.goto ⟨Function.update s.sems x ⟨(s.sems x).count, us⟩, s.buffer, s.pc⟩ t after).goto u
        (s.pc u).resume := by
  simp only [up, Sem.up, h, goto_other hu]

end State

theorem waitsFor_goto (hnone : (s.pc t).waitsFor = none) {p : Pc V} (hp : p.waitsFor = none) :
    Pc.waitsFor ∘ (s.goto t p).pc = Pc.waitsFor ∘ s.pc := by
  rw [State.goto_comp, hp, ← hnone]
  exact Function.update_eq_self t _

theorem holds_goto (p : Pc V) {u : T} (hu : u ≠ t) :
    (Pc.holds ∘ (s.goto t p).pc) u = (Pc.holds ∘ s.pc) u := by
  rw [Function.comp_apply, State.goto_other hu, Function.comp_apply]

theorem holds_goto_self (p : Pc V) : (Pc.holds ∘ (s.goto t p).pc) t = p.holds := by
  rw [State.goto_comp, Function.update_self]

namespace Inv

theorem down (I : Inv N s) {after wait : Pc V} (hnone : (s.pc t).waitsFor = none)
    (hfree : (s.pc t).holds x = false) (hafter : after.waitsFor = none)
    (hholds : ∀ y, after.holds y = ((s.pc t).holds y || y == x)) (hwait : wait.waitsFor = some x)
    (hsame : wait.holds = (s.pc t).holds) : Inv N (s.down t x after wait) := by
  by_cases hpos : 0 < (s.sems x).count
  · rw [State.down_of_pos after wait hpos]
    refine ⟨?_, ?_, I.holds⟩
    · change Waits _ (Pc.waitsFor ∘ (s.goto t after).pc)
      rw [waitsFor_goto hnone hafter]
      refine I.waits.congr fun y => ?_
      by_cases hy : y = x
      · simp [State.goto, hy]
      · simp [State.goto, hy]
    · refine I.conserved.take hpos hfree (fun u hu => holds_goto after hu) (fun y => ?_) _
      rw [holds_goto_self]
      exact hholds y
  · rw [State.down_of_zero after wait (by omega)]
    refine ⟨?_, ?_, I.holds⟩
    · rw [State.goto_comp, hwait]
      exact I.waits.join hnone _
    · refine I.conserved.move t (fun u hu => holds_goto wait hu) fun y => ?_
      rw [holds_goto_self, hsame]
      by_cases hy : y = x
      · simp [State.goto, hy]
      · simp [State.goto, hy]

theorem up (I : Inv N s) {after : Pc V} (hnone : (s.pc t).waitsFor = none)
    (hhas : (s.pc t).holds x = true) (hafter : after.waitsFor = none)
    (hholds : ∀ y, after.holds y = ((s.pc t).holds y && y != x)) : Inv N (s.up t x after) := by
  -- the token is back in the semaphore, for a moment at least
  have hback : ∀ w, Conserved (Function.update s.sems x ⟨(s.sems x).count + 1, w⟩)
      (Pc.holds ∘ (s.goto t after).pc) (total N s.buffer.n) := by
    refine I.conserved.give hhas (fun u hu => holds_goto after hu) fun y => ?_
    rw [holds_goto_self]
    exact hholds y
  cases hw : (s.sems x).waiting with
  | nil =>
    rw [State.up_of_nil after hw]
    refine ⟨?_, hback [], I.holds⟩
    change Waits _ (Pc.waitsFor ∘ (s.goto t after).pc)
    rw [waitsFor_goto hnone hafter]
    refine I.waits.congr fun y => ?_
    by_cases hy : y = x
    · simp [State.goto, hy, hw]
    · simp [State.goto, hy]
  | cons u us =>
    have hu : (s.pc u).waitsFor = some x :=
      (I.waits.mem x u).mp (by rw [hw]; exact List.mem_cons_self ..)
    have hne : u ≠ t := by
      rintro rfl
      rw [hu] at hnone
      nomatch hnone
    rw [State.up_of_cons after hw hne]
    refine ⟨?_, ?_, I.holds⟩
    · rw [State.goto_comp, Pc.resume_waitsFor]
      change Waits _ (Function.update (Pc.waitsFor ∘ (s.goto t after).pc) u none)
      rw [waitsFor_goto hnone hafter]
      exact I.waits.leave hw _
    · have hself : (Pc.holds ∘ (s.goto t after).pc) u = (s.pc u).holds := holds_goto after hne
      have hother : ∀ v, v ≠ u → (Pc.holds ∘ ((s.goto t after).goto u (s.pc u).resume).pc) v =
          (Pc.holds ∘ (s.goto t after).pc) v := fun v hv => holds_goto _ hv
      have hnew := (hback us).take (t := u) (x := x)
        (by rw [Function.update_self]; exact Nat.succ_pos _)
        (by rw [hself]; exact Pc.holds_of_waitsFor hu) hother
        (fun y => by rw [hself, holds_goto_self, Pc.resume_holds hu]) us
      rwa [Function.update_self, Nat.add_sub_cancel, Function.update_idem] at hnew

end Inv

theorem place_ne {r i j : ℕ} (hi : i < N) (hj : j < N) (hij : i ≠ j) :
    (r + i) % N ≠ (r + j) % N := by
  intro h
  have h := Nat.ModEq.add_left_cancel' r h
  rw [Nat.ModEq, Nat.mod_eq_of_lt hi, Nat.mod_eq_of_lt hj] at h
  exact hij h

namespace Holds

variable {b : Buffer V} {xs : List V} {v : V}

theorem tail_eq (h : Holds N b xs) (hN : N ≤ 2 ^ 31) : b.tail N = (b.head + b.n) % N := by
  have := h.n_le
  have := h.head_lt
  rw [Buffer.tail, Nat.mod_eq_of_lt (show b.head + b.n < 2 ^ 32 by omega)]

theorem tail_read (h : Holds N b xs) (hN : N ≤ 2 ^ 31) (hlt : b.n < N) :
    b.unread (b.tail N) = false := by
  rw [← Bool.not_eq_true, h.unread, h.tail_eq hN]
  rintro ⟨i, hi, heq⟩
  exact place_ne hlt (hi.trans hlt) (Nat.ne_of_gt hi) heq

theorem head_unread (h : Holds N b xs) (hpos : 0 < b.n) : b.unread b.head = true := by
  rw [h.unread]
  exact ⟨0, hpos, (Nat.mod_eq_of_lt h.head_lt).symm⟩

theorem store (h : Holds N b xs) (hN : N ≤ 2 ^ 31) (hlt : b.n < N) :
    Holds N (b.store N v) (xs ++ [v]) ∧ (b.store N v).n = b.n + 1 := by
  have hn : (b.store N v).n = b.n + 1 := Nat.mod_eq_of_lt (by omega)
  have hlen := h.length
  refine ⟨⟨?_, ?_, h.head_lt, fun i hi => ?_, fun p => ?_, ?_⟩, hn⟩
  · rw [hn, List.length_append, hlen, List.length_singleton]
  · omega
  · rw [List.length_append, List.length_singleton] at hi
    simp only [Buffer.store, h.tail_eq hN]
    by_cases hlast : i = xs.length
    · subst hlast
      rw [List.getElem_concat_length rfl, hlen, Function.update_self]
    · rw [Function.update_of_ne (place_ne (by omega) hlt (by omega)),
        List.getElem_append_left (by omega)]
      exact h.place i (by omega)
  · rw [hn]
    simp only [Buffer.store, h.tail_eq hN]
    by_cases hp : p = (b.head + b.n) % N
    · rw [hp, Function.update_self]
      exact ⟨fun _ => ⟨b.n, Nat.lt_succ_self _, rfl⟩, fun _ => rfl⟩
    · rw [Function.update_of_ne hp, h.unread]
      refine ⟨fun ⟨i, hi, heq⟩ => ⟨i, Nat.lt_succ_of_lt hi, heq⟩, fun ⟨i, hi, heq⟩ => ⟨i, ?_, heq⟩⟩
      by_contra hle
      exact hp (by rw [heq, show i = b.n by omega])
  · simp only [Buffer.store, h.stored, List.append_assoc]

theorem load (h : Holds N b (v :: xs)) (hN : N ≤ 2 ^ 31) :
    (b.load N).1 = v ∧ Holds N (b.load N).2 xs ∧ (b.load N).2.n + 1 = b.n := by
  have hlen : xs.length + 1 = b.n := h.length
  have hhead := h.head_lt
  have hle := h.n_le
  have hn : (b.load N).2.n + 1 = b.n := by
    simp only [Buffer.load]
    omega
  have hfirst : b.data b.head = v := by
    have := h.place 0 (Nat.succ_pos _)
    rwa [Nat.add_zero, Nat.mod_eq_of_lt hhead] at this
  have hstep : ∀ i, ((b.load N).2.head + i) % N = (b.head + (i + 1)) % N := by
    intro i
    simp only [Buffer.load]
    rw [Nat.mod_eq_of_lt (show b.head + 1 < 2 ^ 32 by omega), Nat.mod_add_mod, Nat.add_assoc,
      Nat.add_comm 1 i]
  refine ⟨hfirst, ⟨by omega, by omega, Nat.mod_lt _ (by omega), fun i hi => ?_, fun p => ?_, ?_⟩,
    hn⟩
  · rw [hstep]
    exact h.place (i + 1) (Nat.succ_lt_succ hi)
  · have hzero : ∀ i, 0 < i → i < N → (b.head + i) % N ≠ b.head := by
      intro i hpos hi heq
      have := place_ne (r := b.head) hi (show 0 < N by omega) (by omega)
      rw [heq, Nat.add_zero, Nat.mod_eq_of_lt hhead] at this
      exact this rfl
    simp only [hstep]
    change Function.update b.unread b.head false p = true ↔ _
    by_cases hp : p = b.head
    · rw [hp, Function.update_self]
      refine ⟨nofun, fun ⟨i, hi, heq⟩ => ?_⟩
      exact absurd heq.symm (hzero (i + 1) (Nat.succ_pos _) (by omega))
    · rw [Function.update_of_ne hp, h.unread]
      constructor
      · rintro ⟨i, hi, rfl⟩
        cases i with
        | zero => exact absurd (Nat.mod_eq_of_lt hhead) hp
        | succ i => exact ⟨i, by omega, rfl⟩
      · rintro ⟨i, hi, rfl⟩
        exact ⟨i + 1, by omega, rfl⟩
  · simp only [Buffer.load, h.stored, hfirst, List.append_assoc, List.singleton_append]

end Holds

omit [DecidableEq T] in
theorem inv_of_init (hpos : 1 ≤ N) (h : Init N s) : Inv N s := by
  obtain ⟨data⟩ := h
  refine ⟨⟨fun x t => ?_, fun x => ?_⟩, ⟨fun _ => ∅, fun x t => ?_, fun x => ?_⟩, [], ?_⟩
  · cases x <;> exact ⟨fun h => absurd h List.not_mem_nil, nofun⟩
  · cases x <;> exact List.nodup_nil
  · exact ⟨fun h => absurd h (Finset.notMem_empty t), nofun⟩
  · cases x <;> rfl
  · exact {
      length := rfl
      n_le := Nat.zero_le N
      head_lt := hpos
      place := fun i h => absurd h (Nat.not_lt_zero i)
      unread := fun _ => ⟨nofun, fun ⟨i, h, _⟩ => absurd h (Nat.not_lt_zero i)⟩
      stored := rfl }

namespace Inv

omit [DecidableEq T] in
theorem n_lt (I : Inv N s) (h : (s.pc t).holds .nEmpty = true) : s.buffer.n < N :=
  Nat.lt_of_sub_pos (Conserved.pos (x := Name.nEmpty) (t := t) I.conserved h)

omit [DecidableEq T] in
theorem n_pos (I : Inv N s) (h : (s.pc t).holds .nFull = true) : 0 < s.buffer.n :=
  Conserved.pos (x := Name.nFull) (t := t) I.conserved h

theorem conserved_put {n : ℕ} {v : V} (hpc : s.pc t = .locked (.put v)) (hlt : n < N)
    (h : Conserved s.sems (Pc.holds ∘ s.pc) (total N n)) : Conserved s.sems
      (Pc.holds ∘ (s.goto t (.done (.put v) none)).pc) (total N (n + 1)) := by
  refine h.move t (fun u hu => holds_goto _ hu) fun y => ?_
  rw [holds_goto_self, Function.comp_apply, hpc]
  cases y with
  | nEmpty =>
    change _ + 0 + (N - n) = _ + 1 + (N - (n + 1))
    omega
  | nFull =>
    change _ + 1 + n = _ + 0 + (n + 1)
    omega
  | lock => rfl

theorem conserved_get {n : ℕ} {out : V} (hpc : s.pc t = .locked .get) (hle : n + 1 ≤ N)
    (h : Conserved s.sems (Pc.holds ∘ s.pc) (total N (n + 1))) : Conserved s.sems
      (Pc.holds ∘ (s.goto t (.done .get (some out))).pc) (total N n) := by
  refine h.move t (fun u hu => holds_goto _ hu) fun y => ?_
  rw [holds_goto_self, Function.comp_apply, hpc]
  cases y with
  | nEmpty =>
    change _ + 1 + (N - (n + 1)) = _ + 0 + (N - n)
    omega
  | nFull =>
    change _ + 0 + (n + 1) = _ + 1 + n
    omega
  | lock => rfl

theorem access (I : Inv N s) (hN : N ≤ 2 ^ 31) {c : Call V} (hpc : s.pc t = .locked c) :
    Inv N (s.access N t c) := by
  have hnone : (s.pc t).waitsFor = none := by rw [hpc]; rfl
  have hwaits : ∀ p : Pc V, p.waitsFor = none → Waits s.sems (Pc.waitsFor ∘ (s.goto t p).pc) := by
    intro p hp
    rw [waitsFor_goto hnone hp]
    exact I.waits
  obtain ⟨xs, H⟩ := I.holds
  cases c with
  | put v =>
    have hlt := I.n_lt (t := t) (by rw [hpc]; rfl)
    obtain ⟨H', hn⟩ := H.store (v := v) hN hlt
    have hcons := conserved_put hpc hlt I.conserved
    rw [← hn] at hcons
    exact ⟨hwaits _ rfl, hcons, _, H'⟩
  | get =>
    have hpos := I.n_pos (t := t) (by rw [hpc]; rfl)
    cases xs with
    | nil => exact absurd H.length (Nat.ne_of_lt hpos)
    | cons v xs =>
      obtain ⟨-, H', hn⟩ := H.load hN
      have hle := H.n_le
      have hcons := I.conserved
      rw [← hn] at hle hcons
      have hcons : Conserved s.sems
          (Pc.holds ∘ (s.goto t (.done .get (some (s.buffer.load N).1))).pc) _ :=
        conserved_get hpc hle hcons
      exact ⟨hwaits _ rfl, hcons, _, H'⟩

theorem step (I : Inv N s) (hN : N ≤ 2 ^ 31) {s' : State T V} (h : Step N s s') : Inv N s' := by
  cases h with
  | first t c hpc =>
    exact I.down (by rw [hpc]; rfl) (by rw [hpc]; rfl) rfl
      (by rw [hpc]; cases c <;> exact fun _ => rfl) rfl (by rw [hpc]; rfl)
  | lock t c hpc =>
    exact I.down (by rw [hpc]; rfl) (by rw [hpc]; cases c <;> rfl) rfl
      (by rw [hpc]; exact fun _ => rfl) rfl (by rw [hpc]; rfl)
  | access t c hpc => exact I.access hN hpc
  | unlock t c out hpc =>
    refine I.up (by rw [hpc]; rfl) (by rw [hpc]; cases c <;> rfl) rfl fun y => ?_
    rw [hpc]
    cases c <;> cases y <;> rfl
  | last t c out hpc =>
    refine I.up (by rw [hpc]; rfl) (by rw [hpc]; cases c <;> rfl) rfl fun y => ?_
    rw [hpc]
    cases c <;> cases y <;> rfl

end Inv

/-! ## What `get` returns -/

/-- The local `out` of a `get` that has been through the buffer is the value that it took. -/
def Pc.Took (got : List V) : Pc V → Prop
  | .done .get out => out.isSome ∧ out = got.getLast?
  | .unlocked .get out => ∃ v ∈ got, out = some v
  | _ => True

namespace Pc.Took

variable {got : List V} {p : Pc V}

theorem resume (h : p.Took got) : p.resume.Took got := by
  cases p with
  | waiting c => trivial
  | waitingLock c => trivial
  | _ => exact h

theorem append (h : p.Took got) (hfree : p.holds .lock = false) (v : V) :
    p.Took (got ++ [v]) := by
  cases p with
  | done c out => cases c <;> nomatch hfree
  | unlocked c out =>
    cases c with
    | put t => trivial
    | get =>
      obtain ⟨w, hw, hout⟩ := h
      exact ⟨w, List.mem_append_left _ hw, hout⟩
  | _ => trivial

theorem unlock {c : Call V} {out : Option V} (h : (Pc.done c out).Took got) :
    (Pc.unlocked c out).Took got := by
  cases c with
  | put t => trivial
  | get =>
    obtain ⟨v, rfl⟩ := Option.isSome_iff_exists.mp h.1
    exact ⟨v, List.mem_of_getLast? h.2.symm, rfl⟩

end Pc.Took

def Taken (s : State T V) : Prop := ∀ t, (s.pc t).Took s.buffer.got

namespace Taken

theorem goto (h : Taken s) {p : Pc V} (hp : p.Took s.buffer.got) (t : T) : Taken (s.goto t p) := by
  intro u
  change (Function.update s.pc t p u).Took _
  by_cases hu : u = t
  · rwa [hu, Function.update_self]
  · rw [Function.update_of_ne hu]
    exact h u

theorem down (h : Taken s) {after wait : Pc V} (hafter : after.Took s.buffer.got)
    (hwait : wait.Took s.buffer.got) : Taken (s.down t x after wait) := by
  by_cases hpos : 0 < (s.sems x).count
  · rw [State.down_of_pos after wait hpos]
    exact h.goto hafter t
  · rw [State.down_of_zero after wait (by omega)]
    exact h.goto hwait t

theorem up (h : Taken s) {after : Pc V} (hafter : after.Took s.buffer.got) :
    Taken (s.up t x after) := by
  unfold State.up
  obtain ⟨sem, next⟩ := (s.sems x).up
  have hself : Taken (State.goto ⟨Function.update s.sems x sem, s.buffer, s.pc⟩ t after) :=
    fun u => h.goto hafter t u
  cases next with
  | none => exact hself
  | some u => exact hself.goto (hself u).resume u

theorem access (h : Taken s) (I : Inv N s) {c : Call V} (hpc : s.pc t = .locked c) :
    Taken (s.access N t c) := by
  cases c with
  | put v => exact fun u => h.goto (p := .done (.put v) none) trivial t u
  | get =>
    intro u
    change (Function.update s.pc t _ u).Took (s.buffer.got ++ [s.buffer.data s.buffer.head])
    by_cases hu : u = t
    · rw [hu, Function.update_self]
      exact ⟨rfl, List.getLast?_concat.symm⟩
    · rw [Function.update_of_ne hu]
      refine (h u).append (Bool.eq_false_iff.mpr fun hlock => hu ?_) _
      exact Conserved.unique (x := Name.lock) (t := u) (u := t) I.conserved rfl hlock
        (by change (s.pc t).holds .lock = true; rw [hpc]; rfl)

theorem step (h : Taken s) (I : Inv N s) {s' : State T V} (hst : Step N s s') : Taken s' := by
  cases hst with
  | first t c hpc => exact h.down trivial trivial
  | lock t c hpc => exact h.down trivial trivial
  | access t c hpc => exact h.access I hpc
  | unlock t c out hpc => exact h.up (hpc ▸ h t : (Pc.done c out).Took _).unlock
  | last t c out hpc => exact h.up trivial

end Taken

/-- What a buffer promises: it never holds more than `N` values, no value is overwritten before
it is read nor read before it is written, one thread at a time is between `lock.down()` and
`lock.up()`, and the values read are the first of those written. -/
structure Correct (N : ℕ) (s : State T V) : Prop where
  n_le : s.buffer.n ≤ N
  head_lt : s.buffer.head < N
  store : ∀ t v, s.pc t = .locked (.put v) → s.buffer.unread (s.buffer.tail N) = false
  load : ∀ t, s.pc t = .locked .get → s.buffer.unread s.buffer.head = true
  exclusive : ∀ t u, (s.pc t).holds .lock = true → (s.pc u).holds .lock = true → t = u
  fifo : s.buffer.got <+: s.buffer.stored
  taken : Taken s
  rest : s.buffer.stored = s.buffer.got ++
    (List.range s.buffer.n).map fun i => s.buffer.data ((s.buffer.head + i) % N)

theorem buffer_correct (hpos : 1 ≤ N) (hN : N ≤ 2 ^ 31)
    (h : Reachable (Init N) (Step N) s) : Correct N s := by
  obtain ⟨I, htaken⟩ : Inv N s ∧ Taken s := h.invariant (I := fun s => Inv N s ∧ Taken s)
    (fun s hs => ⟨inv_of_init hpos hs, by obtain ⟨data⟩ := hs; exact fun _ => trivial⟩)
    fun s s' I hst => ⟨I.1.step hN hst, I.2.step I.1 hst⟩
  obtain ⟨xs, H⟩ := I.holds
  have hread : (List.range s.buffer.n).map (fun i => s.buffer.data ((s.buffer.head + i) % N)) =
      xs := by
    refine List.ext_getElem (by simp [H.length]) fun i hi hi' => ?_
    rw [List.getElem_map, List.getElem_range]
    exact H.place i hi'
  exact {
    n_le := H.n_le
    head_lt := H.head_lt
    store := fun t v hpc => H.tail_read hN (I.n_lt (t := t) (by rw [hpc]; rfl))
    load := fun t hpc => H.head_unread (I.n_pos (t := t) (by rw [hpc]; rfl))
    exclusive := fun t u ht hu =>
      Conserved.unique (x := Name.lock) (t := t) (u := u) I.conserved rfl ht hu
    fifo := ⟨xs, H.stored.symm⟩
    taken := htaken
    rest := by rw [hread, H.stored] }

/-- One place: thread 1 waits for it to be free, then thread 2 has read it and not said so yet. -/
theorem three_threads_correct : ∃ s : State (Fin 3) ℕ, s.pc 1 = .waiting (.put 7) ∧
    s.buffer.got = [5] ∧ Correct 1 s := by
  have h₀ : Reachable (Init 1) (Step 1)
      (⟨initialSems 1, ⟨0, 0, fun _ => 0, fun _ => false, [], []⟩, fun _ => .outside⟩ :
        State (Fin 3) ℕ) := .init (.start _)
  exact ⟨_, by decide +kernel, by decide +kernel, buffer_correct (by decide) (by decide)
    (((((((((h₀.step (.first 0 (.put 5) rfl)).step (.first 1 (.put 7) (by decide))).step
      (.lock 0 (.put 5) (by decide))).step (.access 0 (.put 5) (by decide))).step
      (.unlock 0 (.put 5) none (by decide))).step (.last 0 (.put 5) none (by decide))).step
      (.first 2 .get (by decide +kernel))).step (.lock 2 .get (by decide +kernel))).step
      (.access 2 .get (by decide +kernel)))⟩

end OsShell.BoundedBuffer
