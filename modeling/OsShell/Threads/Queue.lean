import Mathlib

/-!
# Intrusive queues

`Queue` keeps pointers to its first and last element, and each element carries
the pointer to the one behind it. The links are shared by all queues: a thread
may be in one of them at a time. `q.Holds next ts` says that `ts` is what the
queue holds, first to last.
-/

namespace OsShell.Threads

variable {T : Type*}

structure Queue (T : Type*) where
  first : Option T := none
  last : Option T := none

/-- `none` is a write through a null `last`. -/
def Queue.add [DecidableEq T] (q : Queue T) (next : T → Option T) (t : T) :
    Option (Queue T × (T → Option T)) :=
  let next := Function.update next t none
  match q.first with
  | none => some (⟨some t, some t⟩, next)
  | some _ =>
    match q.last with
    | none => none
    | some last => some ({ q with last := some t }, Function.update next last (some t))

def Queue.remove (q : Queue T) (next : T → Option T) : Queue T × Option T :=
  match q.first with
  | none => (q, none)
  | some it =>
    let first := next it
    (⟨first, if first = none then none else q.last⟩, some it)

def Chain (next : T → Option T) : Option T → List T → Prop
  | first, [] => first = none
  | first, t :: ts => first = some t ∧ Chain next (next t) ts

structure Queue.Holds (q : Queue T) (next : T → Option T) (ts : List T) : Prop where
  chain : Chain next q.first ts
  last : q.last = ts.getLast?
  nodup : ts.Nodup

theorem Chain.frame {next next' : T → Option T} {first : Option T} {ts : List T}
    (h : Chain next first ts) (hts : ∀ t ∈ ts, next' t = next t) : Chain next' first ts := by
  induction ts generalizing first with
  | nil => exact h
  | cons t ts ih =>
    refine ⟨h.1, ?_⟩
    rw [hts t List.mem_cons_self]
    exact ih h.2 fun u hu => hts u (List.mem_cons_of_mem t hu)

theorem Chain.snoc [DecidableEq T] {next : T → Option T} {first : Option T} {ts : List T}
    {last t : T} (h : Chain next first ts) (hlast : ts.getLast? = some last) (hnd : ts.Nodup)
    (ht : t ∉ ts) :
    Chain (Function.update (Function.update next t none) last (some t)) first (ts ++ [t]) := by
  induction ts generalizing first with
  | nil => cases hlast
  | cons u ts ih =>
    obtain ⟨hu, hnd⟩ := List.nodup_cons.mp hnd
    refine ⟨h.1, ?_⟩
    cases ts with
    | nil =>
      obtain rfl : u = last := by simpa using hlast
      have htu : t ≠ u := by simpa using ht
      rw [Function.update_self]
      refine ⟨rfl, ?_⟩
      rw [Function.update_of_ne htu, Function.update_self]
      rfl
    | cons v ts =>
      have hlast' : (v :: ts).getLast? = some last := by simpa [List.getLast?_cons] using hlast
      have hul : u ≠ last := fun heq => hu (heq ▸ List.mem_of_getLast? hlast')
      have hut : u ≠ t := fun heq => ht (heq ▸ List.mem_cons_self)
      rw [Function.update_of_ne hul, Function.update_of_ne hut]
      exact ih h.2 hlast' hnd fun hm => ht (List.mem_cons_of_mem u hm)

namespace Queue.Holds

variable {q q' : Queue T} {next next' : T → Option T} {ts : List T} {t : T}

theorem empty (next : T → Option T) : (⟨none, none⟩ : Queue T).Holds next [] :=
  ⟨rfl, rfl, List.nodup_nil⟩

theorem frame (h : q.Holds next ts) (hts : ∀ t ∈ ts, next' t = next t) : q.Holds next' ts :=
  ⟨h.chain.frame hts, h.last, h.nodup⟩

theorem first_eq_none (h : q.Holds next ts) : q.first = none ↔ ts = [] := by
  cases ts with
  | nil => exact ⟨fun _ => rfl, fun _ => h.chain⟩
  | cons t ts => simp [h.chain.1]

theorem add [DecidableEq T] (h : q.Holds next ts) (ht : t ∉ ts) :
    ∃ q' next', q.add next t = some (q', next') ∧ q'.Holds next' (ts ++ [t]) ∧
      ∀ u, u ∉ ts → u ≠ t → next' u = next u := by
  cases ts with
  | nil =>
    have hfirst : q.first = none := h.chain
    refine ⟨⟨some t, some t⟩, Function.update next t none, by simp [Queue.add, hfirst],
      ⟨⟨rfl, ?_⟩, rfl, List.nodup_singleton t⟩, fun u _ hu => Function.update_of_ne hu _ _⟩
    rw [Function.update_self]
    rfl
  | cons v ts =>
    obtain ⟨last, hlast⟩ : ∃ last, (v :: ts).getLast? = some last :=
      ⟨_, List.getLast?_eq_some_getLast (List.cons_ne_nil v ts)⟩
    have hadd : q.add next t = some ({ q with last := some t },
        Function.update (Function.update next t none) last (some t)) := by
      simp only [Queue.add, h.chain.1, h.last, hlast]
    refine ⟨_, _, hadd, ⟨h.chain.snoc hlast h.nodup ht, ?_, ?_⟩, fun u hu hut => ?_⟩
    · rw [List.getLast?_concat]
    · rw [← List.concat_eq_append]
      exact h.nodup.concat ht
    · have hul : u ≠ last := fun heq => hu (heq ▸ List.mem_of_getLast? hlast)
      rw [Function.update_of_ne hul, Function.update_of_ne hut]

theorem remove_nil (h : q.Holds next []) : q.remove next = (q, none) := by
  have hfirst : q.first = none := h.chain
  rw [Queue.remove, hfirst]

theorem remove_cons (h : q.Holds next (t :: ts)) :
    (q.remove next).2 = some t ∧ (q.remove next).1.Holds next ts := by
  have hfirst : q.first = some t := h.chain.1
  simp only [Queue.remove, hfirst, true_and]
  refine ⟨h.chain.2, ?_, (List.nodup_cons.mp h.nodup).2⟩
  cases ts with
  | nil =>
    have hnext : next t = none := h.chain.2
    rw [if_pos hnext]
    rfl
  | cons u ts =>
    have hnext : next t = some u := h.chain.2.1
    rw [if_neg (by simp [hnext]), h.last, List.getLast?_cons_cons]

end Queue.Holds

end OsShell.Threads
