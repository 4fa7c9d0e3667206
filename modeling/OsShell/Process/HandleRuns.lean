import OsShell.Process.Tables

/-!
# Runs of handle operations

A process is used through its handles only. After any run of operations the
binding of an id is what the last operation on that id left: `replay` reads it
off the operations and what they returned, without a look at the tables.
-/

namespace OsShell.Processes

open Runs PhysMem Vmm

variable {F S U : Type}

inductive TableEvent (F S U : Type)
  | newSemaphore (s : S) (r : ℤ)
  | setFile (f : F) (r : ℤ)
  | fork (u : U) (r : ℤ)
  | dup2 (oldfd newfd : Id) (r : ℤ)
  | close (id : Id) (r : ℤ)
  | wait (id : Id) (r : ℤ)

def Lowest (M : Id → Option (Obj F S U)) (k : Kind) (i : Fin 10) : Prop :=
  M (handle k i) = none ∧ ∀ j < i, M (handle k j) ≠ none

/-- `r` is the handle of a new object, or -1. -/
def bind (M : Id → Option (Obj F S U)) (r : ℤ) (o : Obj F S U) : Id → Option (Obj F S U) :=
  if r = -1 then M else Function.update M (BitVec.ofInt 32 r) (some o)

def TableEvent.replay (M : Id → Option (Obj F S U)) : TableEvent F S U → Id → Option (Obj F S U)
  | .newSemaphore s r => bind M r (.sem s)
  | .setFile f r => bind M r (.file f)
  | .fork u r => bind M r (.child u)
  | .dup2 oldfd newfd _ => Function.update M newfd (M oldfd)
  | .close id r => if r = 0 then Function.update M id none else M
  | .wait id r => if r = 0 then Function.update M id none else M

/-- The one id whose binding the operation may change. -/
def TableEvent.target : TableEvent F S U → Id
  | .newSemaphore _ r => .ofInt 32 r
  | .setFile _ r => .ofInt 32 r
  | .fork _ r => .ofInt 32 r
  | .dup2 _ newfd _ => newfd
  | .close id _ => id
  | .wait id _ => id

theorem TableEvent.replay_of_ne {M : Id → Option (Obj F S U)} {e : TableEvent F S U} {id : Id}
    (h : id ≠ e.target) : e.replay M id = M id := by
  have hbind : ∀ r o, id ≠ BitVec.ofInt 32 r → bind M r o id = M id := by
    intro r o hne
    unfold bind
    split
    · rfl
    · exact Function.update_of_ne hne _ _
  cases e with
  | newSemaphore s r => exact hbind r _ h
  | setFile f r => exact hbind r _ h
  | fork u r => exact hbind r _ h
  | dup2 oldfd newfd r => exact Function.update_of_ne h _ _
  | close id' r =>
    by_cases hr : r = 0
    · simp only [replay, if_pos hr]
      exact Function.update_of_ne h _ _
    · simp only [replay, if_neg hr]
  | wait id' r =>
    by_cases hr : r = 0
    · simp only [replay, if_pos hr]
      exact Function.update_of_ne h _ _
    · simp only [replay, if_neg hr]

inductive TableStep : Process F S U → TableEvent F S U → Process F S U → Prop
  | newSemaphore (p : Process F S U) (s : S) :
      TableStep p (.newSemaphore s (p.newSemaphore s).1) (p.newSemaphore s).2
  | setFile (p : Process F S U) (f : F) : TableStep p (.setFile f (p.setFile f).1) (p.setFile f).2
  | fork {p : Process F S U} {c : Config} {shared : ℕ} {m : Machine} {u : U} {r : Forked F S U}
      (hcall : fork c shared u p m = .ok r) (hchild : r.child.isSome) :
      TableStep p (.fork u r.id) r.parent
  | dup2 {p : Process F S U} {oldfd newfd : Id} {f : F} (hne : oldfd ≠ newfd)
      (hold : lookup p oldfd = some (.file f)) (hnew : 0 ≤ newfd.toInt ∧ newfd.toInt < 10) :
      TableStep p (.dup2 oldfd newfd (p.dup2 oldfd newfd).1) (p.dup2 oldfd newfd).2
  | close (p : Process F S U) (id : Id) : TableStep p (.close id (p.close id).1) (p.close id).2
  | wait (p : Process F S U) (id : Id) : TableStep p (.wait id (p.wait id).1) (p.wait id).2.2

theorem firstFree_eq_some {O : Type} {table : Fin 10 → Option O} {i : Fin 10} :
    firstFree table = some i ↔ table i = none ∧ ∀ j < i, table j ≠ none := by
  rw [firstFree, List.find?_eq_some_iff_getElem]
  simp only [Option.isNone_iff_eq_none, List.getElem_finRange, Bool.not_eq_true',
    List.length_finRange]
  refine and_congr_right fun _ => ⟨?_, fun h => ⟨i.val, i.isLt, rfl, fun j hj => ?_⟩⟩
  · rintro ⟨n, hn, rfl, hlow⟩ j hj hnone
    have := hlow j.val hj
    simp [hnone] at this
  · have := h ⟨j, by omega⟩ hj
    simpa [Option.isSome_iff_ne_none] using this

theorem firstFree_eq_none {O : Type} {table : Fin 10 → Option O} :
    firstFree table = none ↔ ∀ i, table i ≠ none := by
  simp [firstFree]

def Allocates (M : Id → Option (Obj F S U)) (k : Kind) (r : ℤ) (o : Obj F S U)
    (M' : Id → Option (Obj F S U)) : Prop :=
  (∃ i, Lowest M k i ∧ r = (handle k i).toInt ∧ M' = Function.update M (handle k i) (some o)) ∨
    (∀ i, M (handle k i) ≠ none) ∧ r = -1 ∧ M' = M

theorem newSemaphore_allocates (p : Process F S U) (s : S) :
    Allocates (lookup p) .sem (p.newSemaphore s).1 (.sem s) (lookup (p.newSemaphore s).2) := by
  have hcode : ∀ i : Fin 10, ((SEM ||| (i.val &&& INDEX_MASK) : ℕ) : ℤ) = (handle .sem i).toInt := by
    decide
  cases h : firstFree p.sems with
  | none =>
    rw [firstFree_eq_none] at h
    exact .inr ⟨fun i => by simpa [Process.slot] using h i, by
      simp [Process.newSemaphore, firstFree_eq_none.mpr h]⟩
  | some i =>
    simp only [Process.newSemaphore, h]
    rw [firstFree_eq_some] at h
    refine .inl ⟨i, ⟨by simpa [Process.slot] using h.1, fun j hj => ?_⟩, hcode i, lookup_sems p i _⟩
    simpa [Process.slot] using h.2 j hj

theorem setFile_allocates (p : Process F S U) (f : F) :
    Allocates (lookup p) .file (p.setFile f).1 (.file f) (lookup (p.setFile f).2) := by
  have hcode : ∀ i : Fin 10, (i.val : ℤ) = (handle .file i).toInt := by decide
  cases h : firstFree p.files with
  | none =>
    rw [firstFree_eq_none] at h
    exact .inr ⟨fun i => by simpa [Process.slot] using h i, by
      simp [Process.setFile, firstFree_eq_none.mpr h]⟩
  | some i =>
    simp only [Process.setFile, h]
    rw [firstFree_eq_some] at h
    refine .inl ⟨i, ⟨by simpa [Process.slot] using h.1, fun j hj => ?_⟩, hcode i, lookup_files p i _⟩
    simpa [Process.slot] using h.2 j hj

theorem fork_allocates {c : Config} {shared : ℕ} {u : U} {p : Process F S U} {m : Machine}
    {r : Forked F S U} (hcall : fork c shared u p m = .ok r) (hchild : r.child.isSome) :
    ∃ i, Lowest (lookup p) .child i ∧ r.id = (handle .child i).toInt ∧
      lookup r.parent = Function.update (lookup p) (handle .child i) (some (.child u)) := by
  have hcode : ∀ i : Fin 10, ((PROC ||| i.val : ℕ) : ℤ) = (handle .child i).toInt := by decide
  unfold fork at hcall
  split at hcall
  · obtain rfl := Except.ok.inj hcall
    simp at hchild
  · rename_i i hfree
    have hlow := firstFree_eq_some.mp hfree
    cases hmake : (make c shared u m : Except Halt (Process F S U × Machine)) with
    | error e => rw [hmake] at hcall; cases hcall
    | ok made =>
      rw [hmake] at hcall
      simp only [Stopping.ok_bind] at hcall
      have houtput : made.1.output = u := by
        unfold make at hmake
        cases hpd : makePd c shared m with
        | error e => rw [hpd] at hmake; cases hmake
        | ok x => rw [hpd] at hmake; cases hmake; rfl
      cases hcopy : copyPrivate p.pd made.1.pd made.2 with
      | error e => rw [hcopy] at hcall; cases hcall
      | ok m' =>
        rw [hcopy] at hcall
        obtain rfl := Except.ok.inj hcall
        refine ⟨i, ⟨by simpa [Process.slot] using hlow.1, fun j hj => ?_⟩, hcode i, ?_⟩
        · simpa [Process.slot] using hlow.2 j hj
        · have := lookup_children p i (some u)
          simpa [houtput] using this

theorem eq_handle_of_toInt {fd : Id} (h : 0 ≤ fd.toInt ∧ fd.toInt < 10) :
    fd = handle .file ⟨fd.toInt.toNat, by omega⟩ := by
  have hcode : ∀ i : Fin 10, (handle .file i).toInt = i.val := by decide
  rw [← BitVec.toInt_inj, hcode]
  simp only
  omega

theorem dup2_eq {p : Process F S U} {oldfd newfd : Id} {f : F} (hne : oldfd ≠ newfd)
    (hold : lookup p oldfd = some (.file f)) (hnew : 0 ≤ newfd.toInt ∧ newfd.toInt < 10) :
    (p.dup2 oldfd newfd).1 = newfd.toInt ∧
      lookup (p.dup2 oldfd newfd).2 = Function.update (lookup p) newfd (lookup p oldfd) := by
  have hcode : ∀ i : Fin 10, (handle .file i).toInt = i.val := by decide
  obtain ⟨k, i, rfl, hslot⟩ := exists_handle_of_lookup hold
  obtain rfl : k = .file := by
    cases k with
    | file => rfl
    | child => cases h : p.children i <;> simp [Process.slot, h] at hslot
    | sem => cases h : p.sems i <;> simp [Process.slot, h] at hslot
  have hfile : p.files i = some f := by
    cases h : p.files i <;> simp [Process.slot, h] at hslot
    rw [hslot]
  generalize hj : (⟨newfd.toInt.toNat, by omega⟩ : Fin 10) = j
  have hnewfd : newfd = handle .file j := hj ▸ eq_handle_of_toInt hnew
  have hi : ¬ ((handle .file i).toInt < 0 ∨ (handle .file i).toInt ≥ 10) := by
    have := i.isLt
    rw [hcode]
    omega
  have hold' : (⟨(handle .file i).toInt.toNat, by omega⟩ : Fin 10) = i := by
    apply Fin.ext
    simp [hcode]
  have hij : i ≠ j := fun heq => hne (by rw [heq, hnewfd])
  simp only [Process.dup2, if_neg hne, dif_neg hi, hold', hfile, Option.isNone_some]
  rw [if_neg (by simp), dif_neg (by omega)]
  simp only [hj, true_and]
  obtain ⟨-, hclose⟩ := close_eq p newfd
  generalize (p.close newfd).2 = q at hclose ⊢
  have hq : (q.files i).map .file = lookup p (handle .file i) := by
    have : lookup q (handle .file i) = (q.files i).map .file := lookup_handle q .file i
    rw [← this, hclose, Function.update_of_ne hne]
  rw [lookup_files, hclose, hq, hnewfd, Function.update_idem]

theorem Allocates.bind_eq {M M' : Id → Option (Obj F S U)} {k : Kind} {r : ℤ} {o : Obj F S U}
    (h : Allocates M k r o M') : bind M r o = M' := by
  rcases h with ⟨i, -, rfl, rfl⟩ | ⟨-, rfl, rfl⟩
  · have hcode : ∀ k : Kind, ∀ i : Fin 10, (handle k i).toInt ≠ -1 := by
      intro k i
      cases k <;> revert i <;> decide
    rw [bind, if_neg (hcode k i), BitVec.ofInt_toInt]
  · exact if_pos rfl

theorem TableStep.replay {p p' : Process F S U} {e : TableEvent F S U} (h : TableStep p e p') :
    lookup p' = e.replay (lookup p) := by
  cases h with
  | newSemaphore s => exact (newSemaphore_allocates p s).bind_eq.symm
  | setFile f => exact (setFile_allocates p f).bind_eq.symm
  | fork hcall hchild => exact (Allocates.bind_eq (.inl (fork_allocates hcall hchild))).symm
  | dup2 hne hold hnew => exact (dup2_eq hne hold hnew).2
  | close id =>
    obtain ⟨hr, hlookup⟩ := close_eq p id
    rw [hlookup]
    cases h : lookup p id with
    | none => simp [TableEvent.replay, hr, h]
    | some o => simp [TableEvent.replay, hr, h]
  | wait id =>
    obtain ⟨hr, -, hlookup⟩ := wait_eq p id
    rw [hlookup]
    cases h : (lookup p id).bind Obj.child? with
    | none => simp [TableEvent.replay, hr, h]
    | some u => simp [TableEvent.replay, hr, h]

/-- After any run the process answers from the map that the operations left. -/
structure Answers (M : Id → Option (Obj F S U)) (p : Process F S U) : Prop where
  bound : lookup p = M
  handles : ∀ id o, M id = some o → ∃ k i, id = handle k i
  getSemaphore : ∀ id, p.getSemaphore id = (M id).bind Obj.sem?
  getFile : ∀ id, p.getFile id = (M id).bind Obj.file?
  wait : ∀ id, (p.wait id).1 = (if ((M id).bind Obj.child?).isSome then 0 else -1) ∧
    (p.wait id).2.1 = (M id).bind Obj.child?
  close : ∀ id, (p.close id).1 = if (M id).isSome then 0 else -1
  newSemaphore : ∀ s, Allocates M .sem (p.newSemaphore s).1 (.sem s) (lookup (p.newSemaphore s).2)
  setFile : ∀ f, Allocates M .file (p.setFile f).1 (.file f) (lookup (p.setFile f).2)
  fork : ∀ (c : Config) shared u m (r : Forked F S U), fork c shared u p m = .ok r → r.child.isSome →
    Allocates M .child r.id (.child u) (lookup r.parent)
  others : ∀ e p', TableStep p e p' → ∀ id, id ≠ e.target → lookup p' id = M id

theorem answers (p : Process F S U) : Answers (lookup p) p where
  bound := rfl
  handles := fun id o h => by
    obtain ⟨k, i, hid, -⟩ := exists_handle_of_lookup h
    exact ⟨k, i, hid⟩
  getSemaphore := getSemaphore_eq p
  getFile := getFile_eq p
  wait := fun id => ⟨(wait_eq p id).1, (wait_eq p id).2.1⟩
  close := fun id => (close_eq p id).1
  newSemaphore := newSemaphore_allocates p
  setFile := setFile_allocates p
  fork := fun _ _ _ _ _ hcall hchild => .inl (fork_allocates hcall hchild)
  others := fun e p' hst id hne => by rw [hst.replay, e.replay_of_ne hne]

theorem run_answers {p₀ p : Process F S U} {es : List (TableEvent F S U)}
    (h : Trace (· = p₀) TableStep es p) : Answers (es.foldl TableEvent.replay (lookup p₀)) p := by
  have hreplay : lookup p = es.foldl TableEvent.replay (lookup p₀) := by
    refine h.invariant (I := fun es p => lookup p = es.foldl TableEvent.replay (lookup p₀)) ?_ ?_
    · rintro p rfl
      rfl
    · intro es e p p' hp hst
      rw [hst.replay, hp, List.foldl_append]
      rfl
  exact hreplay ▸ answers p

/-- A semaphore and a file that share an index, and the file closed again. -/
def tableEvents : List (TableEvent ℕ ℕ ℕ) :=
  [.newSemaphore 7 0x20000000, .setFile 8 0, .close 0 0]

theorem tableEvents_answers : ∃ p₀ p : Process ℕ ℕ ℕ,
    Answers (tableEvents.foldl TableEvent.replay (lookup p₀)) p := by
  let p₀ : Process ℕ ℕ ℕ := ⟨fun _ => none, fun _ => none, fun _ => none, 0, 0⟩
  have h0 : Trace (· = p₀) TableStep [] p₀ := .start rfl
  have h1 := h0.step (.newSemaphore p₀ 7)
  have h2 := h1.step (.setFile _ 8)
  exact ⟨p₀, _, run_answers (h2.step (.close _ 0))⟩

end OsShell.Processes
