import OsShell.Library.Runs

/-!
# Reads of a shared open file

After `fork`, any number of processes call `read` of one `ActualFile`, which
takes no lock. A call is three steps: it reads `totalOffset` and clips `n`, it
copies from where `totalOffset` is then, and it adds to `totalOffset`, which has
32 bits. The code keeps no `ranges`: these are the bytes that the calls have
copied so far, each as its first position and its number.
-/

namespace OsShell.ActualFile

open Runs

variable {C : Type*}

/-- Where a call is, with its local `bytes_read`. -/
inductive Pc
  | idle
  | clipped (bytesRead : ℕ)
  | copied (bytesRead : ℕ)
deriving DecidableEq

structure State (C : Type*) where
  totalOffset : ℕ
  pc : C → Pc
  ranges : List (ℕ × ℕ)

inductive Act
  | begin (buffer n : ℕ)
  | copy
  | add

namespace State

variable [DecidableEq C]

def goto (s : State C) (c : C) (p : Pc) : State C := { s with pc := Function.update s.pc c p }

/-- `bytes_read = n`, or what is left of the file; a buffer in kernel space is refused. -/
def begin (size : ℕ) (s : State C) (c : C) (buffer n : ℕ) : State C :=
  if buffer < 0x80000000 then s
  else if s.totalOffset ≥ size ∨ n = 0 then s
  else s.goto c (.clipped (if n > size - s.totalOffset then size - s.totalOffset else n))

/-- `node->read_all(totalOffset, bytes_read, buffer)` -/
def copy (s : State C) (c : C) (bytesRead : ℕ) : State C :=
  { s with ranges := s.ranges ++ [(s.totalOffset, bytesRead)] }.goto c (.copied bytesRead)

/-- `totalOffset += bytes_read`, and the call returns. -/
def add (s : State C) (c : C) (bytesRead : ℕ) : State C :=
  { s with totalOffset := (s.totalOffset + bytesRead) % 2 ^ 32 }.goto c .idle

end State

inductive Init (start : ℕ) : State C → Prop
  | start : Init start ⟨start, fun _ => .idle, []⟩

variable [DecidableEq C]

/-- An event is what a process does, and the state it does it in. -/
inductive Step (size : ℕ) : State C → State C × C × Act → State C → Prop
  | begin {s : State C} (c : C) (buffer n : ℕ) (hpc : s.pc c = .idle) :
      Step size s (s, c, .begin buffer n) (s.begin size c buffer n)
  | copy {s : State C} (c : C) (n : ℕ) (hpc : s.pc c = .clipped n) :
      Step size s (s, c, .copy) (s.copy c n)
  | add {s : State C} (c : C) (n : ℕ) (hpc : s.pc c = .copied n) :
      Step size s (s, c, .add) (s.add c n)

/-- A call copies while no other has copied and not added yet, and while the file still has the
bytes that it clipped `n` to. -/
def Orderly (size : ℕ) : State C × C × Act → Prop
  | (s, c, .copy) => (∀ d n, s.pc d ≠ .copied n) ∧
      ∀ n, s.pc c = .clipped n → s.totalOffset + n ≤ size
  | _ => True

def Covers (p : ℕ) (r : ℕ × ℕ) : Prop :=
  r.1 ≤ p ∧ p < r.1 + r.2

/-- No byte is delivered twice, and the bytes delivered make one range that begins at `start`
and ends at `stop`. -/
structure Consecutive (start stop : ℕ) (ranges : List (ℕ × ℕ)) : Prop where
  once : ranges.Pairwise fun r r' => ∀ p, ¬ (Covers p r ∧ Covers p r')
  covered : ∀ p, (∃ r ∈ ranges, Covers p r) ↔ start ≤ p ∧ p < stop

structure Correct (start size : ℕ) (s : State C) : Prop where
  ranges : ∃ stop, stop ≤ max start size ∧ Consecutive start stop s.ranges
  offset : s.totalOffset ≤ max start size

/-- Where the delivered bytes end: one call at most has copied bytes that it has not added. -/
inductive Upto (s : State C) : ℕ → Prop
  | rest (hpc : ∀ c n, s.pc c ≠ .copied n) : Upto s s.totalOffset
  | one (c : C) (n : ℕ) (hpc : ∀ d m, s.pc d = .copied m ↔ d = c ∧ m = n)
      (hmem : (s.totalOffset, n) ∈ s.ranges) : Upto s (s.totalOffset + n)

structure Inv (start size : ℕ) (s : State C) : Prop where
  consecutive : ∃ stop, Upto s stop ∧ stop ≤ max start size ∧ Consecutive start stop s.ranges
  clipped : ∀ c n, s.pc c = .clipped n → 0 < n ∧ start < size
  copied : ∀ c n, s.pc c = .copied n → 0 < n ∧ start < size
  start_le : start ≤ s.totalOffset

/-- A call has been given bytes beyond the file, or bytes that another was given. -/
def Spoiled (start size : ℕ) (ranges : List (ℕ × ℕ)) : Prop :=
  ¬ (ranges.Pairwise fun r r' => ∀ p, ¬ (Covers p r ∧ Covers p r')) ∨
    ∃ r ∈ ranges, ∃ p, Covers p r ∧ max start size ≤ p

variable {start size : ℕ} {s t : State C}

omit [DecidableEq C] in
theorem Spoiled.incorrect (h : Spoiled start size s.ranges) : ¬ Correct start size s := by
  rintro ⟨⟨stop, hstop, hcons⟩, -⟩
  rcases h with h | ⟨r, hr, p, hp, hle⟩
  · exact h hcons.once
  · have := ((hcons.covered p).mp ⟨r, hr, hp⟩).2
    omega

theorem Spoiled.append {ranges : List (ℕ × ℕ)} (h : Spoiled start size ranges) (r : ℕ × ℕ) :
    Spoiled start size (ranges ++ [r]) := by
  rcases h with h | ⟨r', hr', p, hp⟩
  · exact Or.inl fun hall => h (List.pairwise_append.mp hall).1
  · exact Or.inr ⟨r', List.mem_append_left _ hr', p, hp⟩

theorem Spoiled.step {e : State C × C × Act} (h : Spoiled start size s.ranges)
    (hst : Step size s e t) : Spoiled start size t.ranges := by
  cases hst with
  | begin c buffer n hpc =>
    unfold State.begin
    split
    · exact h
    · split <;> exact h
  | copy c n hpc => exact h.append _
  | add c n hpc => exact h

omit [DecidableEq C] in
theorem inv_of_init (h : Init start s) : Inv start size s := by
  obtain ⟨⟩ := h
  refine ⟨⟨start, .rest fun _ _ => nofun, le_max_left _ _, List.Pairwise.nil, fun p => ?_⟩,
    fun _ _ => nofun, fun _ _ => nofun, le_rfl⟩
  constructor
  · rintro ⟨r, hr, -⟩
    exact absurd hr List.not_mem_nil
  · rintro ⟨hle, hlt⟩
    exact absurd hlt (by simpa using hle)

omit [DecidableEq C] in
theorem Inv.correct (I : Inv start size s) : Correct start size s := by
  obtain ⟨stop, hupto, hle, hcons⟩ := I.consecutive
  refine ⟨⟨stop, hle, hcons⟩, ?_⟩
  cases hupto with
  | rest hpc => exact hle
  | one c n hpc hmem => omega

namespace State

theorem goto_self (s : State C) (c : C) (p : Pc) : (s.goto c p).pc c = p :=
  Function.update_self ..

theorem goto_other {c d : C} (hd : d ≠ c) (p : Pc) : (s.goto c p).pc d = s.pc d :=
  Function.update_of_ne hd _ _

end State

theorem Consecutive.append {stop : ℕ} {ranges : List (ℕ × ℕ)} (h : Consecutive start stop ranges)
    (hle : start ≤ stop) (n : ℕ) : Consecutive start (stop + n) (ranges ++ [(stop, n)]) where
  once := by
    refine List.pairwise_append.mpr ⟨h.once, List.pairwise_singleton .., fun r hr r' hr' p => ?_⟩
    rw [List.mem_singleton.mp hr']
    rintro ⟨hp, hp'⟩
    have := ((h.covered p).mp ⟨r, hr, hp⟩).2
    exact absurd hp'.1 (by simpa using this)
  covered p := by
    constructor
    · rintro ⟨r, hr, hp⟩
      rcases List.mem_append.mp hr with hr | hr
      · have := (h.covered p).mp ⟨r, hr, hp⟩
        omega
      · rw [List.mem_singleton.mp hr] at hp
        exact ⟨hle.trans hp.1, hp.2⟩
    · rintro ⟨hlo, hhi⟩
      by_cases hp : p < stop
      · obtain ⟨r, hr, hcov⟩ := (h.covered p).mpr ⟨hlo, hp⟩
        exact ⟨r, List.mem_append_left _ hr, hcov⟩
      · exact ⟨(stop, n), by simp, by simpa using hp, hhi⟩

namespace Inv

omit [DecidableEq C] in
theorem consecutive_rest (I : Inv start size s) (hpc : ∀ c n, s.pc c ≠ .copied n) :
    Consecutive start s.totalOffset s.ranges := by
  obtain ⟨stop, hupto, -, hcons⟩ := I.consecutive
  cases hupto with
  | rest _ => exact hcons
  | one c n hone _ => exact absurd ((hone c n).mpr ⟨rfl, rfl⟩) (hpc c n)

omit [DecidableEq C] in
theorem consecutive_one (I : Inv start size s) {c : C} {n : ℕ} (hpc : s.pc c = .copied n) :
    (∀ d m, s.pc d = .copied m ↔ d = c ∧ m = n) ∧ (s.totalOffset, n) ∈ s.ranges ∧
      s.totalOffset + n ≤ size ∧ Consecutive start (s.totalOffset + n) s.ranges := by
  have hlt := (I.copied c n hpc).2
  obtain ⟨stop, hupto, hle, hcons⟩ := I.consecutive
  cases hupto with
  | rest hnone => exact absurd hpc (hnone c n)
  | one d m hone hmem =>
    obtain ⟨rfl, rfl⟩ := (hone c n).mp hpc
    exact ⟨hone, hmem, by omega, hcons⟩

theorem begin (I : Inv start size s) {c : C} (hpc : s.pc c = .idle) (buffer n : ℕ) :
    Inv start size (s.begin size c buffer n) := by
  unfold State.begin
  split
  · exact I
  split
  · exact I
  rename_i hroom
  set k := if n > size - s.totalOffset then size - s.totalOffset else n with hk
  have hpos : 0 < k := by
    rw [hk]
    split <;> omega
  have hcopied : ∀ d m, (s.goto c (.clipped k)).pc d = .copied m ↔ s.pc d = .copied m := by
    intro d m
    by_cases hd : d = c
    · rw [hd, State.goto_self, hpc]
      exact ⟨nofun, nofun⟩
    · rw [State.goto_other hd]
  obtain ⟨stop, hupto, hle, hcons⟩ := I.consecutive
  refine ⟨⟨stop, ?_, hle, hcons⟩, fun d m hd => ?_, fun d m hd => ?_, I.start_le⟩
  · cases hupto with
    | rest hnone => exact .rest (s := s.goto c _) fun d m hd => hnone d m ((hcopied d m).mp hd)
    | one d m hone hmem =>
      exact .one (s := s.goto c _) d m (fun e l => (hcopied e l).trans (hone e l)) hmem
  · by_cases hdc : d = c
    · rw [hdc, State.goto_self] at hd
      obtain rfl := Pc.clipped.inj hd
      have := I.start_le
      exact ⟨hpos, by omega⟩
    · rw [State.goto_other hdc] at hd
      exact I.clipped d m hd
  · exact I.copied d m ((hcopied d m).mp hd)

theorem copy (I : Inv start size s) {c : C} {n : ℕ} (hpc : s.pc c = .clipped n)
    (hnone : ∀ d m, s.pc d ≠ .copied m) (hroom : s.totalOffset + n ≤ size) :
    Inv start size (s.copy c n) := by
  have hcopied : ∀ d m, (s.copy c n).pc d = .copied m ↔ d = c ∧ m = n := by
    intro d m
    by_cases hd : d = c
    · rw [hd, show (s.copy c n).pc c = .copied n from State.goto_self ..]
      exact ⟨fun h => ⟨rfl, (Pc.copied.inj h).symm⟩, fun h => by rw [h.2]⟩
    · rw [show (s.copy c n).pc d = s.pc d from State.goto_other (s := ⟨_, _, _⟩) hd _]
      exact ⟨fun h => absurd h (hnone d m), fun h => absurd h.1 hd⟩
  refine ⟨⟨s.totalOffset + n, .one (s := s.copy c n) c n hcopied ?_, ?_, ?_⟩, fun d m hd => ?_,
    fun d m hd => ?_, I.start_le⟩
  · exact List.mem_append_right _ (List.mem_singleton_self _)
  · omega
  · exact (I.consecutive_rest hnone).append I.start_le n
  · by_cases hdc : d = c
    · rw [hdc, show (s.copy c n).pc c = .copied n from State.goto_self ..] at hd
      nomatch hd
    · rw [show (s.copy c n).pc d = s.pc d from State.goto_other (s := ⟨_, _, _⟩) hdc _] at hd
      exact I.clipped d m hd
  · obtain ⟨-, rfl⟩ := (hcopied d m).mp hd
    exact I.clipped c m hpc

theorem add (I : Inv start size s) (hsize : size < 2 ^ 32) {c : C} {n : ℕ}
    (hpc : s.pc c = .copied n) : Inv start size (s.add c n) := by
  obtain ⟨hone, hmem, hle, hcons⟩ := I.consecutive_one hpc
  have hoffset : (s.add c n).totalOffset = s.totalOffset + n := Nat.mod_eq_of_lt (by omega)
  have hother : ∀ d, d ≠ c → (s.add c n).pc d = s.pc d := fun d hd =>
    State.goto_other (s := ⟨_, _, _⟩) hd _
  have hself : (s.add c n).pc c = .idle := State.goto_self ..
  have hnone : ∀ d m, (s.add c n).pc d ≠ .copied m := by
    intro d m hd
    by_cases hdc : d = c
    · rw [hdc, hself] at hd
      nomatch hd
    · rw [hother d hdc] at hd
      exact hdc ((hone d m).mp hd).1
  refine ⟨⟨_, .rest hnone, by omega, hoffset ▸ hcons⟩, fun d m hd => ?_,
    fun d m hd => absurd hd (hnone d m), ?_⟩
  · by_cases hdc : d = c
    · rw [hdc, hself] at hd
      nomatch hd
    · rw [hother d hdc] at hd
      exact I.clipped d m hd
  · have := I.start_le
    omega

theorem spoil (I : Inv start size s) {c : C} {n : ℕ} (hpc : s.pc c = .clipped n)
    (h : ¬ Orderly size (s, c, .copy)) : Spoiled start size (s.copy c n).ranges := by
  obtain ⟨hpos, hlt⟩ := I.clipped c n hpc
  by_cases hnone : ∀ d m, s.pc d ≠ .copied m
  · -- the range ends beyond the file
    have hroom : ¬ s.totalOffset + n ≤ size := by
      intro hroom
      refine h ⟨hnone, fun m hm => ?_⟩
      rw [hpc] at hm
      obtain rfl := Pc.clipped.inj hm
      exact hroom
    refine Or.inr ⟨(s.totalOffset, n), List.mem_append_right _ (List.mem_singleton_self _),
      max size s.totalOffset, ⟨le_max_right _ _, ?_⟩, ?_⟩
    · change max size s.totalOffset < s.totalOffset + n
      omega
    · omega
  · -- the range begins where that of another call does
    push Not at hnone
    obtain ⟨d, m, hd⟩ := hnone
    have hm := (I.copied d m hd).1
    have hmem := (I.consecutive_one hd).2.1
    refine Or.inl fun hall => ?_
    refine (List.pairwise_append.mp hall).2.2 _ hmem (s.totalOffset, n) (List.mem_singleton_self _)
      s.totalOffset ⟨⟨le_rfl, ?_⟩, le_rfl, ?_⟩
    · exact Nat.lt_add_of_pos_right hm
    · exact Nat.lt_add_of_pos_right hpos

end Inv

/-- After every run the property holds exactly when each of the run's steps was orderly. -/
theorem reads_correct_iff (hsize : size < 2 ^ 32) {es : List (State C × C × Act)}
    (h : Trace (Init start) (Step size) es s) :
    Correct start size s ↔ ∀ e ∈ es, Orderly size e := by
  -- the invariant holds while the steps are orderly, and from the first other one it is spoiled
  have key : ((∀ e ∈ es, Orderly size e) ∧ Inv start size s) ∨
      ((¬ ∀ e ∈ es, Orderly size e) ∧ Spoiled start size s.ranges) := by
    refine h.invariant (I := fun es s => ((∀ e ∈ es, Orderly size e) ∧ Inv start size s) ∨
      ((¬ ∀ e ∈ es, Orderly size e) ∧ Spoiled start size s.ranges))
      (fun s hs => Or.inl ⟨fun e he => absurd he List.not_mem_nil, inv_of_init hs⟩) ?_
    rintro es e s t (⟨hes, I⟩ | ⟨hes, hbad⟩) hst
    · by_cases he : Orderly size e
      · refine Or.inl ⟨fun e' he' => ?_, ?_⟩
        · rcases List.mem_append.mp he' with he' | he'
          · exact hes e' he'
          · rwa [List.mem_singleton.mp he']
        · cases hst with
          | begin c buffer n hpc => exact I.begin hpc buffer n
          | copy c n hpc => exact I.copy hpc he.1 (he.2 n hpc)
          | add c n hpc => exact I.add hsize hpc
      · refine Or.inr ⟨fun hall => he (hall e (List.mem_append_right _ (by simp))), ?_⟩
        cases hst with
        | begin c buffer n hpc => exact absurd trivial he
        | copy c n hpc => exact I.spoil hpc he
        | add c n hpc => exact absurd trivial he
    · exact Or.inr ⟨fun hall => hes fun e' he' => hall e' (List.mem_append_left _ he'),
        hbad.step hst⟩
  rcases key with ⟨hes, I⟩ | ⟨hes, hbad⟩
  · exact ⟨fun _ => hes, fun _ => I.correct⟩
  · exact ⟨fun hc => absurd hc hbad.incorrect, fun hall => absurd hall hes⟩

/-- One process reads after the other. -/
theorem read_after_read : ∃ s : State (Fin 2), s.ranges = [(0, 1), (1, 1)] ∧ Correct 0 4 s := by
  have h₀ : Trace (Init 0) (Step 4) [] (⟨0, fun _ => .idle, []⟩ : State (Fin 2)) := .start .start
  have h := ((((h₀.step (.begin 0 0x80000000 1 rfl)).step (.copy 0 1 (by decide))).step
    (.add 0 1 (by decide))).step (.begin 1 0x80000000 1 (by decide))).step (.copy 1 1 (by decide))
  refine ⟨_, by decide, (reads_correct_iff (by decide) h).mpr fun e he => ?_⟩
  simp only [List.nil_append, List.cons_append, List.mem_cons, List.not_mem_nil, or_false] at he
  rcases he with rfl | rfl | rfl | rfl | rfl
  · trivial
  · refine ⟨fun d n => ?_, fun n hn => ?_⟩
    · fin_cases d <;> exact nofun
    · obtain rfl : 1 = n := Pc.clipped.inj hn
      decide
  · trivial
  · trivial
  · refine ⟨fun d n => ?_, fun n hn => ?_⟩
    · fin_cases d <;> exact nofun
    · obtain rfl : 1 = n := Pc.clipped.inj hn
      decide

/-- Two processes read before either has added to `totalOffset`. -/
theorem read_during_read : ∃ (es : List (State (Fin 2) × Fin 2 × Act)) (s : State (Fin 2)),
    Trace (Init 0) (Step 4) es s ∧ s.ranges = [(0, 1), (0, 1)] ∧ ¬ Correct 0 4 s := by
  have h₀ : Trace (Init 0) (Step 4) [] (⟨0, fun _ => .idle, []⟩ : State (Fin 2)) := .start .start
  have h := (((((h₀.step (.begin 0 0x80000000 1 rfl)).step (.begin 1 0x80000000 1 (by decide))).step
    (.copy 0 1 (by decide))).step (.copy 1 1 (by decide))).step (.add 0 1 (by decide))).step
    (.add 1 1 (by decide))
  refine ⟨_, _, h, by decide, Spoiled.incorrect (Or.inl fun hall => ?_)⟩
  exact List.rel_of_pairwise_cons hall (List.mem_singleton_self (0, 1)) 0
    ⟨⟨le_rfl, by decide⟩, le_rfl, by decide⟩

end OsShell.ActualFile
