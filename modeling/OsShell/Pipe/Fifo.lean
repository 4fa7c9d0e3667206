import OsShell.Pipe.Code

/-!
# The pipe is a FIFO

The ring holds a list of at most 1024 bytes, and the two semaphores count its
bytes and its free places. Each body keeps that, and so the calls act on the
list one after the other: a write appends what fits, a read takes what is there.
-/

namespace OsShell.Pipes

open Runs Tokens Sections

structure Holds (xs : List UInt8) (pipe : Ring) (tokens : Side → ℕ) : Prop where
  length_le : xs.length ≤ 1024
  count : pipe.count = xs.length
  read_lt : pipe.readIndex < 1024
  write_eq : pipe.writeIndex = (pipe.readIndex + xs.length) % 1024
  byte : ∀ i (h : i < xs.length), pipe.buffer ((pipe.readIndex + i) % 1024) = xs[i]
  readSem : tokens .readSem = xs.length
  writeSem : tokens .writeSem = 1024 - xs.length

def spec : Call → List UInt8 → Result → List UInt8 → Prop
  | .write data size, xs, r, xs' =>
    r = ⟨(min size.toNat (1024 - xs.length) : ℕ), []⟩ ∧
      xs' = xs ++ (List.range (min size.toNat (1024 - xs.length))).map data
  | .read size, xs, r, xs' =>
    r = ⟨(min size.toNat xs.length : ℕ), xs.take size.toNat⟩ ∧ xs' = xs.drop size.toNat

variable {xs : List UInt8} {pipe : Ring} {tokens : Side → ℕ} {c : UInt8}

theorem holds_new (buffer : ℕ → UInt8) : Holds [] (.new buffer) Pipes.tokens where
  length_le := by simp
  count := rfl
  read_lt := by simp [Ring.new]
  write_eq := rfl
  byte := fun i h => absurd h (by simp)
  readSem := rfl
  writeSem := rfl

theorem place_ne {r i j : ℕ} (hi : i < 1024) (hj : j < 1024) (hij : i ≠ j) :
    (r + i) % 1024 ≠ (r + j) % 1024 := by
  omega

theorem Holds.store (h : Holds xs pipe tokens) (hlt : xs.length < 1024) :
    Holds (xs ++ [c]) (pipe.store c) (Function.update
      (Function.update tokens .writeSem (tokens .writeSem - 1)) .readSem
      (Function.update tokens .writeSem (tokens .writeSem - 1) .readSem + 1)) where
  length_le := by simp; omega
  count := by simp [Ring.store, h.count]
  read_lt := h.read_lt
  write_eq := by
    have := h.write_eq
    simp [Ring.store, MAX_BUFFER_SIZE]
    omega
  byte := by
    intro i hi
    simp only [List.length_append, List.length_singleton] at hi
    simp only [Ring.store, h.write_eq]
    by_cases hlast : i = xs.length
    · subst hlast
      rw [Function.update_self, List.getElem_concat_length rfl]
    · rw [Function.update_of_ne (place_ne (by omega) hlt hlast),
        List.getElem_append_left (by omega)]
      exact h.byte i (by omega)
  readSem := by simp [h.readSem]
  writeSem := by
    have := h.writeSem
    simp
    omega

theorem Holds.load (h : Holds (c :: xs) pipe tokens) :
    pipe.buffer pipe.readIndex = c ∧ Holds xs pipe.load (Function.update
      (Function.update tokens .readSem (tokens .readSem - 1)) .writeSem
      (Function.update tokens .readSem (tokens .readSem - 1) .writeSem + 1)) := by
  have hread := h.read_lt
  have hlen := h.length_le
  rw [List.length_cons] at hlen
  refine ⟨?_, by omega, ?_, ?_, ?_, fun i hi => ?_, ?_, ?_⟩
  · have := h.byte 0 (by simp)
    rwa [Nat.add_zero, Nat.mod_eq_of_lt hread] at this
  · simp [Ring.load, h.count]
  · exact Nat.mod_lt _ (by norm_num [MAX_BUFFER_SIZE])
  · have := h.write_eq
    simp [Ring.load, MAX_BUFFER_SIZE] at this ⊢
    omega
  · have := h.byte (i + 1) (by simpa using hi)
    simp only [Ring.load, MAX_BUFFER_SIZE]
    rw [List.getElem_cons_succ] at this
    rw [← this]
    congr 1
    change ((pipe.readIndex + 1) % 1024 + i) % 1024 = _
    omega
  · simp [h.readSem]
  · have := h.writeSem
    simp at this ⊢
    omega

theorem writeLoop_safe (data : ℕ → UInt8) (n i : ℕ) (w : ℤ) (h : Holds xs pipe tokens) :
    Safe (fun r pipe' tokens' => r = ⟨w + (min n (1024 - xs.length) : ℕ), []⟩ ∧
        Holds (xs ++ (List.range (min n (1024 - xs.length))).map fun j => data (i + j)) pipe' tokens')
      (writeLoop data n i w) pipe tokens := by
  induction n generalizing i w xs pipe tokens with
  | zero => exact ⟨by simp, by simpa using h⟩
  | succ n ih =>
    have hlen := h.length_le
    have hcount := h.count
    rw [writeLoop]
    change Safe _ (if pipe.count < MAX_BUFFER_SIZE then _ else _) pipe tokens
    by_cases hfull : xs.length = 1024
    · rw [if_neg (by simp [MAX_BUFFER_SIZE, hcount, hfull])]
      exact ⟨by simp [hfull], by simpa [hfull] using h⟩
    · rw [if_pos (by simp [MAX_BUFFER_SIZE, hcount]; omega)]
      refine ⟨by rw [h.writeSem]; omega, ?_⟩
      have hstep := ih (i + 1) (w + 1) (h.store (c := data i) (by omega))
      refine hstep.mono fun r pipe' tokens' hQ => ?_
      have hmin : min (n + 1) (1024 - xs.length) = min n (1024 - (xs.length + 1)) + 1 := by omega
      rw [List.length_append, List.length_singleton] at hQ
      rw [hmin, List.range_succ_eq_map]
      refine ⟨?_, ?_⟩
      · rw [hQ.1]
        congr 1
        push_cast
        ring
      · have hbytes := hQ.2
        simp only [List.append_assoc, List.singleton_append] at hbytes
        simpa [Function.comp_def, Nat.add_assoc, Nat.add_comm, Nat.add_left_comm] using hbytes

theorem readLoop_safe (n : ℕ) (r : ℤ) (data : List UInt8) (h : Holds xs pipe tokens) :
    Safe (fun r' pipe' tokens' => r' = ⟨r + (min n xs.length : ℕ), data ++ xs.take n⟩ ∧
        Holds (xs.drop n) pipe' tokens') (readLoop n r data) pipe tokens := by
  induction n generalizing r data xs pipe tokens with
  | zero => exact ⟨by simp, h⟩
  | succ n ih =>
    have hcount := h.count
    rw [readLoop]
    change Safe _ (if pipe.count > 0 then _ else _) pipe tokens
    cases xs with
    | nil =>
      rw [if_neg (by simp [hcount])]
      exact ⟨by simp, by simpa using h⟩
    | cons c xs =>
      obtain ⟨hbyte, hload⟩ := h.load
      rw [if_pos (by simp [hcount])]
      refine ⟨by simp [h.readSem], ?_⟩
      have hstep := ih (r + 1) (data ++ [pipe.buffer pipe.readIndex]) hload
      refine hstep.mono fun r' pipe' tokens' hQ => ⟨?_, hQ.2⟩
      rw [hQ.1, hbyte]
      simp
      omega

theorem implements : Implements body spec Holds := by
  intro c xs pipe tokens h
  cases c with
  | write data size =>
    refine (writeLoop_safe data size.toNat 0 0 h).mono fun r pipe' tokens' hQ => ?_
    exact ⟨_, ⟨by rw [hQ.1]; simp, rfl⟩, by simpa using hQ.2⟩
  | read size =>
    refine (readLoop_safe size.toNat 0 [] h).mono fun r pipe' tokens' hQ => ?_
    exact ⟨_, ⟨by rw [hQ.1]; simp, rfl⟩, hQ.2⟩

/-- The bytes that a call has put into the pipe: the first of its `data`, as many as it says. -/
def accepted : List (Call × Result) → List UInt8 :=
  List.flatMap fun
    | (.write data _, r) => (List.range r.count.toNat).map data
    | (.read _, _) => []

def returned : List (Call × Result) → List UInt8 :=
  List.flatMap fun
    | (.write _ _, _) => []
    | (.read _, r) => r.data

def Ring.buffered (pipe : Ring) : List UInt8 :=
  (List.range pipe.count.toNat).map fun i => pipe.buffer ((pipe.readIndex + i) % 1024)

theorem Holds.buffered (h : Holds xs pipe tokens) : pipe.buffered = xs := by
  refine List.ext_getElem (by simp [Ring.buffered, h.count]) fun i hi hxs => ?_
  simp [Ring.buffered, h.byte i hxs]

theorem legal_fifo {calls : List (Call × Result)} (h : Legal spec [] calls xs) :
    returned calls ++ xs = accepted calls := by
  induction h with
  | nil => rfl
  | @snoc calls xs xs' c r hcalls hspec ih =>
    simp only [returned, accepted, List.flatMap_append, List.flatMap_singleton] at ih ⊢
    cases c with
    | write data size =>
      obtain ⟨rfl, rfl⟩ := hspec
      simp only [Int.toNat_natCast, List.append_nil, ← ih, List.append_assoc]
    | read size =>
      obtain ⟨rfl, rfl⟩ := hspec
      simp [← ih]

structure Rest (xs : List UInt8) (pipe : Ring) (tokens : Side → ℕ) : Prop where
  count_nonneg : 0 ≤ pipe.count
  count_le : pipe.count ≤ 1024
  write_index : (pipe.writeIndex : ℤ) = (pipe.readIndex + pipe.count) % 1024
  read_sem : (tokens .readSem : ℤ) = pipe.count
  write_sem : (tokens .writeSem : ℤ) = 1024 - pipe.count
  buffered : pipe.buffered = xs

theorem Holds.rest (h : Holds xs pipe tokens) : Rest xs pipe tokens := by
  have hlen := h.length_le
  have hcount := h.count
  have hwrite := h.write_eq
  have hsem := h.writeSem
  refine ⟨by omega, by omega, by omega, by rw [h.readSem, hcount], by omega, h.buffered⟩

variable {T : Type} [DecidableEq T]

theorem trace_fifo {buffer : ℕ → UInt8} {es : List (Event T Call Result)}
    {s : State T Call Side Ring Result}
    (h : Trace (Init (.new buffer) Pipes.tokens) (Step body) es s) :
    ∃ xs, Legal spec [] (finished es) xs ∧
      returned (finished es) ++ xs = accepted (finished es) ∧
      (0 < s.lock.count → Rest xs s.mem s.tokens) ∧
      (∀ x, (s.sems x).waiting = []) ∧
      ∀ t c x k, s.thread t = .inside c (.down x k) → 0 < (s.sems x).count := by
  obtain ⟨xs, hinv⟩ := inv_of_trace implements (holds_new buffer) h
  refine ⟨xs, hinv.legal, legal_fifo hinv.legal, fun hfree => (hinv.free hfree).1.rest, hinv.quiet, ?_⟩
  intro t c x k ht
  exact (hinv.inside ht).2.1.1

/-- Thread 0 writes a byte and thread 1, which came while it did, reads it. -/
def byteEvents : List (Event ℕ Call Result) :=
  [.enter 0 (.write (fun _ => 7) 1), .move 0, .move 0, .enter 1 (.read 5), .move 0, .move 0,
    .leave 0 (.write (fun _ => 7) 1) ⟨1, []⟩, .move 1, .move 1, .move 1, .move 1, .move 1,
    .leave 1 (.read 5) ⟨1, [7]⟩]

theorem byteEvents_trace : ∃ s, Trace (Init (.new fun _ => 0) Pipes.tokens) (Step body) byteEvents s := by
  have hidle : ∀ {s : State ℕ Call Side Ring Result} {t : ℕ},
      (s.sems .readSem).waiting = [] → (s.sems .writeSem).waiting = [] → ¬ s.Waits t := by
    rintro s t hr hw ⟨x, hx⟩
    cases x
    · simp [hr] at hx
    · simp [hw] at hx
  have h0 : Trace (Init (.new fun _ => 0) Pipes.tokens) (Step (T := ℕ) body) [] _ :=
    .start .start
  have h1 := h0.step (.enter (t := 0) (c := .write (fun _ => 7) 1) rfl)
  have h2 := h1.step (.act (t := 0) rfl (hidle rfl rfl))
  have h3 := h2.step (.down (t := 0) rfl (hidle rfl rfl))
  have h4 := h3.step (.enter (t := 1) (c := .read 5) rfl)
  have h5 := h4.step (.act (t := 0) rfl (hidle rfl rfl))
  have h6 := h5.step (.up (t := 0) rfl (hidle rfl rfl))
  have h7 := h6.step (.leave (t := 0) rfl (hidle rfl rfl))
  have h8 := h7.step (.act (t := 1) rfl (hidle rfl rfl))
  have h9 := h8.step (.down (t := 1) rfl (hidle rfl rfl))
  have h10 := h9.step (.act (t := 1) rfl (hidle rfl rfl))
  have h11 := h10.step (.up (t := 1) rfl (hidle rfl rfl))
  have h12 := h11.step (.act (t := 1) rfl (hidle rfl rfl))
  exact ⟨_, h12.step (.leave (t := 1) rfl (hidle rfl rfl))⟩

theorem byteEvents_fifo : ∃ (s : State ℕ Call Side Ring Result) (xs : List UInt8),
    Legal spec [] (finished byteEvents) xs ∧
      returned (finished byteEvents) ++ xs = accepted (finished byteEvents) ∧
      (0 < s.lock.count → Rest xs s.mem s.tokens) ∧
      (∀ x, (s.sems x).waiting = []) ∧
      ∀ t c x k, s.thread t = .inside c (.down x k) → 0 < (s.sems x).count := by
  obtain ⟨s, h⟩ := byteEvents_trace
  exact ⟨s, trace_fifo h⟩

end OsShell.Pipes
