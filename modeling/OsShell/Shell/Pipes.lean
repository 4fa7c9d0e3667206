import OsShell.Shell.Line

/-!
# How many commands a line has

The loop counts a command for each pipe that it looks at, and does not look at the
character behind one. So it finds as many pipes as can be picked from the line with
another character between any two of them. `arguments` has room for ten commands.
-/

namespace OsShell.Prompt

open Bytes

def Apart (line : List UInt8) (n : ℕ) : Prop :=
  ∃ place : ℕ → ℕ, (∀ k < n, line.getD (place k) 0 = PIPE) ∧
    ∀ j k, j < k → k < n → place j + 2 ≤ place k

def pipes : List UInt8 → ℕ
  | [] => 0
  | [c] => if c = PIPE then 1 else 0
  | c :: d :: rest => if c = PIPE then pipes rest + 1 else pipes (d :: rest)

theorem Apart.mono {line : List UInt8} {m n : ℕ} (h : Apart line n) (hmn : m ≤ n) :
    Apart line m := by
  obtain ⟨place, hpipe, hapart⟩ := h
  exact ⟨place, fun k hk => hpipe k (by omega), fun j k hjk hk => hapart j k hjk (by omega)⟩

theorem Apart.zero (line : List UInt8) : Apart line 0 :=
  ⟨fun _ => 0, by simp, by simp⟩

theorem Apart.cons {rest : List UInt8} {n : ℕ} (h : Apart rest n) (d : UInt8) :
    Apart (PIPE :: d :: rest) (n + 1) := by
  obtain ⟨place, hpipe, hapart⟩ := h
  refine ⟨fun k => if k = 0 then 0 else place (k - 1) + 2, fun k hk => ?_, fun j k hjk hk => ?_⟩
  · dsimp only
    by_cases hzero : k = 0
    · rw [if_pos hzero, List.getD_cons_zero]
    · rw [if_neg hzero, List.getD_cons_succ, List.getD_cons_succ]
      exact hpipe (k - 1) (by omega)
  · dsimp only
    rw [if_neg (by omega : k ≠ 0)]
    by_cases hzero : j = 0
    · rw [if_pos hzero]
      omega
    · rw [if_neg hzero]
      have := hapart (j - 1) (k - 1) (by omega) (by omega)
      omega

theorem apart_pipes (line : List UInt8) : Apart line (pipes line) := by
  fun_induction pipes with
  | case1 => exact .zero _
  | case2 => exact ⟨fun _ => 0, by simp, by omega⟩
  | case3 c h => exact .zero _
  | case4 d rest ih => exact ih.cons d
  | case5 c d rest h ih =>
    obtain ⟨place, hpipe, hapart⟩ := ih
    refine ⟨fun k => place k + 1, fun k hk => ?_, fun j k hjk hk => ?_⟩
    · rw [List.getD_cons_succ]
      exact hpipe k hk
    · exact (Nat.add_right_comm _ _ _).trans_le (Nat.add_le_add_right (hapart j k hjk hk) 1)

theorem Apart.le_pipes {line : List UInt8} {n : ℕ} (h : Apart line n) : n ≤ pipes line := by
  obtain ⟨place, hpipe, hapart⟩ := h
  fun_induction pipes generalizing n place with
  | case1 =>
    by_contra hpos
    exact absurd (hpipe 0 (by omega)) (by simp [PIPE])
  | case2 =>
    by_contra hmore
    have hzero : place 1 = 0 := by
      by_contra hne
      have := hpipe 1 (by omega)
      obtain ⟨k, hk⟩ := Nat.exists_eq_succ_of_ne_zero hne
      simp [hk, PIPE] at this
    have := hapart 0 1 (by omega) (by omega)
    omega
  | case3 c h =>
    by_contra hpos
    have := hpipe 0 (by omega)
    cases hplace : place 0 with
    | zero => exact h (by simpa [hplace] using this)
    | succ k => simp [hplace, PIPE] at this
  | case4 d rest ih =>
    rcases Nat.eq_zero_or_pos n with rfl | hpos
    · omega
    have hfar : ∀ k, 0 < k → k < n → 2 ≤ place k := fun k hk hkn => by
      have := hapart 0 k hk hkn
      omega
    have hrest := ih (n := n - 1) (fun k => place (k + 1) - 2) (fun k hk => ?_) fun j k hjk hk => ?_
    · omega
    · have hk' := hpipe (k + 1) (by omega)
      have hplace : place (k + 1) = place (k + 1) - 2 + 1 + 1 := by
        have := hfar (k + 1) (by omega) (by omega)
        omega
      rwa [hplace, List.getD_cons_succ, List.getD_cons_succ] at hk'
    · have hj := hfar (j + 1) (by omega) (by omega)
      have := hapart (j + 1) (k + 1) (by omega) (by omega)
      omega
  | case5 c d rest h ih =>
    have hpos : ∀ k < n, place k = place k - 1 + 1 := by
      intro k hk
      have hk' := hpipe k hk
      cases hplace : place k with
      | zero => exact absurd (by simpa [hplace] using hk') h
      | succ m => rfl
    refine ih (fun k => place k - 1) (fun k hk => ?_) fun j k hjk hk => ?_
    · have hk' := hpipe k hk
      rwa [hpos k hk, List.getD_cons_succ] at hk'
    · have hj := hpos j (by omega)
      have hk' := hpos k hk
      have := hapart j k hjk hk
      omega

theorem apart_iff {line : List UInt8} {n : ℕ} : Apart line n ↔ n ≤ pipes line :=
  ⟨Apart.le_pipes, (apart_pipes line).mono⟩

def ends (c : UInt8) : Bool :=
  c = SPACE ∨ c = 0

theorem scan_le (xs : List UInt8) (argIndex commandNum : ℕ) :
    scan xs argIndex commandNum ≤ commandNum + pipes xs := by
  fun_induction scan with
  | case1 => exact Nat.le_add_right _ _
  | case2 => rfl
  | case3 => exact Nat.le_add_right _ _
  | case4 d rest argIndex commandNum ih =>
    rw [pipes, if_pos rfl]
    omega
  | case5 => exact Nat.le_add_right _ _
  | case6 c d rest argIndex commandNum hpipe argIndex' hroom ih =>
    rw [pipes, if_neg hpipe]
    exact ih

theorem scan_eq (xs : List UInt8) (argIndex commandNum : ℕ)
    (hfew : argIndex + xs.countP ends < MAX_INPUT_LENGTH - 1) :
    scan xs argIndex commandNum = commandNum + pipes xs := by
  fun_induction scan with
  | case1 => rfl
  | case2 => rfl
  | case3 c argIndex commandNum hpipe => rw [pipes, if_neg hpipe, Nat.add_zero]
  | case4 d rest argIndex commandNum ih =>
    rw [List.countP_cons, List.countP_cons] at hfew
    rw [pipes, if_pos rfl, ih (by omega)]
    omega
  | case5 c d rest argIndex commandNum hpipe argIndex' hfull =>
    rw [List.countP_cons] at hfew
    have : argIndex' ≤ argIndex + if ends c = true then 1 else 0 := by
      simp only [argIndex', ends, decide_eq_true_eq]
      split <;> omega
    omega
  | case6 c d rest argIndex commandNum hpipe argIndex' hroom ih =>
    rw [List.countP_cons] at hfew
    have : argIndex' ≤ argIndex + if ends c = true then 1 else 0 := by
      simp only [argIndex', ends, decide_eq_true_eq]
      split <;> omega
    rw [pipes, if_neg hpipe]
    exact ih (by omega)

theorem countP_ends_cons_le (c : UInt8) (xs : List UInt8) :
    (c :: xs).countP ends ≤ xs.countP ends + 1 := by
  rw [List.countP_cons]
  split <;> omega

theorem pipes_add_countP_le (xs : List UInt8) : pipes xs + xs.countP ends ≤ xs.length := by
  fun_induction pipes with
  | case1 => rfl
  | case2 => decide
  | case3 c h => exact (Nat.zero_add _).trans_le List.countP_le_length
  | case4 d rest ih =>
    have hle := countP_ends_cons_le d rest
    rw [List.countP_cons_of_neg (by decide)]
    simp only [List.length_cons]
    omega
  | case5 c d rest h ih =>
    have hle := countP_ends_cons_le c (d :: rest)
    simp only [List.length_cons] at ih ⊢
    omega

theorem apart_append_zero {line : List UInt8} {n : ℕ} : Apart (line ++ [0]) n ↔ Apart line n := by
  have hget : ∀ p, (line ++ [0]).getD p 0 = line.getD p 0 := by
    intro p
    by_cases hp : p < line.length
    · exact List.getD_append _ _ _ _ hp
    · rw [List.getD_append_right _ _ _ _ (by omega), List.getD_eq_default line _ (by omega)]
      cases p - line.length <;> rfl
  simp only [Apart, hget]

section Scan

variable {c : UInt8} {rest : List UInt8} {argIndex commandNum : ℕ}

theorem scan_end (hend : c = SPACE ∨ c = 0) : scan (c :: rest) argIndex commandNum =
    if argIndex + 1 ≥ MAX_INPUT_LENGTH - 1 then commandNum
    else scan rest (argIndex + 1) commandNum := by
  have hpipe : c ≠ PIPE := by
    rintro rfl
    exact absurd hend (by decide)
  cases rest with
  | nil => simp [scan, hpipe]
  | cons d rest => rw [scan, if_neg hpipe, if_pos hend]

theorem scan_pipe :
    scan (PIPE :: rest) argIndex commandNum = scan (rest.drop 1) 0 (commandNum + 1) := by
  cases rest with
  | nil => rfl
  | cons d rest => rw [scan, if_pos rfl, List.drop_one, List.tail_cons]

theorem scan_letter (hend : ¬ (c = SPACE ∨ c = 0)) (hpipe : c ≠ PIPE)
    (hroom : argIndex < MAX_INPUT_LENGTH - 1) :
    scan (c :: rest) argIndex commandNum = scan rest argIndex commandNum := by
  cases rest with
  | nil => simp [scan, hpipe]
  | cons d rest =>
    rw [scan, if_neg hpipe, if_neg hend]
    exact if_neg (Nat.not_le.mpr hroom)

end Scan

theorem commandNum_parseFrom {s : Parsing} {bufferIndex i : ℕ} {xs : List UInt8}
    (hxs : Spells s.buf i xs) (hi : xs.length = bufferIndex + 1 - i)
    (hroom : s.argIndex < MAX_INPUT_LENGTH - 1) :
    (s.parseFrom bufferIndex i).commandNum = scan xs s.argIndex s.commandNum := by
  fun_induction Parsing.parseFrom generalizing xs with
  | case1 i s h =>
    obtain rfl : xs = [] := List.length_eq_zero_iff.mp (by omega)
    rfl
  | case2 i s h hfull =>
    obtain ⟨c, rest, rfl⟩ := List.exists_cons_of_length_pos (l := xs) (by omega)
    have hc : s.buf i = c := hxs 0 (Nat.succ_pos _)
    rcases s.round_cases i with ⟨hend, hround⟩ | ⟨-, hround⟩ | ⟨-, -, -, hround⟩
    · rw [hround] at hfull ⊢
      have hfull : s.argIndex + 1 ≥ MAX_INPUT_LENGTH - 1 := hfull
      rw [scan_end (hc ▸ hend), if_pos hfull]
      rfl
    · rw [hround] at hfull
      exact absurd hfull (Nat.not_le.mpr (Nat.zero_lt_succ _))
    · rw [hround] at hfull
      exact absurd hroom (Nat.not_lt.mpr hfull)
  | case3 i s h hnext ih =>
    obtain ⟨c, rest, rfl⟩ := List.exists_cons_of_length_pos (l := xs) (by omega)
    have hc : s.buf i = c := hxs 0 (Nat.succ_pos _)
    have hrest : Spells s.buf (i + 1) rest := (spells_cons.mp hxs).2
    rw [List.length_cons] at hi
    rcases s.round_cases i with ⟨hend, hround⟩ | ⟨hpipe, hround⟩ | ⟨hspace, hzero, hpipe, hround⟩
    · rw [hround] at hnext ih ⊢
      have hnext' : ¬ s.argIndex + 1 ≥ MAX_INPUT_LENGTH - 1 := hnext
      rw [scan_end (hc ▸ hend), if_neg hnext']
      refine ih (hrest.congr fun j hj => ?_) (by omega) (Nat.not_le.mp hnext)
      exact Function.update_of_ne (by omega) _ _
    · rw [hround] at hnext ih ⊢
      obtain rfl : c = PIPE := hc.symm.trans hpipe
      rw [scan_pipe]
      refine ih (fun j hj => ?_) (by rw [List.length_drop]; omega) (Nat.not_le.mp hnext)
      rw [List.length_drop] at hj
      rw [List.getElem_drop]
      have hj' := hrest (1 + j) (by omega)
      rwa [← Nat.add_assoc] at hj'
    · rw [hround] at hnext ih ⊢
      rw [scan_letter (hc ▸ not_or.mpr ⟨hspace, hzero⟩) (hc ▸ hpipe) hroom]
      exact ih hrest (by omega) (Nat.not_le.mp hnext)

theorem commandNum_parse {line : List UInt8} {buf : Buffer} (hbuf : Spells buf 0 (line ++ [0]))
    (arguments : ℕ → ℕ → Option ℕ) :
    (parse buf arguments line.length).commandNum = commandNum line :=
  commandNum_parseFrom (s := ⟨buf, arguments, 0, 0, 0, []⟩) hbuf (by simp) (Nat.zero_lt_succ _)

theorem commandNum_le_iff {line : List UInt8} (hlen : line.length ≤ MAX_INPUT_LENGTH) :
    commandNum line ≤ 9 ↔ ¬ Apart line 10 := by
  rw [← apart_append_zero, apart_iff, commandNum]
  have hle := scan_le (line ++ [0]) 0 0
  constructor
  · intro hnine hten
    have hcount := pipes_add_countP_le (line ++ [0])
    rw [List.length_append, List.length_singleton] at hcount
    have hmax : MAX_INPUT_LENGTH = 255 := rfl
    rw [scan_eq _ _ _ (by omega)] at hnine
    omega
  · intro hten
    omega

/-- The loop stores to `buf` and `arguments` only, and pointers into `buf`, if and only if the line
does not have ten pipes that are not next to each other. -/
theorem parse_inside_iff {line : List UInt8} (hlen : line.length ≤ MAX_INPUT_LENGTH) {buf : Buffer}
    (hbuf : Spells buf 0 (line ++ [0])) (arguments : ℕ → ℕ → Option ℕ) :
    (∀ st ∈ (parse buf arguments line.length).stores, st.Inside) ↔ ¬ Apart line 10 := by
  rw [parse_inside_iff_commandNum buf arguments hlen, commandNum_parse hbuf, commandNum_le_iff hlen]

/-- `ls | wc` -/
theorem lsPipeWc_inside :
    (parse (lineBuf [108, 115, 32, 124, 32, 119, 99]) (fun _ _ => none) 7).commandNum = 1 ∧
    ∀ st ∈ (parse (lineBuf [108, 115, 32, 124, 32, 119, 99]) (fun _ _ => none) 7).stores,
      st.Inside := by
  have hspells := lineBuf_spells [108, 115, 32, 124, 32, 119, 99]
  have hinside := (parse_inside_iff (by decide) hspells fun _ _ => none).mpr
    (by rw [apart_iff]; decide)
  exact ⟨(commandNum_parse hspells _).trans (by decide), hinside⟩

def tenPipes : List UInt8 :=
  (List.replicate 10 [PIPE, SPACE]).flatten

/-- Ten pipes with spaces between them: the loop stores to `arguments[10]`. -/
theorem tenPipes_outside : tenPipes.length ≤ MAX_INPUT_LENGTH ∧
    ¬ ∀ st ∈ (parse (lineBuf tenPipes) (fun _ _ => none) tenPipes.length).stores, st.Inside := by
  refine ⟨by decide, ?_⟩
  rw [parse_inside_iff_commandNum _ _ (by decide), commandNum_parse (lineBuf_spells tenPipes)]
  decide

end OsShell.Prompt
