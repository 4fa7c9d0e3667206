import OsShell.Process.HandleRuns
import OsShell.Shell.Code

/-!
# What the second command reads

All of the first command's output, when it is at most 1024 bytes: each write then
finds room. The pipe never holds more, and nobody reads while the first command
runs, so of a longer output the reader sees at most that much: `putchar` drops
what did not fit and `cp` tries again for ever.
-/

namespace OsShell.Shell

open Pipes Processes Sections

variable {pipe pipe' : Pipe} {p : Proc} {xs seen : List UInt8} {fd : Id}

def Pipe.Held (pipe : Pipe) (xs : List UInt8) : Prop :=
  Holds xs pipe.ring pipe.tokens

theorem held_new (buffer : ℕ → UInt8) : (Pipe.new buffer).Held [] :=
  holds_new buffer

theorem call_spec (h : pipe.Held xs) (c : Call) :
    ∃ r pipe' xs', pipe.call c = some (r, pipe') ∧ spec c xs r xs' ∧ pipe'.Held xs' := by
  have hsafe : Safe (Done spec Holds c xs) (body c) pipe.ring pipe.tokens := implements c xs _ _ h
  obtain ⟨r, ring, tokens, hrun, xs', hspec, hheld⟩ := hsafe.alone
  exact ⟨r, ⟨ring, tokens⟩, xs', by rw [Pipe.call, hrun]; rfl, hspec, hheld⟩

theorem call_write (h : pipe.Held xs) (data : ℕ → UInt8) {size : ℤ} {n : ℕ} (hn : size = n) :
    ∃ pipe', pipe.call (.write data size) = some (⟨(min n (1024 - xs.length) : ℕ), []⟩, pipe') ∧
      pipe'.Held (xs ++ (List.range (min n (1024 - xs.length))).map data) := by
  subst hn
  obtain ⟨r, pipe', xs', hcall, hspec, hheld⟩ := call_spec h (.write data n)
  simp only [spec, Int.toNat_natCast] at hspec
  rw [hspec.1] at hcall
  exact ⟨pipe', hcall, hspec.2 ▸ hheld⟩

theorem call_read (h : pipe.Held xs) {size : ℤ} {n : ℕ} (hn : size = n) :
    ∃ pipe', pipe.call (.read size) = some (⟨(min n xs.length : ℕ), xs.take n⟩, pipe') ∧
      pipe'.Held (xs.drop n) := by
  subst hn
  obtain ⟨r, pipe', xs', hcall, hspec, hheld⟩ := call_spec h (.read n)
  simp only [spec, Int.toNat_natCast] at hspec
  rw [hspec.1] at hcall
  exact ⟨pipe', hcall, hspec.2 ▸ hheld⟩

theorem toInt_of_lt {n : ℕ} (h : n < 2 ^ 31) : toInt n = n := by
  unfold toInt
  exact Int.bmod_eq_of_le (by omega) (by omega)

theorem map_getD_range (data : List UInt8) (k : ℕ) :
    (List.range (min data.length k)).map (fun i => data.getD i 0) = data.take k := by
  refine List.ext_getElem (by simp [min_comm]) fun i hi hi' => ?_
  simp only [List.length_map, List.length_range] at hi
  simp [show i < data.length by omega]

theorem write_writer (hfd : p.getFile fd = some .writer) (h : pipe.Held xs)
    (data : List UInt8) (hdata : data.length < 2 ^ 31) :
    ∃ pipe' : Pipe, write p fd data pipe =
        some (((min data.length (1024 - xs.length) : ℕ) : ℤ), pipe') ∧
      pipe'.Held (xs ++ data.take (1024 - xs.length)) := by
  obtain ⟨pipe', hcall, hheld⟩ := call_write h (fun i => data.getD i 0) (toInt_of_lt hdata)
  rw [map_getD_range] at hheld
  refine ⟨pipe', ?_, hheld⟩
  rw [write, hfd]
  simp only [File.write, hcall, Option.map_some]

theorem read_reader (hfd : fd ≠ 1) (hfile : p.getFile fd = some .reader) (h : pipe.Held xs) {n : ℕ}
    (hn : n < 2 ^ 31) :
    ∃ pipe' : Pipe, read p fd n pipe = some (((min n xs.length : ℕ) : ℤ), xs.take n, pipe') ∧
      pipe'.Held (xs.drop n) := by
  obtain ⟨pipe', hcall, hheld⟩ := call_read h (toInt_of_lt hn)
  refine ⟨pipe', ?_, hheld⟩
  rw [read, if_neg hfd, hfile]
  simp only [File.read, hcall, Option.map_some]

theorem write_held {data : List UInt8} {m : ℤ} (h : pipe.Held xs)
    (hw : write p fd data pipe = some (m, pipe')) : ∃ ys, pipe'.Held ys := by
  unfold write at hw
  split at hw
  · cases hw
    exact ⟨xs, h⟩
  · rename_i file _
    cases file with
    | reader =>
      cases hw
      exact ⟨xs, h⟩
    | writer =>
      obtain ⟨r, pipe'', xs', hcall, -, hheld⟩ :=
        call_spec h (.write (fun i => data.getD i 0) (toInt data.length))
      simp only [File.write, hcall, Option.map_some] at hw
      cases hw
      exact ⟨xs', hheld⟩
    | console key =>
      simp only [File.write] at hw
      split at hw <;> cases hw <;> exact ⟨xs, h⟩

theorem cpWrite_held {fuel : ℕ} {rest : List UInt8} (h : pipe.Held xs)
    (hrun : cpWrite p fd fuel rest pipe = some pipe') : ∃ ys, pipe'.Held ys := by
  induction fuel generalizing rest pipe xs with
  | zero =>
    cases rest with
    | nil =>
      cases hrun
      exact ⟨xs, h⟩
    | cons c rest => cases hrun
  | succ fuel ih =>
    cases rest with
    | nil =>
      cases hrun
      exact ⟨xs, h⟩
    | cons c rest =>
      rw [cpWrite, Option.bind_eq_bind, Option.bind_eq_some_iff] at hrun
      obtain ⟨⟨m, pipe₁⟩, hw, hrun⟩ := hrun
      obtain ⟨ys, hys⟩ := write_held h hw
      simp only at hrun
      split at hrun
      · cases hrun
        exact ⟨ys, hys⟩
      · exact ih hys hrun

theorem cp_held {fuel : ℕ} {chunks : List Chunk} (h : pipe.Held xs)
    (hrun : cp p fd fuel chunks pipe = some pipe') : ∃ ys, pipe'.Held ys := by
  induction chunks generalizing pipe xs with
  | nil =>
    cases hrun
    exact ⟨xs, h⟩
  | cons chunk chunks ih =>
    rw [cp, Option.bind_eq_bind, Option.bind_eq_some_iff] at hrun
    obtain ⟨pipe₁, hw, hrun⟩ := hrun
    obtain ⟨ys, hys⟩ := cpWrite_held h hw
    exact ih hys hrun

theorem produce_held {fuel : ℕ} {outputs : List Output} (h : pipe.Held xs)
    (hrun : produce p fuel outputs pipe = some pipe') : ∃ ys, pipe'.Held ys := by
  induction outputs generalizing pipe xs with
  | nil =>
    cases hrun
    exact ⟨xs, h⟩
  | cons output outputs ih =>
    rw [produce, List.foldlM_cons, Option.bind_eq_bind, Option.bind_eq_some_iff] at hrun
    obtain ⟨pipe₁, hw, hrun⟩ := hrun
    have : ∃ ys, pipe₁.Held ys := by
      cases output with
      | putchar c =>
        obtain ⟨⟨m, pipe₂⟩, hput, rfl⟩ := Option.map_eq_some_iff.mp hw
        exact write_held h hput
      | cp chunks => exact cp_held h hw
    obtain ⟨ys, hys⟩ := this
    exact ih hys hrun

theorem cpWrite_fits (hfd : p.getFile fd = some .writer) (h : pipe.Held xs) (fuel : ℕ)
    {rest : List UInt8} (hrest : rest.length ≤ 100) (hfit : xs.length + rest.length ≤ 1024) :
    ∃ pipe', cpWrite p fd (fuel + 1) rest pipe = some pipe' ∧ pipe'.Held (xs ++ rest) := by
  cases rest with
  | nil => exact ⟨pipe, rfl, by rwa [List.append_nil]⟩
  | cons c rest =>
    obtain ⟨pipe₁, hw, hheld⟩ := write_writer hfd h (c :: rest) (by omega)
    rw [List.take_of_length_le (by omega)] at hheld
    refine ⟨pipe₁, ?_, hheld⟩
    rw [cpWrite, hw]
    simp only [Option.bind_eq_bind, Option.bind_some]
    rw [if_neg (by omega), Int.toNat_natCast, List.drop_of_length_le (by omega)]
    cases fuel <;> rfl

theorem cp_fits (hfd : p.getFile fd = some .writer) (h : pipe.Held xs) {fuel : ℕ}
    {chunks : List Chunk} (hfit : xs.length + (chunks.flatMap Chunk.data).length ≤ 1024) :
    ∃ pipe', cp p fd (fuel + 1) chunks pipe = some pipe' ∧
      pipe'.Held (xs ++ chunks.flatMap Chunk.data) := by
  induction chunks generalizing pipe xs with
  | nil => exact ⟨pipe, rfl, by rwa [List.flatMap_nil, List.append_nil]⟩
  | cons chunk chunks ih =>
    rw [List.flatMap_cons, List.length_append] at hfit
    obtain ⟨pipe₁, hw, hheld⟩ := cpWrite_fits hfd h fuel chunk.le (by omega)
    obtain ⟨pipe₂, hcp, hheld₂⟩ := ih hheld (by rw [List.length_append]; omega)
    refine ⟨pipe₂, ?_, ?_⟩
    · rw [cp, hw]
      exact hcp
    · rwa [List.flatMap_cons, ← List.append_assoc]

theorem produce_fits (hfd : p.getFile 1 = some .writer) (h : pipe.Held xs) (fuel : ℕ)
    {outputs : List Output} (hfit : xs.length + (outputs.flatMap Output.bytes).length ≤ 1024) :
    ∃ pipe', produce p (fuel + 1) outputs pipe = some pipe' ∧
      pipe'.Held (xs ++ outputs.flatMap Output.bytes) := by
  induction outputs generalizing pipe xs with
  | nil => exact ⟨pipe, rfl, by rwa [List.flatMap_nil, List.append_nil]⟩
  | cons output outputs ih =>
    rw [List.flatMap_cons, List.length_append] at hfit
    have hstep : ∃ pipe₁, output.run p (fuel + 1) pipe = some pipe₁ ∧
        pipe₁.Held (xs ++ output.bytes) := by
      cases output with
      | putchar c =>
        simp only [Output.bytes, List.length_singleton] at hfit
        obtain ⟨pipe₁, hw, hheld⟩ := write_writer hfd h [c] (by simp)
        rw [List.take_of_length_le (by rw [List.length_singleton]; omega)] at hheld
        exact ⟨pipe₁, by simp only [Output.run, putchar, hw, Option.map_some], hheld⟩
      | cp chunks => exact cp_fits hfd h (by simp only [Output.bytes] at hfit; omega)
    obtain ⟨pipe₁, hrun, hheld⟩ := hstep
    obtain ⟨pipe₂, hrest, hheld₂⟩ := ih hheld (by rw [List.length_append]; omega)
    refine ⟨pipe₂, ?_, ?_⟩
    · rw [produce, List.foldlM_cons, hrun]
      exact hrest
    · rwa [List.flatMap_cons, ← List.append_assoc]

theorem cpWrite_full (hfd : p.getFile fd = some .writer) (h : pipe.Held xs)
    (hfull : xs.length = 1024) {rest : List UInt8} (hpos : 0 < rest.length)
    (hle : rest.length ≤ 100) (fuel : ℕ) : cpWrite p fd fuel rest pipe = none := by
  induction fuel generalizing pipe with
  | zero =>
    cases rest with
    | nil => cases hpos
    | cons c rest => rfl
  | succ fuel ih =>
    cases rest with
    | nil => cases hpos
    | cons c rest =>
      obtain ⟨pipe₁, hw, hheld⟩ := write_writer hfd h (c :: rest) (by omega)
      simp only [hfull, Nat.sub_self, Nat.min_zero, List.take_zero, List.append_nil] at hw hheld
      rw [cpWrite, hw]
      exact ih hheld

theorem cp_overflow (hfd : p.getFile fd = some .writer) (h : pipe.Held xs) {chunks : List Chunk}
    (hover : 1024 < xs.length + (chunks.flatMap Chunk.data).length) (fuel : ℕ) :
    cp p fd fuel chunks pipe = none := by
  induction chunks generalizing pipe xs with
  | nil =>
    have := h.length_le
    simp at hover
    omega
  | cons chunk chunks ih =>
    rw [List.flatMap_cons, List.length_append] at hover
    have hle := chunk.le
    have hpos := chunk.pos
    cases fuel with
    | zero =>
      rw [cp]
      cases hd : chunk.data with
      | nil => simp [hd] at hpos
      | cons c rest => rfl
    | succ fuel =>
      by_cases hfit : xs.length + chunk.data.length ≤ 1024
      · obtain ⟨pipe₁, hw, hheld⟩ := cpWrite_fits hfd h fuel hle hfit
        rw [cp, hw]
        exact ih hheld (by rw [List.length_append]; omega)
      · have hlen := h.length_le
        have hnone : cpWrite p fd (fuel + 1) chunk.data pipe = none := by
          cases hd : chunk.data with
          | nil => simp [hd] at hpos
          | cons c rest =>
            rw [hd] at hle hfit
            obtain ⟨pipe₁, hw, hheld⟩ := write_writer hfd h (c :: rest) (by omega)
            rw [cpWrite, hw]
            simp only [Option.bind_eq_bind, Option.bind_some]
            rw [if_neg (by omega), Int.toNat_natCast]
            refine cpWrite_full hfd hheld ?_ ?_ ?_ fuel
            · rw [List.length_append, List.length_take]
              omega
            · rw [List.length_drop]
              omega
            · rw [List.length_drop]
              omega
        rw [cp, hnone]
        rfl

theorem produce_putchars (hfd : p.getFile 1 = some .writer) (h : pipe.Held xs) (fuel : ℕ)
    (cs : List UInt8) : ∃ pipe', produce p fuel (cs.map .putchar) pipe = some pipe' ∧
      pipe'.Held ((xs ++ cs).take 1024) := by
  induction cs generalizing pipe xs with
  | nil => exact ⟨pipe, rfl, by rwa [List.append_nil, List.take_of_length_le h.length_le]⟩
  | cons c cs ih =>
    obtain ⟨pipe₁, hw, hheld⟩ := write_writer hfd h [c] (by simp)
    obtain ⟨pipe₂, hrest, hheld₂⟩ := ih hheld
    refine ⟨pipe₂, ?_, ?_⟩
    · rw [produce, List.map_cons, List.foldlM_cons]
      simp only [Output.run, putchar, hw]
      exact hrest
    · have hlen := h.length_le
      by_cases hfull : xs.length = 1024
      · simpa [hfull, List.take_append_of_le_length] using hheld₂
      · have hone : [c].take (1024 - xs.length) = [c] :=
          List.take_of_length_le (by rw [List.length_singleton]; omega)
        simpa [hone] using hheld₂

theorem consume_eq (hfile : p.getFile 0 = some .reader) (h : pipe.Held xs)
    (size : ℕ → Size) (fuel i : ℕ) (seen : List UInt8) : consume p size fuel i seen pipe = some (seen ++ xs) ∨
      fuel ≤ xs.length ∧ consume p size fuel i seen pipe = none := by
  induction fuel generalizing i seen pipe xs with
  | zero => exact .inr ⟨Nat.zero_le _, rfl⟩
  | succ fuel ih =>
    have hpos := (size i).pos
    obtain ⟨pipe', hread, hheld⟩ := read_reader (by decide) hfile h (size i).lt
    rw [consume, hread]
    simp only [Option.bind_eq_bind, Option.bind_some]
    rw [if_neg (by omega)]
    cases xs with
    | nil =>
      rw [if_pos (by simp), List.append_nil]
      exact .inl rfl
    | cons c xs =>
      rw [if_neg (by rw [List.length_cons]; omega)]
      rcases ih hheld (i + 1) (seen ++ (c :: xs).take (size i).n) with hrest | ⟨hle, hrest⟩
      · left
        rw [hrest, List.append_assoc, List.take_append_drop]
      · right
        rw [List.length_drop, List.length_cons] at hle
        exact ⟨by rw [List.length_cons]; omega, hrest⟩

/-- The shell has an input and two descriptors that are free: fewer, and `pipe` leaves `pipefd`
unset; without an input the read end becomes number 0, which the second child closes. -/
structure Ready (shell : Proc) : Prop where
  stdin : shell.files 0 ≠ none
  room : ∃ i j, i ≠ j ∧ shell.files i = none ∧ shell.files j = none

theorem lookup_file (p : Proc) (i : Fin 10) : lookup p (handle .file i) = (p.files i).map .file :=
  lookup_handle p .file i

theorem setFile_free {i : Fin 10} (file : File) (hfree : firstFree p.files = some i) :
    p.setFile file =
      ((handle .file i).toInt, { p with files := Function.update p.files i (some file) }) := by
  have hcode : ∀ i : Fin 10, (i.val : ℤ) = (handle .file i).toInt := by decide
  simp only [Process.setFile, hfree, hcode]

theorem makePipe_free {shell : Proc} (hroom : ∃ i j, i ≠ j ∧ shell.files i = none ∧
    shell.files j = none) : ∃ r w shell', firstFree shell.files = some r ∧ r < w ∧
      makePipe shell = some (handle .file r, handle .file w, shell') ∧
      shell'.files r = some .reader ∧ shell'.files w = some .writer := by
  obtain ⟨i, j, hij, hi, hj⟩ := hroom
  obtain ⟨r, hr⟩ : ∃ r, firstFree shell.files = some r :=
    Option.ne_none_iff_exists'.mp fun hnone => firstFree_eq_none.mp hnone i hi
  obtain ⟨hfree, hlow⟩ := firstFree_eq_some.mp hr
  have hsecond : ∃ k, k ≠ r ∧ shell.files k = none := by
    by_cases hri : i = r
    · exact ⟨j, fun heq => hij (hri.trans heq.symm), hj⟩
    · exact ⟨i, hri, hi⟩
  obtain ⟨k, hkr, hk⟩ := hsecond
  obtain ⟨w, hw⟩ : ∃ w, firstFree (Function.update shell.files r (some .reader)) = some w :=
    Option.ne_none_iff_exists'.mp fun hnone =>
      firstFree_eq_none.mp hnone k (by rw [Function.update_of_ne hkr, hk])
  have hwfree := (firstFree_eq_some.mp hw).1
  have hwr : w ≠ r := by
    rintro rfl
    rw [Function.update_self] at hwfree
    nomatch hwfree
  rw [Function.update_of_ne hwr] at hwfree
  have hlt : r < w := lt_of_le_of_ne (not_lt.mp fun hlt => hlow w hlt hwfree) hwr.symm
  have hpos : ∀ i : Fin 10, ¬ (handle .file i).toInt < 0 := by decide
  let files := Function.update (Function.update shell.files r (some .reader)) w (some .writer)
  refine ⟨r, w, { shell with files := files }, hr, hlt, ?_, ?_, Function.update_self ..⟩
  · simp only [makePipe, setFile_free File.reader hr]
    rw [setFile_free (p := { shell with files := Function.update shell.files r (some .reader) })
      File.writer hw]
    simp only [hpos, or_self, if_false, BitVec.ofInt_toInt, files]
  · exact (Function.update_of_ne hwr.symm _ _).trans (Function.update_self ..)

theorem makePipe_full {shell : Proc} (hroom : ¬ ∃ i j, i ≠ j ∧ shell.files i = none ∧
    shell.files j = none) : makePipe shell = none := by
  have hfirst : (shell.setFile .reader).1 < 0 ∨
      ((shell.setFile .reader).2.setFile .writer).1 < 0 := by
    cases hr : firstFree shell.files with
    | none => simp [Process.setFile, hr]
    | some r =>
      right
      rw [setFile_free File.reader hr]
      have hnone : firstFree (Function.update shell.files r (some .reader)) = none := by
        refine firstFree_eq_none.mpr fun k hk => ?_
        have hkr : k ≠ r := by
          rintro rfl
          rw [Function.update_self] at hk
          cases hk
        rw [Function.update_of_ne hkr] at hk
        exact hroom ⟨k, r, hkr, hk, (firstFree_eq_some.mp hr).1⟩
      simp [Process.setFile, hnone]
  simp only [makePipe, hfirst, if_true]

theorem redirect_getFile {i target : Fin 10} {file : File} (hne : i ≠ target)
    (h : p.files i = some file) :
    (redirect (child p) (handle .file i) (handle .file target)).getFile (handle .file target) =
      some file := by
  have hhandle : handle .file i ≠ handle .file target := fun heq => hne (handle_injective heq).2
  have hcode : ∀ i : Fin 10, 0 ≤ (handle .file i).toInt ∧ (handle .file i).toInt < 10 := by decide
  have hchild : lookup (child p) (handle .file i) = some (.file file) := by
    rw [lookup_file]
    simp [child, h]
  have hclose := (close_eq (child p) (handle .file target)).2
  have hold : lookup ((child p).close (handle .file target)).2 (handle .file i) = some (.file file) := by
    rw [hclose, Function.update_of_ne hhandle, hchild]
  have hdup := (dup2_eq hhandle hold (hcode target)).2
  rw [getFile_eq, redirect, (close_eq _ _).2, Function.update_of_ne hhandle.symm, hdup, Function.update_self, hold]
  rfl

variable {shell : Proc} {buffer : ℕ → UInt8} {outputs : List Output} {size : ℕ → Size}

theorem pipeline_eq (h : Ready shell) (buffer : ℕ → UInt8) (outputs : List Output)
    (size : ℕ → Size) : ∃ p₁ p₂ : Proc, p₁.getFile 1 = some .writer ∧
    p₂.getFile 0 = some .reader ∧ ∀ fuel, pipeline shell buffer outputs size fuel =
      (produce p₁ fuel outputs (.new buffer)).bind (consume p₂ size fuel 0 []) := by
  obtain ⟨r, w, shell', hr, hlt, hmake, hreader, hwriter⟩ := makePipe_free h.room
  have hr0 : r ≠ 0 := by
    rintro rfl
    exact h.stdin (firstFree_eq_some.mp hr).1
  have hw1 : w ≠ 1 := by omega
  refine ⟨_, _, redirect_getFile hw1 hwriter,
    redirect_getFile hr0 hreader, fun fuel => ?_⟩
  rw [pipeline, hmake]
  rfl

theorem redirect_self (p : Proc) (fd : Id) : (redirect p fd fd).getFile fd = none := by
  rw [getFile_eq, redirect, (close_eq _ _).2, Function.update_self]
  rfl

theorem consume_closed (hfile : p.getFile 0 = none) (size : ℕ → Size) (fuel i : ℕ)
    (seen : List UInt8) : consume p size fuel i seen pipe = none := by
  cases fuel with
  | zero => rfl
  | succ fuel =>
    have hread : read p 0 (size i).n pipe = some (-1, [], pipe) := by
      rw [read, if_neg (by decide), hfile]
    rw [consume, hread]
    rfl

theorem pipeline_not_ready (h : ¬ Ready shell) (fuel : ℕ) :
    pipeline shell buffer outputs size fuel = none := by
  by_cases hroom : ∃ i j, i ≠ j ∧ shell.files i = none ∧ shell.files j = none
  · obtain ⟨r, w, shell', hr, -, hmake, -⟩ := makePipe_free hroom
    have hstdin : shell.files 0 = none := by
      by_contra hne
      exact h ⟨hne, hroom⟩
    obtain rfl : r = 0 := by
      by_contra hne
      exact (firstFree_eq_some.mp hr).2 0 (Fin.pos_iff_ne_zero.mpr hne) hstdin
    have hclosed : (redirect (child shell') (handle .file 0) 0).getFile 0 = none := redirect_self _ _
    rw [pipeline, hmake]
    cases hrun : produce (redirect (child shell') (handle .file w) 1) fuel outputs (.new buffer) with
    | none => simp only [Option.bind_eq_bind, Option.bind_some, hrun, Option.bind_none]
    | some pipe => simp only [Option.bind_eq_bind, Option.bind_some, hrun, consume_closed hclosed]
  · rw [pipeline, makePipe_full hroom]
    rfl

theorem pipeline_length {fuel : ℕ} {ys : List UInt8} (h : Ready shell)
    (hrun : pipeline shell buffer outputs size fuel = some ys) : ys.length ≤ 1024 := by
  obtain ⟨p₁, p₂, -, hreader, heq⟩ := pipeline_eq h buffer outputs size
  rw [heq, Option.bind_eq_some_iff] at hrun
  obtain ⟨pipe, hproduce, hconsume⟩ := hrun
  obtain ⟨xs, hheld⟩ := produce_held (held_new buffer) hproduce
  rcases consume_eq hreader hheld size fuel 0 [] with hrun | ⟨-, hrun⟩
  · rw [hrun, List.nil_append] at hconsume
    exact Option.some.inj hconsume ▸ hheld.length_le
  · rw [hrun] at hconsume
    cases hconsume

theorem pipeline_putchars (h : Ready shell) (cs : List UInt8) :
    ∃ fuel, pipeline shell buffer (cs.map .putchar) size fuel = some (cs.take 1024) := by
  obtain ⟨p₁, p₂, hwriter, hreader, heq⟩ := pipeline_eq h buffer (cs.map .putchar) size
  obtain ⟨pipe, hproduce, hheld⟩ := produce_putchars hwriter (held_new buffer) 1025 cs
  rw [List.nil_append] at hheld
  refine ⟨1025, ?_⟩
  rw [heq, hproduce, Option.bind_some]
  rcases consume_eq hreader hheld size 1025 0 [] with hrun | ⟨hle, -⟩
  · rw [hrun]
    rfl
  · rw [List.length_take] at hle
    omega

theorem pipeline_cp_none (h : Ready shell) {chunks : List Chunk}
    (hover : 1024 < (chunks.flatMap Chunk.data).length) (fuel : ℕ) :
    pipeline shell buffer [.cp chunks] size fuel = none := by
  obtain ⟨p₁, p₂, hwriter, -, heq⟩ := pipeline_eq h buffer [.cp chunks] size
  have hnone : produce p₁ fuel [.cp chunks] (.new buffer) = none := by
    rw [produce, List.foldlM_cons]
    simp only [Output.run]
    rw [cp_overflow hwriter (held_new buffer) (by simpa using hover)]
    rfl
  rw [heq, hnone]
  rfl

/-- The second command reads just what the first one writes, if and only if the shell has an input and
two descriptors to spare, and no more is written than the pipe can hold. -/
theorem pipeline_delivers_iff (shell : Proc) (buffer : ℕ → UInt8) (outputs : List Output)
    (size : ℕ → Size) :
    (∃ fuel, pipeline shell buffer outputs size fuel = some (outputs.flatMap Output.bytes)) ↔
      Ready shell ∧ (outputs.flatMap Output.bytes).length ≤ 1024 := by
  by_cases h : Ready shell
  · refine ⟨fun ⟨fuel, hrun⟩ => ⟨h, pipeline_length h hrun⟩, fun ⟨_, hlen⟩ => ?_⟩
    obtain ⟨p₁, p₂, hwriter, hreader, heq⟩ := pipeline_eq h buffer outputs size
    obtain ⟨pipe, hproduce, hheld⟩ := produce_fits hwriter (held_new buffer) 1024
      (by simpa using hlen)
    refine ⟨1025, ?_⟩
    rw [heq, hproduce, Option.bind_some]
    rcases consume_eq hreader hheld size 1025 0 [] with hrun | ⟨hle, -⟩
    · rw [hrun]
      rfl
    · rw [List.nil_append] at hle
      omega
  · refine iff_of_false (fun ⟨fuel, hrun⟩ => ?_) fun hready => h hready.1
    rw [pipeline_not_ready h] at hrun
    nomatch hrun

def consoleShell : Proc :=
  ⟨fun i => if i.val < 3 then some (.console 0) else none, fun _ => none, fun _ => none, (), 0⟩

theorem consoleShell_ready : Ready consoleShell :=
  ⟨by simp [consoleShell], 3, 4, by decide, by simp [consoleShell], by simp [consoleShell]⟩

theorem short_line_delivered : ∃ fuel, pipeline consoleShell (fun _ => 0) [.putchar 104, .putchar 105]
    (fun _ => ⟨100, by decide, by decide⟩) fuel = some [104, 105] :=
  (pipeline_delivers_iff consoleShell (fun _ => 0) [.putchar 104, .putchar 105]
    fun _ => ⟨100, by decide, by decide⟩).mpr ⟨consoleShell_ready, by decide⟩

theorem length_putchars (n : ℕ) (c : UInt8) :
    ((List.replicate n (Output.putchar c)).flatMap Output.bytes).length = n := by
  induction n with
  | zero => rfl
  | succ n ih =>
    rw [List.replicate_succ, List.flatMap_cons, List.length_append, ih]
    exact Nat.add_comm 1 n

/-- 1025 characters through `putchar`. -/
theorem long_line_not_delivered : ¬ ∃ fuel, pipeline consoleShell (fun _ => 0)
    (List.replicate 1025 (.putchar 65)) (fun _ => ⟨100, by decide, by decide⟩) fuel =
      some ((List.replicate 1025 (Output.putchar 65)).flatMap Output.bytes) := by
  rintro ⟨fuel, hrun⟩
  have := pipeline_length consoleShell_ready hrun
  rw [length_putchars] at this
  omega

end OsShell.Shell
