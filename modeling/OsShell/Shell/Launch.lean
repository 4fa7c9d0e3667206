import OsShell.Shell.Line
import OsShell.Sys.Strings

/-!
# What the shell passes to `exec`

The children of the shell make the path of a program in `starting_path`, which begins
with `/sbin/`: the child for a single command copies as many bytes as its first word
has, the two children of a pipeline as many as a pointer has. The first two pass an
array, the third an argument list of two words. Each child has memory of its own.
-/

namespace OsShell.Prompt

open Bytes Parsing

/-- A call of `execvp` or `execl`: what `starting_path` holds, and the pointers to the arguments. -/
structure Launch where
  path : Buffer
  argv : ℕ → Option ℕ

def strlen (buf : Buffer) (str : ℕ) : Option ℕ :=
  Exec.findFrom (fun n => buf (str + n) == 0) (2 ^ 32) 0

/-- `memcpy(starting_path + 6, word, size)` -/
def copyWord (startingPath buf : Buffer) (place size : ℕ) : Buffer :=
  put 6 size (fun i => buf (place + i)) startingPath

/-- `sizeof(arguments[0][0])` -/
def sizeofPointer : ℕ := 4

namespace Parsing

variable (s : Parsing) (startingPath : Buffer)

def plain : Option Launch := do
  let place ← s.arguments 0 0
  let size ← strlen s.buf place
  return ⟨copyWord startingPath s.buf place size, s.arguments 0⟩

/-- The child for the first command of a pipeline, which calls `execvp`. -/
def pipelineFirst : Option Launch := do
  let place ← s.arguments 0 0
  return ⟨copyWord startingPath s.buf place sizeofPointer, s.arguments 0⟩

/-- The child for the second command, which calls `execl`. -/
def pipelineSecond : Option Launch := do
  let place ← s.arguments 1 0
  return ⟨copyWord startingPath s.buf place sizeofPointer,
    fun a => if a < 2 then s.arguments 1 a else none⟩

/-- The calls for a line, if nothing fails; a null pointer is not followed. -/
def launches : Option (List Launch) :=
  if s.commandNum > 0 then do
    let first ← s.pipelineFirst startingPath
    let second ← s.pipelineSecond startingPath
    return [first, second]
  else do
    let launch ← s.plain startingPath
    return [launch]

end Parsing

def sbin : List UInt8 := [47, 115, 98, 105, 110, 47]

def initialPath : Buffer := fun i => sbin.getD i 0

/-- The call asks for the program `/sbin/w` with the arguments `w :: ws`; the path is in the 256 bytes
of `starting_path`. -/
structure Launch.Asks (l : Launch) (buf : Buffer) (w : List UInt8) (ws : List (List UInt8)) :
    Prop where
  path : Spells l.path 0 (sbin ++ w ++ [0])
  room : (sbin ++ w ++ [0]).length ≤ 256
  argv : Argv buf l.argv (w :: ws)

variable {s : Parsing} {startingPath buf : Buffer} {place : ℕ} {w : List UInt8}

theorem spells_copyWord_iff (hw : Spells buf place (w ++ [0])) (hsbin : Spells startingPath 0 sbin)
    (size : ℕ) : Spells (copyWord startingPath buf place size) 0 (sbin ++ w ++ [0]) ↔
      Spells startingPath (6 + size) ((w ++ [0]).drop size) := by
  have hfront : Spells (copyWord startingPath buf place size) 0 sbin :=
    hsbin.congr fun i hi => put_of_notMem _ _ (.inl (by simpa [sbin] using hi))
  have hlen : sbin.length = 6 := rfl
  rw [List.append_assoc, spells_append, and_iff_right hfront, hlen, Nat.zero_add]
  constructor
  · intro h i hi
    rw [List.length_drop] at hi
    have hi' := h (size + i) (by omega)
    rw [copyWord, put_of_notMem _ _ (.inr (by omega))] at hi'
    rw [List.getElem_drop, ← hi', Nat.add_assoc]
  · intro h i hi
    by_cases hcopied : i < size
    · rw [copyWord, put_of_mem _ _ hcopied]
      exact hw i hi
    · have hi' := h (i - size) (by rw [List.length_drop]; omega)
      rw [List.getElem_drop] at hi'
      rw [copyWord, put_of_notMem _ _ (.inr (by omega))]
      simpa only [Nat.add_assoc, Nat.add_sub_cancel' (Nat.le_of_not_lt hcopied)] using hi'

theorem strlen_of_spells (hw : Spells buf place (w ++ [0])) (hzero : 0 ∉ w)
    (hlen : w.length < 2 ^ 32) : strlen buf place = some w.length := by
  obtain ⟨hletters, hend⟩ := spells_append.mp hw
  refine Sys.findFrom_eq_some hlen (beq_iff_eq.mpr (hend 0 (by simp))) fun j hj => ?_
  rw [beq_eq_false_iff_ne, hletters j hj]
  exact fun h => hzero (h ▸ List.getElem_mem hj)

section Branches

variable {ws : List (List UInt8)} (hroom : (sbin ++ w ++ [0]).length ≤ 256)
  (hsbin : Spells startingPath 0 sbin)
include hroom hsbin

theorem plain_iff (hzero : 0 ∉ w) (hargv : s.Holds 0 (w :: ws)) (hnum : s.commandNum = 0) :
    (∃ l, s.launches startingPath = some [l] ∧ l.Asks s.buf w ws) ↔
      startingPath (6 + w.length) = 0 := by
  obtain ⟨place, hplace, hlen, hw⟩ := hargv.1 0 (Nat.succ_pos _)
  have hsize : strlen s.buf place = some w.length :=
    strlen_of_spells hw hzero (by simp only [List.length_append] at hroom; omega)
  have hlaunch : s.launches startingPath =
      some [⟨copyWord startingPath s.buf place w.length, s.arguments 0⟩] := by
    simp [launches, hnum, Parsing.plain, hplace, hsize]
  have hpath := spells_copyWord_iff hw hsbin w.length
  rw [List.getElem_cons_zero, List.drop_left] at hpath
  constructor
  · rintro ⟨l, hl, hasks⟩
    obtain rfl := List.singleton_inj.mp (Option.some.inj (hlaunch.symm.trans hl))
    exact (hpath.mp hasks.path) 0 (by simp)
  · intro hzero
    refine ⟨_, hlaunch, hpath.mpr fun i hi => ?_, hroom, hargv⟩
    obtain rfl : i = 0 := by simpa using hi
    exact hzero

theorem pipelineFirst_iff (hargv : s.Holds 0 (w :: ws)) :
    (∃ l, s.pipelineFirst startingPath = some l ∧ l.Asks s.buf w ws) ↔
      Spells startingPath 10 ((w ++ [0]).drop 4) := by
  obtain ⟨place, hplace, hlen, hw⟩ := hargv.1 0 (Nat.succ_pos _)
  have hlaunch : s.pipelineFirst startingPath =
      some ⟨copyWord startingPath s.buf place sizeofPointer, s.arguments 0⟩ := by
    simp [pipelineFirst, hplace]
  have hpath := spells_copyWord_iff hw hsbin sizeofPointer
  constructor
  · rintro ⟨l, hl, hasks⟩
    obtain rfl := Option.some.inj (hlaunch.symm.trans hl)
    exact hpath.mp hasks.path
  · intro hleft
    exact ⟨_, hlaunch, hpath.mpr hleft, hroom, hargv⟩

theorem pipelineSecond_iff (hargv : s.Holds 1 (w :: ws)) :
    (∃ l, s.pipelineSecond startingPath = some l ∧ l.Asks s.buf w ws) ↔
      Spells startingPath 10 ((w ++ [0]).drop 4) ∧ ws.length ≤ 1 := by
  obtain ⟨place, hplace, hlen, hw⟩ := hargv.1 0 (Nat.succ_pos _)
  have hlaunch : s.pipelineSecond startingPath =
      some ⟨copyWord startingPath s.buf place sizeofPointer,
        fun a => if a < 2 then s.arguments 1 a else none⟩ := by
    simp [pipelineSecond, hplace]
  have hpath := spells_copyWord_iff hw hsbin sizeofPointer
  constructor
  · rintro ⟨l, hl, hasks⟩
    obtain rfl := Option.some.inj (hlaunch.symm.trans hl)
    refine ⟨hpath.mp hasks.path, ?_⟩
    by_contra hmore
    obtain ⟨_, hthird, -⟩ := hasks.argv.1 2 (by rw [List.length_cons]; omega)
    exact absurd hthird (by simp)
  · rintro ⟨hleft, hfew⟩
    refine ⟨_, hlaunch, hpath.mpr hleft, hroom, fun a ha => ?_, ?_⟩
    · have hentry := hargv.1 a ha
      rw [List.length_cons] at ha
      simpa only [if_pos (show a < 2 by omega)] using hentry
    · dsimp only
      rw [List.length_cons]
      by_cases htwo : ws.length + 1 < 2
      · rw [if_pos htwo]
        exact hargv.2
      · rw [if_neg htwo]

end Branches

def RunsPlain (startingPath : Buffer) (w : List UInt8) (ws : List (List UInt8)) : Prop :=
  ∀ buf arguments, (render [w :: ws]).length ≤ MAX_INPUT_LENGTH →
    Spells buf 0 (render [w :: ws] ++ [0]) →
    let s := parse buf arguments (render [w :: ws]).length
    ∃ l, s.launches startingPath = some [l] ∧ l.Asks s.buf w ws

theorem runsPlain_iff {ws : List (List UInt8)} (hwords : ∀ x ∈ w :: ws, IsWord x)
    (hroom : (sbin ++ w ++ [0]).length ≤ 256) (hsbin : Spells startingPath 0 sbin)
    (hlen : (render [w :: ws]).length ≤ MAX_INPUT_LENGTH) :
    RunsPlain startingPath w ws ↔ startingPath (6 + w.length) = 0 := by
  have hzero : 0 ∉ w := (hwords w List.mem_cons_self).2.2.2
  have hparsed : ∀ buf arguments, Spells buf 0 (render [w :: ws] ++ [0]) →
      (parse buf arguments (render [w :: ws]).length).commandNum = 0 ∧
      (parse buf arguments (render [w :: ws]).length).Holds 0 (w :: ws) := by
    intro buf arguments hbuf
    obtain ⟨hnum, hholds⟩ := parse_commands (List.cons_ne_nil (w :: ws) [])
      (by simpa using hwords) hlen hbuf arguments
    exact ⟨hnum, hholds 0 (by simp)⟩
  constructor
  · intro hruns
    have hbuf := lineBuf_spells (render [w :: ws])
    obtain ⟨hnum, hargv⟩ := hparsed _ (fun _ _ => none) hbuf
    exact (plain_iff hroom hsbin hzero hargv hnum).mp (hruns _ _ hlen hbuf)
  · intro hend buf arguments _ hbuf
    obtain ⟨hnum, hargv⟩ := hparsed buf arguments hbuf
    exact (plain_iff hroom hsbin hzero hargv hnum).mpr hend

theorem launches_pipeline {first second : Launch} (hnum : s.commandNum > 0) :
    s.launches startingPath = some [first, second] ↔
      s.pipelineFirst startingPath = some first ∧ s.pipelineSecond startingPath = some second := by
  rw [launches, if_pos hnum]
  cases s.pipelineFirst startingPath <;> cases s.pipelineSecond startingPath <;> simp

def Alike (startingPath buf : Buffer) (arguments : ℕ → ℕ → Option ℕ) (w : List UInt8)
    (ws : List (List UInt8)) (v : List UInt8) (vs : List (List UInt8)) : Prop :=
  let s := parse buf arguments (render [w :: ws, v :: vs]).length
  (∃ first second, s.launches startingPath = some [first, second] ∧
    first.Asks s.buf w ws ∧ second.Asks s.buf v vs) ∧
  RunsPlain startingPath w ws ∧ RunsPlain startingPath v vs

/-- `starting_path` has a zero behind the place of the word, and what four bytes leave over of it. -/
def Ready (startingPath : Buffer) (w : List UInt8) : Prop :=
  startingPath (6 + w.length) = 0 ∧ Spells startingPath 10 ((w ++ [0]).drop 4)

theorem initialPath_spells : Spells initialPath 0 sbin :=
  spells_iff_getD.mpr fun i _ => by rw [initialPath, Nat.zero_add]

theorem ready_initialPath_iff (hzero : 0 ∉ w) : Ready initialPath w ↔ w.length ≤ 4 := by
  have hbehind : ∀ i, 6 ≤ i → initialPath i = 0 := fun i hi => List.getD_eq_default _ _ hi
  constructor
  · rintro ⟨-, hleft⟩
    by_contra hlong
    have hfifth := hleft 0 (by simp; omega)
    rw [hbehind _ (by omega), List.getElem_drop, List.getElem_append_left (by omega)] at hfifth
    exact hzero (hfifth ▸ List.getElem_mem _)
  · intro hshort
    refine ⟨hbehind _ (by omega), fun i hi => ?_⟩
    simp only [List.length_drop, List.length_append, List.length_singleton] at hi
    rw [hbehind _ (by omega), List.getElem_drop, List.getElem_append_right (by omega)]
    simp

section Alike

variable {v : List UInt8} {ws vs : List (List UInt8)} (hws : ∀ x ∈ w :: ws, IsWord x)
  (hvs : ∀ x ∈ v :: vs, IsWord x) (hroom : (sbin ++ w ++ [0]).length ≤ 256)
  (hroom' : (sbin ++ v ++ [0]).length ≤ 256)
  (hlen : (render [w :: ws, v :: vs]).length ≤ MAX_INPUT_LENGTH)
  (hbuf : Spells buf 0 (render [w :: ws, v :: vs] ++ [0])) (arguments : ℕ → ℕ → Option ℕ)
include hws hvs hroom hroom' hlen hbuf

theorem alike_iff (hsbin : Spells startingPath 0 sbin) :
    Alike startingPath buf arguments w ws v vs ↔
      Ready startingPath w ∧ Ready startingPath v ∧ vs.length ≤ 1 := by
  have hcmds : ∀ cmd ∈ [w :: ws, v :: vs], cmd ≠ [] ∧ ∀ x ∈ cmd, IsWord x :=
    List.forall_mem_cons.mpr ⟨⟨List.cons_ne_nil _ _, hws⟩,
      List.forall_mem_singleton.mpr ⟨List.cons_ne_nil _ _, hvs⟩⟩
  obtain ⟨hnum, hholds⟩ := parse_commands (by simp) hcmds hlen hbuf arguments
  have hfirst := pipelineFirst_iff hroom hsbin (hholds 0 (by simp))
  have hsecond := pipelineSecond_iff hroom' hsbin (hholds 1 (by simp))
  have hsplit := congrArg List.length (render_cons (w :: ws) (List.cons_ne_nil (v :: vs) []))
  have hsingle : render [w :: ws] = renderCommand (w :: ws) := List.intercalate_singleton
  simp only [List.length_append, List.length_cons, List.length_nil] at hsplit
  have hplain := runsPlain_iff hws hroom hsbin (by rw [hsingle]; omega)
  have hplain' := runsPlain_iff hvs hroom' hsbin (by omega)
  have hpipeline := hnum.trans_gt Nat.one_pos
  have hlaunches := fun first second =>
    @launches_pipeline _ startingPath first second hpipeline
  rw [Alike, hplain, hplain']
  constructor
  · rintro ⟨⟨first, second, hl, hasks, hasks'⟩, hend, hend'⟩
    obtain ⟨hl, hl'⟩ := (hlaunches first second).mp hl
    obtain ⟨hleft', hfew⟩ := hsecond.mp ⟨second, hl', hasks'⟩
    exact ⟨⟨hend, hfirst.mp ⟨first, hl, hasks⟩⟩, ⟨hend', hleft'⟩, hfew⟩
  · rintro ⟨⟨hend, hleft⟩, ⟨hend', hleft'⟩, hfew⟩
    obtain ⟨first, hl, hasks⟩ := hfirst.mpr hleft
    obtain ⟨second, hl', hasks'⟩ := hsecond.mpr ⟨hleft', hfew⟩
    exact ⟨⟨first, second, (hlaunches first second).mpr ⟨hl, hl'⟩, hasks, hasks'⟩, hend, hend'⟩

theorem alike_initialPath_iff : Alike initialPath buf arguments w ws v vs ↔
    w.length ≤ 4 ∧ v.length ≤ 4 ∧ vs.length ≤ 1 := by
  rw [alike_iff hws hvs hroom hroom' hlen hbuf arguments initialPath_spells,
    ready_initialPath_iff (hws w List.mem_cons_self).2.2.2,
    ready_initialPath_iff (hvs v List.mem_cons_self).2.2.2]

/-- The branches launch alike if and only if `starting_path` has the rest of the first words already,
which at the start means that they have at most four letters, and the second command has at most two
words. -/
theorem launches_alike_iff (hsbin : Spells startingPath 0 sbin) :
    (Alike startingPath buf arguments w ws v vs ↔
      Ready startingPath w ∧ Ready startingPath v ∧ vs.length ≤ 1) ∧
    (Alike initialPath buf arguments w ws v vs ↔
      w.length ≤ 4 ∧ v.length ≤ 4 ∧ vs.length ≤ 1) :=
  ⟨alike_iff hws hvs hroom hroom' hlen hbuf arguments hsbin,
    alike_initialPath_iff hws hvs hroom hroom' hlen hbuf arguments⟩

end Alike

def ls : List UInt8 := [108, 115]

def cat : List UInt8 := [99, 97, 116]

def clear : List UInt8 := [99, 108, 101, 97, 114]

/-- `ls | cat` -/
theorem lsCat_alike : Alike initialPath (lineBuf (render [[ls], [cat]])) (fun _ _ => none)
    ls [] cat [] :=
  (launches_alike_iff (by decide) (by decide) (by decide) (by decide) (by decide)
    (lineBuf_spells (render [[ls], [cat]])) _ initialPath_spells).2.mpr (by decide)

/-- `ls | clear`: the second child asks for `/sbin/clea`. -/
theorem lsClear_not_alike : (render [[ls], [clear]]).length ≤ MAX_INPUT_LENGTH ∧
    ¬ Alike initialPath (lineBuf (render [[ls], [clear]])) (fun _ _ => none) ls [] clear [] := by
  have hiff : Alike initialPath (lineBuf (render [[ls], [clear]])) (fun _ _ => none) ls [] clear [] ↔
      ls.length ≤ 4 ∧ clear.length ≤ 4 ∧ 0 ≤ 1 :=
    alike_initialPath_iff (by decide) (by decide) (by decide) (by decide) (by decide)
      (lineBuf_spells (render [[ls], [clear]])) fun _ _ => none
  exact ⟨by decide, fun h => absurd (hiff.mp h) (by decide)⟩

end OsShell.Prompt
