import OsShell.Exec.Code

/-!
# Where `execvp` finds its arguments

The handler reads words and strings of the caller's memory up to the first zero.
Addresses have 32 bits, so a search that has gone once around the memory goes on
for ever: it has no result then. The handler takes the arguments from the fifth
word of the caller's stack on and never looks at the second, which is the array
that the caller passed. The memory does not change meanwhile, and the copies on
the kernel's heap are left out.
-/

namespace OsShell.Exec

open Bytes

/-- `while (!stop(i)) i++` -/
def findFrom (stop : ℕ → Bool) : ℕ → ℕ → Option ℕ
  | 0, _ => none
  | fuel + 1, i => if stop i then some i else findFrom stop fuel (i + 1)

section Memory

variable (mem : Buffer)

def byteAt (a : ℕ) : UInt8 := mem (a % 2 ^ 32)

def wordAt (a : ℕ) : ℕ := le32 (byteAt mem) a

def strlen (str : ℕ) : Option ℕ :=
  findFrom (fun n => byteAt mem (str + n) == 0) (2 ^ 32) 0

def cstring (str : ℕ) : Option (List UInt8) :=
  (strlen mem str).map fun n => slice (byteAt mem) str n

/-- `count` of a loop over `words[i]` that ends at a zero. -/
def countWords (words : ℕ) : Option ℕ :=
  findFrom (fun i => wordAt mem (words + 4 * i) == 0) (2 ^ 30) 0

def strings (words : ℕ) : Option (List (List UInt8)) := do
  let count ← countWords mem words
  (List.range count).mapM fun i => cstring mem (wordAt mem (words + 4 * i))

inductive Request
  | refused
  | exec (path : List UInt8) (argv : List (List UInt8))
deriving DecidableEq

/-- The handler, up to its call of `SYS::exec`. -/
def execvp (userEsp : ℕ) : Option Request := do
  let count ← countWords mem (userEsp + 4 * 5)
  if wordAt mem (userEsp + 4 * (5 + count - 1)) = 0 then
    return .refused
  let argvMod ← strings mem (userEsp + 4 * 5)
  let path ← cstring mem (wordAt mem (userEsp + 4 * 1))
  return .exec path argvMod

end Memory

variable {stop : ℕ → Bool} {fuel i n : ℕ}

theorem findFrom_spec (h : findFrom stop fuel i = some n) :
    i ≤ n ∧ stop n = true ∧ ∀ j, i ≤ j → j < n → stop j = false := by
  induction fuel generalizing i with
  | zero => nomatch h
  | succ fuel ih =>
    rw [findFrom] at h
    split at h
    · rename_i hstop
      obtain rfl := Option.some.inj h
      exact ⟨le_rfl, hstop, fun j hij hji => absurd hij (Nat.not_le_of_lt hji)⟩
    · rename_i hstop
      obtain ⟨hle, hn, hbefore⟩ := ih h
      refine ⟨by omega, hn, fun j hij hjn => ?_⟩
      by_cases hj : j = i
      · rw [hj]
        exact Bool.not_eq_true _ ▸ hstop
      · exact hbefore j (by omega) hjn

theorem findFrom_eq_none : findFrom stop fuel i = none ↔ ∀ j < fuel, stop (i + j) = false := by
  induction fuel generalizing i with
  | zero => exact ⟨fun _ j hj => absurd hj (Nat.not_lt_zero j), fun _ => rfl⟩
  | succ fuel ih =>
    rw [findFrom]
    by_cases hstop : stop i = true
    · rw [if_pos hstop]
      refine ⟨nofun, fun h => ?_⟩
      rw [← Nat.add_zero i, h 0 (Nat.succ_pos _)] at hstop
      nomatch hstop
    · rw [if_neg hstop, ih]
      constructor
      · intro h j hj
        cases j with
        | zero => exact Bool.not_eq_true _ ▸ hstop
        | succ j =>
          have := h j (by omega)
          rwa [Nat.add_assoc, Nat.add_comm 1 j] at this
      · intro h j hj
        have := h (j + 1) (by omega)
        rwa [Nat.add_comm j 1, ← Nat.add_assoc] at this

variable {mem : Buffer} {words userEsp : ℕ}

theorem byteAt_mod (a k : ℕ) : byteAt mem (a + 2 ^ 32 * k) = byteAt mem a := by
  rw [byteAt, Nat.add_mul_mod_self_left, byteAt]

theorem countWords_eq_none :
    countWords mem words = none ↔ ∀ i, wordAt mem (words + 4 * i) ≠ 0 := by
  rw [countWords, findFrom_eq_none]
  simp only [beq_eq_false_iff_ne, Nat.zero_add]
  refine ⟨fun h i => ?_, fun h i _ => h i⟩
  have hmod := h (i % 2 ^ 30) (Nat.mod_lt _ (by decide))
  have haddr : words + 4 * i = words + 4 * (i % 2 ^ 30) + 2 ^ 32 * (i / 2 ^ 30) := by omega
  rw [haddr, wordAt]
  rwa [le32_congr (c := byteAt mem) (q := words + 4 * (i % 2 ^ 30)) fun j _ => ?_]
  rw [Nat.add_right_comm, byteAt_mod]

variable {path : List UInt8} {argv : List (List UInt8)}

theorem strings_eq_some (h : strings mem words = some argv) :
    countWords mem words = some argv.length := by
  cases hcount : countWords mem words with
  | none =>
    rw [strings, hcount] at h
    nomatch h
  | some count =>
    rw [strings, hcount] at h
    have hsize := SatisfiesM_Option_eq.mp (Array.size_mapM _ (List.range count).toArray) argv.toArray
      (List.mapM_toArray.trans (congrArg (List.toArray <$> ·) h))
    exact congrArg some (hsize.trans List.length_range).symm

theorem wordAt_ne_zero (h : strings mem words = some argv) (hi : i < argv.length) :
    wordAt mem (words + 4 * i) ≠ 0 := by
  obtain ⟨-, -, hbefore⟩ := findFrom_spec (strings_eq_some h)
  simpa using hbefore i (Nat.zero_le i) hi

theorem execvp_eq {frame : List (List UInt8)}
    (hpath : cstring mem (wordAt mem (userEsp + 4 * 1)) = some path)
    (hframe : strings mem (userEsp + 4 * 5) = some frame) :
    execvp mem userEsp = some
      (if frame = [] ∧ wordAt mem (userEsp + 4 * 4) = 0 then .refused else .exec path frame) := by
  have hcount := strings_eq_some hframe
  cases frame with
  | nil =>
    simp only [execvp, hcount, hframe, hpath, List.length_nil, true_and]
    by_cases hzero : wordAt mem (userEsp + 4 * 4) = 0
    · simp [hzero]
    · simp [hzero]
  | cons x xs =>
    -- the word before the end is one of those counted
    have hne := wordAt_ne_zero hframe (Nat.lt_succ_self xs.length)
    have hlast : userEsp + 4 * (5 + (x :: xs).length - 1) = userEsp + 4 * 5 + 4 * xs.length := by
      rw [List.length_cons]
      omega
    simp only [execvp, hcount, hframe, hpath, Option.bind_eq_bind, Option.bind_some, hlast,
      if_neg hne, reduceCtorEq, false_and, if_false]
    rfl

theorem strings_of_execvp (h : execvp mem userEsp = some (.exec path argv)) :
    strings mem (userEsp + 4 * 5) = some argv := by
  simp only [execvp, Option.bind_eq_bind, Option.bind_eq_some_iff] at h
  obtain ⟨count, -, h⟩ := h
  split at h
  · nomatch h
  · simp only [Option.bind_eq_some_iff] at h
    obtain ⟨frame, hframe, path', -, h⟩ := h
    obtain ⟨-, rfl⟩ := Request.exec.inj (Option.some.inj h)
    exact hframe

theorem strings_nil_iff (h : strings mem words = some argv) : argv = [] ↔ wordAt mem words = 0 := by
  cases argv with
  | nil =>
    obtain ⟨-, hstop, -⟩ := findFrom_spec (strings_eq_some h)
    exact ⟨fun _ => by simpa using hstop, fun _ => rfl⟩
  | cons x xs =>
    have hne := wordAt_ne_zero h (i := 0) (Nat.succ_pos _)
    exact ⟨nofun, fun hzero => absurd hzero hne⟩

/-- `execvp(path, argv)` asks for `argv` if and only if the words of the stack from the fifth on
point to the same strings as the array, and, where there are none, the fourth is not zero. -/
theorem execvp_exec_iff (hpath : cstring mem (wordAt mem (userEsp + 4 * 1)) = some path)
    (hargv : strings mem (wordAt mem (userEsp + 4 * 2)) = some argv) :
    execvp mem userEsp = some (.exec path argv) ↔
      strings mem (userEsp + 4 * 5) = strings mem (wordAt mem (userEsp + 4 * 2)) ∧
        (wordAt mem (wordAt mem (userEsp + 4 * 2)) = 0 → wordAt mem (userEsp + 4 * 4) ≠ 0) := by
  rw [hargv, ← strings_nil_iff hargv]
  constructor
  · intro h
    have hframe := strings_of_execvp h
    refine ⟨hframe, fun hnil hzero => ?_⟩
    rw [execvp_eq hpath hframe, if_pos ⟨hnil, hzero⟩] at h
    nomatch h
  · rintro ⟨hframe, hzero⟩
    rw [execvp_eq hpath hframe, if_neg fun h => hzero h.1 h.2]

theorem execvp_of_array_at (hpath : cstring mem (wordAt mem (userEsp + 4 * 1)) = some path)
    (hargv : strings mem (wordAt mem (userEsp + 4 * 2)) = some argv)
    (harray : wordAt mem (userEsp + 4 * 2) = userEsp + 4 * 5) (hne : argv ≠ []) :
    execvp mem userEsp = some (.exec path argv) := by
  rw [harray] at hargv
  rw [execvp_eq hpath hargv, if_neg fun h => hne h.1]

def callMemory (argv : ℕ) : Buffer :=
  [⟨0x90000004, word 0x90000100 ++ word argv⟩, ⟨0x90000100, [97]⟩,
    ⟨argv, word 0x90000100⟩].foldl Store.apply fun _ => 0

/-- The array is the fifth word of the stack and the word behind it. -/
theorem callMemory_exec : execvp (callMemory 0x90000014) 0x90000000 =
    some (.exec [97] [[97]]) := by
  have hpath : cstring (callMemory 0x90000014) (wordAt (callMemory 0x90000014)
      (0x90000000 + 4 * 1)) = some [97] := by decide +kernel
  have hargv : strings (callMemory 0x90000014) (wordAt (callMemory 0x90000014)
      (0x90000000 + 4 * 2)) = some [[97]] := by decide +kernel
  exact (execvp_exec_iff hpath hargv).mpr (by decide +kernel)

/-- The array is somewhere else: the call is refused. -/
theorem callMemory_refused : cstring (callMemory 0x90000200) (wordAt (callMemory 0x90000200)
      (0x90000000 + 4 * 1)) = some [97] ∧
    strings (callMemory 0x90000200) (wordAt (callMemory 0x90000200) (0x90000000 + 4 * 2)) =
      some [[97]] ∧
    execvp (callMemory 0x90000200) 0x90000000 ≠ some (.exec [97] [[97]]) := by
  decide +kernel

end OsShell.Exec
