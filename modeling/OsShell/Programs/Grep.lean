import OsShell.Library.Bytes
import OsShell.Library.Lines

/-!
# Searching lines

`grep` reads a line, looks for the pattern in it and prints it. The descriptor gives
a byte for each call of `read` and then 0: what is left to read is a list. A string is
the list of its characters, and a pointer into one is how many characters it has passed;
`none` is the null pointer.
-/

namespace OsShell.Programs

open Bytes Lines

def newline : UInt8 := 10

/-- The loop of `fgets`: how many bytes it has read, the array and what is left to read. -/
def fgetsLoop (size : ℕ) : List UInt8 → ℕ → Buffer → ℕ × Buffer × List UInt8
  | [], bytesRead, s => (bytesRead, s, [])
  | c :: rest, bytesRead, s =>
    if bytesRead < size - 1 then
      if c = newline then (bytesRead + 1, Function.update s bytesRead newline, rest)
      else fgetsLoop size rest (bytesRead + 1) (Function.update s bytesRead c)
    else (bytesRead, s, c :: rest)

/-- Whether `fgets` returns the array, and not null; the array and what is left to read. -/
def fgets (s : Buffer) (size : ℕ) (input : List UInt8) : Bool × Buffer × List UInt8 :=
  let (bytesRead, s, rest) := fgetsLoop size input 0 s
  (bytesRead ≠ 0, Function.update s bytesRead 0, rest)

/-- `while (*n != '\0' && *h == *n) { h++; n++; }`, and whether `*n` is zero then. -/
def matchHere : List UInt8 → List UInt8 → Bool
  | _, [] => true
  | [], _ :: _ => false
  | x :: h, y :: n => if x = y then matchHere h n else false

/-- The loop of `strstr`, where `haystack` has been advanced by `i`. -/
def strstrFrom (needle : List UInt8) : List UInt8 → ℕ → Option ℕ
  | [], _ => none
  | x :: h, i => if matchHere (x :: h) needle then some i else strstrFrom needle h (i + 1)

def strstr (haystack needle : List UInt8) : Option ℕ :=
  if needle = [] then some 0 else strstrFrom needle haystack 0

/-- The lines that the loop of `main` goes through, with the array `line`. -/
def grepLines : ℕ → Buffer → List UInt8 → Option (List (List UInt8))
  | 0, _, _ => none
  | rounds + 1, line, input =>
    match fgets line 1024 input with
    | (false, _, _) => some []
    | (true, line, rest) => (grepLines rounds line rest).map (cstr (slice line 0 1024) :: ·)

/-- The strings that `main` passes to `printf`. -/
def grep (pattern : List UInt8) : ℕ → Buffer → List UInt8 → Option (List (List UInt8))
  | 0, _, _ => none
  | rounds + 1, line, input =>
    match fgets line 1024 input with
    | (false, _, _) => some []
    | (true, line, rest) =>
      let text := cstr (slice line 0 1024)
      let printed := grep pattern rounds line rest
      if (strstr text pattern).isSome then printed.map (text :: ·) else printed

/-! ## Reading lines -/

variable {input : List UInt8} {size bytesRead rounds : ℕ} {s : Buffer}

theorem fgetsLoop_eq (hfit : bytesRead + (cut newline input).1.length ≤ size - 1) :
    fgetsLoop size input bytesRead s = (bytesRead + (cut newline input).1.length,
      put bytesRead (cut newline input).1.length (fun i => (cut newline input).1.getD i 0) s,
      (cut newline input).2) := by
  induction input generalizing bytesRead s with
  | nil =>
    rw [fgetsLoop, cut, List.length_nil, put_zero]
    rfl
  | cons c input ih =>
    rw [fgetsLoop]
    rw [cut] at hfit ⊢
    by_cases hc : c = newline
    · rw [if_pos hc] at hfit ⊢
      have hput := put_cons bytesRead c [] s
      rw [List.length_nil, put_zero] at hput
      rw [if_pos hc, List.length_singleton, ← hput, if_pos (by simpa using hfit), hc]
    · rw [if_neg hc, List.length_cons] at hfit
      rw [if_neg hc, if_neg hc, if_pos (by omega), ih (by omega), List.length_cons, ← put_cons]
      simp only [Nat.add_assoc, Nat.add_comm 1]

theorem fgets_eq (hne : input ≠ []) (hfit : (cut newline input).1.length ≤ size - 1) :
    ∃ s', fgets s size input = (true, s', (cut newline input).2) ∧
      Spells s' 0 ((cut newline input).1 ++ [0]) := by
  have hpos : 0 < (cut newline input).1.length := List.length_pos_of_ne_nil (cut_ne_nil hne)
  refine ⟨Function.update (put 0 (cut newline input).1.length (fun i => (cut newline input).1.getD i 0) s)
    (cut newline input).1.length 0, ?_,
    spells_append.mpr ⟨spells_iff_getD.mpr fun i hi => ?_, fun i hi => ?_⟩⟩
  · rw [fgets, fgetsLoop_eq (by omega), Nat.zero_add]
    simp [hpos.ne']
  · rw [Function.update_of_ne (by omega)]
    exact put_of_mem _ _ hi
  · obtain rfl : i = 0 := by simpa using hi
    simp

theorem grepLines_eq {ls : List (List UInt8)} (hls : lines newline input = ls) (hzero : 0 ∉ input)
    (hfit : ∀ l ∈ ls, l.length ≤ 1023) (line : Buffer) :
    grepLines (ls.length + 1) line input = some ls := by
  induction ls generalizing input line with
  | nil =>
    rw [lines_eq_nil.mp hls]
    rfl
  | cons l ls ih =>
    have hne : input ≠ [] := by
      rintro rfl
      exact absurd hls (List.cons_ne_nil _ _).symm
    rw [lines_eq hne] at hls
    obtain ⟨rfl, hrest⟩ := List.cons.inj hls
    have hlen := hfit _ List.mem_cons_self
    have hsplit := cut_append newline input
    obtain ⟨line', hfgets, hspells⟩ := fgets_eq (s := line) hne
      (show (cut newline input).1.length ≤ 1024 - 1 from hlen)
    have hline : cstr (slice line' 0 1024) = (cut newline input).1 := by
      rw [cstr_slice hspells (by omega), cstr_eq_self]
      exact fun h0 => hzero (hsplit ▸ List.mem_append_left _ h0)
    rw [List.length_cons, grepLines, hfgets]
    dsimp only
    rw [ih hrest (fun h0 => hzero (hsplit ▸ List.mem_append_right _ h0))
      (fun l hl => hfit l (List.mem_cons_of_mem _ hl)), hline]
    rfl

theorem grep_eq (pattern : List UInt8) (line : Buffer) : grep pattern rounds line input =
    (grepLines rounds line input).map (List.filter fun l => (strstr l pattern).isSome) := by
  induction rounds generalizing line input with
  | zero => rfl
  | succ rounds ih =>
    rw [grep, grepLines]
    cases hfgets : fgets line 1024 input with
    | mk found p =>
      cases found with
      | false => rfl
      | true =>
        dsimp only
        rw [ih]
        generalize cstr (slice p.1 0 1024) = text
        cases grepLines rounds p.1 p.2 with
        | none => exact ite_self _
        | some ls =>
          by_cases hfound : (strstr text pattern).isSome = true
          · rw [if_pos hfound]
            exact congrArg some (List.filter_cons_of_pos (p := fun l => (strstr l pattern).isSome)
              hfound).symm
          · rw [if_neg hfound]
            exact congrArg some (List.filter_cons_of_neg (p := fun l => (strstr l pattern).isSome)
              hfound).symm

/-! ## Searching a line -/

variable {haystack needle : List UInt8}

theorem matchHere_iff : matchHere haystack needle = true ↔ needle <+: haystack := by
  fun_induction matchHere with
  | case1 => simp
  | case2 => simp
  | case3 h y n ih => rw [ih, List.cons_prefix_cons, and_iff_right rfl]
  | case4 x h y n hne => simp [List.cons_prefix_cons, Ne.symm hne]

theorem strstrFrom_eq_some {i k : ℕ} (h : strstrFrom needle haystack i = some k) :
    ∃ j, k = i + j ∧ j < haystack.length ∧ needle <+: haystack.drop j ∧
      ∀ m < j, ¬ needle <+: haystack.drop m := by
  induction haystack generalizing i with
  | nil => simp [strstrFrom] at h
  | cons x haystack ih =>
    rw [strstrFrom] at h
    by_cases hmatch : matchHere (x :: haystack) needle = true
    · rw [if_pos hmatch] at h
      exact ⟨0, (Option.some.inj h).symm, Nat.succ_pos _, matchHere_iff.mp hmatch, by simp⟩
    · rw [if_neg hmatch] at h
      obtain ⟨j, rfl, hj, hfront, hfirst⟩ := ih h
      refine ⟨j + 1, by omega, Nat.succ_lt_succ hj, hfront, fun m hm => ?_⟩
      cases m with
      | zero => exact fun h0 => hmatch (matchHere_iff.mpr h0)
      | succ m => exact hfirst m (by omega)

theorem strstrFrom_eq_none {i : ℕ} : strstrFrom needle haystack i = none ↔
    ∀ j < haystack.length, ¬ needle <+: haystack.drop j := by
  induction haystack generalizing i with
  | nil => simp [strstrFrom]
  | cons x haystack ih =>
    rw [strstrFrom]
    by_cases hmatch : matchHere (x :: haystack) needle = true
    · rw [if_pos hmatch]
      refine iff_of_false (by simp) fun h => h 0 (Nat.succ_pos _) (matchHere_iff.mp hmatch)
    · rw [if_neg hmatch, ih]
      constructor
      · intro h j hj
        cases j with
        | zero => exact fun h0 => hmatch (matchHere_iff.mpr h0)
        | succ j => exact h j (Nat.lt_of_succ_lt_succ hj)
      · exact fun h j hj => h (j + 1) (Nat.succ_lt_succ hj)

theorem infix_iff_drop : needle <:+: haystack ↔ ∃ j, needle <+: haystack.drop j := by
  constructor
  · rintro ⟨front, back, rfl⟩
    refine ⟨front.length, back, ?_⟩
    rw [List.append_assoc, List.drop_left]
  · rintro ⟨j, hfront⟩
    exact hfront.isInfix.trans (List.drop_suffix j haystack).isInfix

theorem length_of_prefix_drop {j : ℕ} (hne : needle ≠ []) (h : needle <+: haystack.drop j) :
    j < haystack.length := by
  have hle := h.length_le
  have hpos := List.length_pos_of_ne_nil hne
  rw [List.length_drop] at hle
  omega

theorem strstr_eq_some_iff {k : ℕ} : strstr haystack needle = some k ↔
    k ≤ haystack.length ∧ needle <+: haystack.drop k ∧ ∀ j < k, ¬ needle <+: haystack.drop j := by
  unfold strstr
  by_cases hne : needle = []
  · subst hne
    rw [if_pos rfl]
    constructor
    · intro h
      obtain rfl := Option.some.inj h
      exact ⟨Nat.zero_le _, List.nil_prefix, by simp⟩
    · rintro ⟨-, -, hfirst⟩
      by_contra hk
      exact hfirst 0 (Nat.pos_of_ne_zero fun h0 => hk (congrArg some h0.symm)) List.nil_prefix
  · rw [if_neg hne]
    constructor
    · intro h
      obtain ⟨j, rfl, hj, hfront, hfirst⟩ := strstrFrom_eq_some h
      rw [Nat.zero_add]
      exact ⟨hj.le, hfront, hfirst⟩
    · rintro ⟨-, hfront, hfirst⟩
      cases h : strstrFrom needle haystack 0 with
      | none => exact absurd hfront (strstrFrom_eq_none.mp h k (length_of_prefix_drop hne hfront))
      | some m =>
        obtain ⟨j, rfl, -, hfront', hfirst'⟩ := strstrFrom_eq_some h
        rw [Nat.zero_add]
        rcases lt_trichotomy j k with hlt | rfl | hlt
        · exact absurd hfront' (hfirst j hlt)
        · rfl
        · exact absurd hfront (hfirst' k hlt)

theorem strstr_eq_none_iff : strstr haystack needle = none ↔ ¬ needle <:+: haystack := by
  rw [infix_iff_drop, strstr]
  by_cases hne : needle = []
  · rw [if_pos hne, hne]
    exact iff_of_false (by simp) (not_not_intro ⟨0, List.nil_prefix⟩)
  · rw [if_neg hne, strstrFrom_eq_none, not_exists]
    refine ⟨fun h j hfront => ?_, fun h j _ => h j⟩
    exact h j (length_of_prefix_drop hne hfront) hfront

/-- `fgets` cuts the text into its lines, and `grep` prints those that contain the pattern, for any
text whose lines fit the array. -/
theorem grep_correct {text : List UInt8} (hzero : 0 ∉ text)
    (hfit : ∀ l ∈ lines newline text, l.length ≤ 1023) (pattern : List UInt8) (line : Buffer) :
    Cut newline text (lines newline text) ∧
    grepLines ((lines newline text).length + 1) line text = some (lines newline text) ∧
    grep pattern ((lines newline text).length + 1) line text =
      some ((lines newline text).filter fun l => pattern <:+: l) ∧
    (∀ haystack needle k, strstr haystack needle = some k ↔ k ≤ haystack.length ∧
      needle <+: haystack.drop k ∧ ∀ j < k, ¬ needle <+: haystack.drop j) ∧
    ∀ haystack needle, strstr haystack needle = none ↔ ¬ needle <:+: haystack := by
  have hlines := grepLines_eq rfl hzero hfit line
  refine ⟨lines_cut newline text, hlines, ?_, fun _ _ _ => strstr_eq_some_iff,
    fun _ _ => strstr_eq_none_iff⟩
  rw [grep_eq, hlines]
  refine congrArg some (List.filter_congr fun l _ => ?_)
  rw [Bool.eq_iff_iff, decide_eq_true_iff, Option.isSome_iff_ne_none, ne_eq, strstr_eq_none_iff,
    not_not]

/-- `grep b` of the lines `ab`, `c` and `ba`, the last one without a newline. -/
theorem grep_b : grep [98] 4 (fun _ => 7) [97, 98, 10, 99, 10, 98, 97] =
    some [[97, 98, 10], [98, 97]] :=
  (grep_correct (show 0 ∉ ([97, 98, 10, 99, 10, 98, 97] : List UInt8) by decide) (by decide) [98]
    fun _ => 7).2.2.1

end OsShell.Programs
