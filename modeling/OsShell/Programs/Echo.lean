import OsShell.Format.Directives

/-!
# Echo

`echo` prints its arguments one by one, each with a blank behind it. A call of
`printf` prints a thousand characters of a string at most, and after as many no
blank: what `echo` prints is right just when no argument is that long.
-/

namespace OsShell.Programs

open AddressSpace Format

/-- `vprintf` -/
def printf (env : Env) (fuel : ℕ) (format : List UInt8) (args : ℕ → Word) :
    Option (List UInt8) :=
  (dopr { env with maxlen := 1000 } fuel (format ++ [0]) args).map (·.out)

def echoLoop (env : Env) (argv : ℕ → Word) : ℕ → ℕ → Option (List UInt8)
  | 0, _ => none
  | fuel + 1, i =>
    if argv i = 0 then printf env fuel [10] fun _ => 0
    else do
      let text ← printf env fuel [37, 115, 32] fun _ => argv i
      let rest ← echoLoop env argv fuel (i + 1)
      some (text ++ rest)

def echo (env : Env) (argv : ℕ → Word) (fuel : ℕ) : Option (List UInt8) := echoLoop env argv fuel 1

def Argv (argv : ℕ → Word) : List Word → ℕ → Prop
  | [], i => argv i = 0
  | arg :: args, i => argv i = arg ∧ arg ≠ 0 ∧ Argv argv args (i + 1)

def echoed (text : List UInt8) : List UInt8 :=
  text.take 1000 ++ if text.length < 1000 then [32] else []

def stringDirective : Directive where
  flags := []
  min := .unset
  width _ _ h := by cases h
  max := none
  cflags := .none
  letter := 115
  isLetter := by decide

variable {env : Env} {argv : ℕ → Word}

theorem printf_newline (env : Env) (args : ℕ → Word) :
    ∃ k, ∀ fuel, printf env (fuel + k) [10] args = some [10] := by
  obtain ⟨k, hk⟩ := doprLoop_pieces { env with maxlen := 1000 } [.char 10 (by decide)]
    ⟨[], [], args⟩
  refine ⟨k, fun fuel => ?_⟩
  have hprinted := congrArg (Option.map (·.out)) (hk fuel)
  exact hprinted

theorem fmtstr_plain (env : Env) (value : Word) (hvalue : value ≠ 0) :
    fmtstr env value {} 0 1000 = (env.string value).take 1000 := by
  have hnone : (if (0 : ℤ) - ((env.string value).length : ℤ) < 0 then (0 : ℤ)
      else 0 - ((env.string value).length : ℤ)) = 0 := by
    split <;> omega
  unfold fmtstr
  simp only [if_neg hvalue, hnone, pad, Bool.false_eq_true, if_false]
  exact List.append_nil _

theorem printf_string (env : Env) {arg : Word} (harg : arg ≠ 0) (args : ℕ → Word) (h : args 0 = arg) :
    ∃ k, ∀ fuel, printf env (fuel + k) [37, 115, 32] args = some (echoed (env.string arg)) := by
  obtain ⟨k, hk⟩ := doprLoop_pieces { env with maxlen := 1000 }
    [.directive stringDirective, .char 32 (by decide)] ⟨[], [], args⟩
  refine ⟨k, fun fuel => ?_⟩
  have hprinted := congrArg (Option.map (·.out)) (hk fuel)
  refine hprinted.trans ?_
  let p := stringDirective.meaning { env with maxlen := 1000 } ⟨[], [], args⟩
  have hfirst : p.out = (env.string arg).take 1000 := by
    rw [← h] at harg ⊢
    exact (List.nil_append _).trans (fmtstr_plain { env with maxlen := 1000 } (args 0) harg)
  have hlength : 1000 ≤ p.out.length ↔ ¬ (env.string arg).length < 1000 := by
    rw [hfirst, List.length_take]
    omega
  change some (if 1000 ≤ p.out.length then p else p.put [32]).out = some (echoed (env.string arg))
  rw [echoed, ← hfirst]
  by_cases hshort : (env.string arg).length < 1000
  · rw [if_neg fun h => hlength.mp h hshort, if_pos hshort]
    rfl
  · rw [if_pos (hlength.mpr hshort), if_neg hshort, List.append_nil]

theorem echoLoop_eq (env : Env) {args : List Word} {i : ℕ} (h : Argv argv args i) :
    ∃ k, ∀ fuel, echoLoop env argv (fuel + k) i =
      some (args.flatMap (fun arg => echoed (env.string arg)) ++ [10]) := by
  induction args generalizing i with
  | nil =>
    obtain ⟨k, hk⟩ := printf_newline env fun _ => 0
    exact ⟨k + 1, fun fuel => (if_pos h).trans (hk fuel)⟩
  | cons arg args ih =>
    obtain ⟨harg, hne, hargs⟩ := h
    obtain ⟨j, hj⟩ := printf_string env hne (fun _ => argv i) harg
    obtain ⟨k, hk⟩ := ih hargs
    refine ⟨j + k + 1, fun fuel => ?_⟩
    have htext := hj (fuel + k)
    have hrest := hk (fuel + j)
    rw [show fuel + k + j = fuel + (j + k) by omega] at htext
    rw [show fuel + j + k = fuel + (j + k) by omega] at hrest
    rw [← Nat.add_assoc, echoLoop, if_neg (harg ▸ hne), htext, hrest, List.flatMap_cons, List.append_assoc]
    rfl

def echoText (env : Env) (args : List Word) : List UInt8 :=
  args.flatMap (fun arg => env.string arg ++ [32]) ++ [10]

theorem length_echoed (text : List UInt8) :
    (echoed text).length ≤ (text ++ [32]).length ∧
      ((echoed text).length = (text ++ [32]).length ↔ text.length < 1000) := by
  unfold echoed
  split <;> simp <;> omega

theorem echoed_eq_iff (env : Env) (args : List Word) :
    args.flatMap (fun arg => echoed (env.string arg)) ++ [10] = echoText env args ↔
      ∀ arg ∈ args, (env.string arg).length < 1000 := by
  unfold echoText
  constructor
  · intro h
    -- The other text is as long only if every part of it is.
    have hlength := congrArg List.length (List.append_cancel_right h)
    rw [List.length_flatMap, List.length_flatMap] at hlength
    clear h
    induction args with
    | nil => exact fun _ h => absurd h List.not_mem_nil
    | cons arg args ih =>
      have hle : (args.map fun arg => (echoed (env.string arg)).length).sum ≤
          (args.map fun arg => (env.string arg ++ [32]).length).sum :=
        List.sum_le_sum fun arg _ => (length_echoed (env.string arg)).1
      obtain ⟨hfirst, hshort⟩ := length_echoed (env.string arg)
      rw [List.map_cons, List.sum_cons, List.map_cons, List.sum_cons] at hlength
      intro x hx
      rcases List.mem_cons.mp hx with rfl | hx
      · exact hshort.mp (by omega)
      · exact ih (by omega) x hx
  · intro h
    congr 1
    refine List.flatMap_congr fun arg harg => ?_
    rw [echoed, if_pos (h arg harg), List.take_of_length_le (h arg harg).le]

/-- `echo` prints its arguments just when none of them is too long for `printf`. -/
theorem echo_correct_iff {args : List Word} (hargs : Argv argv args 1) :
    (∃ k, ∀ fuel, echo env argv (fuel + k) = some (echoText env args)) ↔
      ∀ arg ∈ args, (env.string arg).length < 1000 := by
  obtain ⟨k, hk⟩ := echoLoop_eq env hargs
  rw [← echoed_eq_iff]
  constructor
  · rintro ⟨j, hj⟩
    have h := (hk j).symm.trans ((congrArg (echo env argv) (Nat.add_comm j k)).trans (hj k))
    exact Option.some.inj h
  · intro h
    exact ⟨k, fun fuel => (hk fuel).trans (congrArg some h)⟩

def helloYou : Env where
  maxlen := 1000
  string w := if w = 2 then [104, 101, 108, 108, 111] else [121, 111, 117]
  fmtfp _ _ _ _ := []

theorem echo_correct_iff_helloYou :
    (∃ k, ∀ fuel, echo helloYou (fun i => if i < 3 then .ofNat 32 (i + 1) else 0) (fuel + k) =
      some (echoText helloYou [2, 3])) ↔
    ∀ arg ∈ [2, 3], (helloYou.string arg).length < 1000 :=
  echo_correct_iff ⟨rfl, by decide, rfl, by decide, rfl⟩

example : echoText helloYou [2, 3] =
    [104, 101, 108, 108, 111, 32, 121, 111, 117, 32, 10] := by decide

end OsShell.Programs
