import OsShell.Library.Runs
import OsShell.Process.HandleRuns

/-!
# The prompt loop of the shell

A process that executes the loop reads a line and runs its command; while it
waits for a child, only the child moves. Where `exec` returns to a child, the
child goes on with the loop, so the processes in the loop are a stack: the one on
top reads. A program that a child starts ends some time, and is not looked into,
be it a shell again. What the shell prints, and which program a line names, is
left out; so is the future of a child, but for the slot it stands in.
-/

namespace OsShell.Prompt

open Processes Runs

variable {F S U : Type}

def MAX_INPUT_LENGTH : ℕ := 255
def PIPE : UInt8 := 124
def SPACE : UInt8 := 32

/-- The loop over `buf`, as far as it counts commands. -/
def scan : List UInt8 → ℕ → ℕ → ℕ
  | [], _, commandNum => commandNum
  | [c], _, commandNum => if c = PIPE then commandNum + 1 else commandNum
  | c :: d :: rest, argIndex, commandNum =>
    -- the character behind a pipe is skipped
    if c = PIPE then scan rest 0 (commandNum + 1)
    else
      let argIndex := if c = SPACE ∨ c = 0 then argIndex + 1 else argIndex
      if argIndex ≥ MAX_INPUT_LENGTH - 1 then commandNum else scan (d :: rest) argIndex commandNum

/-- `command_num` of a line, which `read_input_echo` ends with a zero. -/
def commandNum (line : List UInt8) : ℕ :=
  scan (line ++ [0]) 0 0

inductive Exec
  | started
  | failed (code : ℤ) (neg : code < 0)

/-- What `fork` takes for a child: its future and its page directory. -/
structure New (U : Type) where
  output : U
  pd : ℕ

/-- What a line meets with: the ends of the pipe, `pipefd` before the call, the children and what
their calls of `exec` do. -/
structure Env (F U : Type) where
  reader : F
  writer : F
  pipefd : Id × Id
  child : New U
  child2 : New U
  exec : Exec
  exec2 : Exec

/-- A key or a line that the prompt reads; `handle_tab` opens the current directory. -/
inductive Input (F U : Type)
  | tab (opened : Option F)
  | line (text : List UInt8) (env : Env F U)

/-- `fork`, as far as the tables go: the id, the child and the parent. -/
def fork (p : Process F S U) (new : New U) : Option (Id × Process F S U × Process F S U) :=
  match firstFree p.children with
  | none => none
  | some i => some (.ofNat 32 (PROC ||| i.val),
      ⟨p.files, p.sems, fun _ => none, new.output, new.pd⟩,
      { p with children := Function.update p.children i (some new.output) })

/-- `pipe(pipefd)`: what is in `pipefd` then, and the process. -/
def pipe (p : Process F S U) (env : Env F U) : (Id × Id) × Process F S U :=
  let (readFd, p) := p.setFile env.reader
  let (writeFd, p) := p.setFile env.writer
  (if readFd < 0 ∨ writeFd < 0 then env.pipefd else (.ofInt 32 readFd, .ofInt 32 writeFd), p)

/-- `close(target); dup2(fd, target); close(fd)` -/
def redirect (p : Process F S U) (fd target : Id) : Process F S U :=
  let p := (p.close target).2
  let p := (p.dup2 fd target).2
  (p.close fd).2

/-- The branch for a single command: the processes that go on with the loop, the reader first. -/
def plain (p : Process F S U) (env : Env F U) : List (Process F S U) :=
  match fork p env.child with
  | none => [p]
  | some (id, child, parent) =>
    match env.exec with
    | .failed _ _ => [child, parent]
    | .started => [(parent.wait id).2.2]

def piped (p : Process F S U) (env : Env F U) : List (Process F S U) :=
  let (pipefd, p) := pipe p env
  match fork p env.child with
  | none => [p]
  | some (id, child, parent) =>
    match env.exec with
    | .failed _ _ => [redirect child pipefd.2 1, parent]
    | .started =>
      let p := (parent.wait id).2.2
      match fork p env.child2 with
      | none => [p]
      | some (id2, child2, parent) =>
        match env.exec2 with
        | .failed _ _ => [redirect child2 pipefd.1 0, parent]
        | .started => [(parent.wait id2).2.2]

/-- The processes in the loop after an input, where they were `p` and those that wait. -/
def handle (p : Process F S U) : Input F U → List (Process F S U)
  | .tab none => [p]
  | .tab (some f) => [(p.setFile f).2]
  | .line text env => if commandNum text > 0 then piped p env else plain p env

section Calls

theorem fork_of_forked {c : Vmm.Config} {shared : ℕ} {output : U} {p : Process F S U}
    {m : PhysMem.Machine} {r : Forked F S U} (hcall : Processes.fork c shared output p m = .ok r) :
    (∃ child, r.child = some child ∧
      fork p ⟨output, child.pd⟩ = some (.ofInt 32 r.id, child, r.parent)) ∨
    r.child = none ∧ r.id = -1 ∧ r.parent = p ∧ ∀ new, fork p new = none := by
  unfold Processes.fork at hcall
  change (match firstFree p.children with | none => _ | some index => _) = _ at hcall
  cases hfree : firstFree p.children with
  | none =>
    rw [hfree] at hcall
    obtain rfl := Except.ok.inj hcall
    exact .inr ⟨rfl, rfl, rfl, fun new => by simp [fork, hfree]⟩
  | some i =>
    rw [hfree] at hcall
    left
    cases hmake : (make c shared output m : Except Halt (Process F S U × PhysMem.Machine)) with
    | error e => rw [hmake] at hcall; cases hcall
    | ok made =>
      rw [hmake] at hcall
      simp only [Stopping.ok_bind] at hcall
      cases hcopy : Vmm.copyPrivate p.pd made.1.pd made.2 with
      | error e => rw [hcopy] at hcall; cases hcall
      | ok m' =>
        rw [hcopy] at hcall
        obtain rfl := Except.ok.inj hcall
        obtain ⟨hnew, houtput⟩ : made.1 = ⟨fun _ => none, fun _ => none, fun _ => none, output,
            made.1.pd⟩ ∧ made.1.output = output := by
          unfold make at hmake
          cases hpd : Vmm.makePd c shared m with
          | error e => rw [hpd] at hmake; cases hmake
          | ok x => rw [hpd] at hmake; cases hmake; exact ⟨rfl, rfl⟩
        refine ⟨_, rfl, ?_⟩
        have hsems : (fun i => if (p.sems i).isSome then p.sems i else made.1.sems i) = p.sems := by
          funext i
          rw [hnew]
          cases p.sems i <;> rfl
        simp only [fork, hfree, hsems]
        rw [hnew]
        rfl

variable {p : Process F S U}

theorem fork_wait (hchildren : ∀ i, p.children i = none) (new : New U) :
    ∃ id child parent, fork p new = some (id, child, parent) ∧ (parent.wait id).2.2 = p := by
  have hindex : ∀ i : Fin 10, getChildIndex (.ofNat 32 (PROC ||| i.val)) = some i := by decide
  have hfree : firstFree p.children = some 0 := by
    rw [firstFree_eq_some]
    exact ⟨hchildren 0, fun j hj => absurd hj (by simp)⟩
  refine ⟨_, _, _, by simp only [fork, hfree]; rfl, ?_⟩
  simp only [Process.wait, hindex, Function.update_self, Function.update_idem]
  rw [← hchildren 0, Function.update_eq_self]

theorem plain_started (hchildren : ∀ i, p.children i = none) {env : Env F U}
    (hexec : env.exec = .started) : plain p env = [p] := by
  obtain ⟨id, child, parent, hfork, hwait⟩ := fork_wait hchildren env.child
  simp only [plain, hfork, hexec, hwait]

theorem plain_failed (hchildren : ∀ i, p.children i = none) {env : Env F U}
    (hexec : env.exec ≠ .started) : (plain p env).length = 2 := by
  obtain ⟨id, child, parent, hfork, -⟩ := fork_wait hchildren env.child
  cases h : env.exec with
  | started => exact absurd h hexec
  | failed code neg => simp only [plain, hfork, h, List.length_cons, List.length_nil]

theorem setFile_children (f : F) : (p.setFile f).2.children = p.children := by
  unfold Process.setFile
  split <;> rfl

theorem setFile_full (hfull : firstFree p.files = none) (f : F) : p.setFile f = (-1, p) := by
  simp [Process.setFile, hfull]

theorem setFile_files (f : F) {i : Fin 10} (h : p.files i ≠ none) :
    (p.setFile f).2.files i ≠ none := by
  unfold Process.setFile
  split
  · exact h
  · rename_i j _
    by_cases hij : i = j
    · subst hij
      simp
    · simpa [Function.update_of_ne hij] using h

theorem setFile_taken (f : F) {i : Fin 10} (hfree : firstFree p.files = some i) :
    p.files i = none ∧ (p.setFile f).2.files i ≠ none := by
  refine ⟨(firstFree_eq_some.mp hfree).1, ?_⟩
  simp [Process.setFile, hfree]

theorem pipe_children (env : Env F U) : (pipe p env).2.children = p.children := by
  simp only [pipe, setFile_children]

theorem pipe_full (hfull : firstFree p.files = none) (env : Env F U) : (pipe p env).2 = p := by
  simp only [pipe, setFile_full hfull]

theorem pipe_files (env : Env F U) {i : Fin 10} (h : p.files i ≠ none) :
    (pipe p env).2.files i ≠ none :=
  setFile_files _ (setFile_files _ h)

theorem pipe_taken (env : Env F U) {i : Fin 10} (hfree : firstFree p.files = some i) :
    p.files i = none ∧ (pipe p env).2.files i ≠ none :=
  ⟨(setFile_taken env.reader hfree).1, setFile_files _ (setFile_taken env.reader hfree).2⟩

theorem piped_started (hchildren : ∀ i, p.children i = none) {env : Env F U}
    (hexec : env.exec = .started) (hexec2 : env.exec2 = .started) :
    piped p env = [(pipe p env).2] := by
  have hchildren' : ∀ i, (pipe p env).2.children i = none := by simpa only [pipe_children]
  obtain ⟨id, child, parent, hfork, hwait⟩ := fork_wait hchildren' env.child
  obtain ⟨id2, child2, parent2, hfork2, hwait2⟩ := fork_wait hchildren' env.child2
  simp only [piped, hfork, hexec, hwait, hfork2, hexec2, hwait2]

theorem piped_failed (hchildren : ∀ i, p.children i = none) {env : Env F U}
    (hexec : ¬ (env.exec = .started ∧ env.exec2 = .started)) : (piped p env).length = 2 := by
  have hchildren' : ∀ i, (pipe p env).2.children i = none := by simpa only [pipe_children]
  obtain ⟨id, child, parent, hfork, hwait⟩ := fork_wait hchildren' env.child
  obtain ⟨id2, child2, parent2, hfork2, -⟩ := fork_wait hchildren' env.child2
  cases h : env.exec with
  | failed code neg => simp only [piped, hfork, h, List.length_cons, List.length_nil]
  | started =>
    cases h2 : env.exec2 with
    | started => exact absurd ⟨h, h2⟩ hexec
    | failed code neg =>
      simp only [piped, hfork, h, hwait, hfork2, h2, List.length_cons, List.length_nil]

end Calls

inductive Init (shell : Process F S U) : List (Process F S U) → Prop
  | start (hchildren : ∀ i, shell.children i = none) : Init shell [shell]

/-- An event is an input and the process that reads it. -/
inductive Step : List (Process F S U) → Process F S U × Input F U → List (Process F S U) → Prop
  | input (p : Process F S U) (waiting : List (Process F S U)) (i : Input F U)
      (hline : ∀ text env, i = .line text env → commandNum text ≤ 1) :
      Step (p :: waiting) (p, i) (handle p i ++ waiting)

def Restored (shell : Process F S U) (s : List (Process F S U)) : Prop :=
  ∃ p, s = [p] ∧ p.files = shell.files ∧ ∀ i, p.children i = none

/-- A tab takes no descriptor; a command starts, and where there are two, no descriptor is free for
the pipe. -/
def Harmless : Process F S U × Input F U → Prop
  | (p, .tab opened) => opened = none ∨ firstFree p.files = none
  | (p, .line text env) =>
    if commandNum text > 0 then
      firstFree p.files = none ∧ env.exec = .started ∧ env.exec2 = .started
    else env.exec = .started

section Runs

variable {shell : Process F S U}

inductive Spoiled (shell : Process F S U) : List (Process F S U) → Prop
  | process {s : List (Process F S U)} (hlength : 2 ≤ s.length) : Spoiled shell s
  | descriptor {p : Process F S U} (hchildren : ∀ i, p.children i = none) {i : Fin 10}
      (hbefore : shell.files i = none) (hopen : p.files i ≠ none) : Spoiled shell [p]

theorem Spoiled.not_restored {s : List (Process F S U)} (h : Spoiled shell s) :
    ¬ Restored shell s := by
  rintro ⟨p, rfl, hfiles, -⟩
  cases h with
  | process hlength => simp at hlength
  | descriptor _ hbefore hopen => exact hopen (by rw [hfiles, hbefore])

theorem handle_ne_nil (p : Process F S U) (i : Input F U) : handle p i ≠ [] := by
  cases i with
  | tab opened => cases opened <;> simp [handle]
  | line text env =>
    simp only [handle, plain, piped]
    repeat' split
    all_goals simp

theorem handle_cases {p : Process F S U} (hchildren : ∀ i, p.children i = none) (i : Input F U) :
    Harmless (p, i) ∧ handle p i = [p] ∨
      ¬ Harmless (p, i) ∧ (2 ≤ (handle p i).length ∨
        ∃ q, handle p i = [q] ∧ (∀ j, q.children j = none) ∧
          (∀ j, p.files j ≠ none → q.files j ≠ none) ∧
          ∃ j, p.files j = none ∧ q.files j ≠ none) := by
  cases i with
  | tab opened =>
    cases opened with
    | none => exact .inl ⟨.inl rfl, rfl⟩
    | some f =>
      cases hfree : firstFree p.files with
      | none => exact .inl ⟨.inr hfree, by rw [handle, setFile_full hfree]⟩
      | some j =>
        refine .inr ⟨by simp [Harmless, hfree], .inr ⟨_, rfl, ?_, fun _ => setFile_files f, j,
          setFile_taken f hfree⟩⟩
        simpa only [setFile_children]
  | line text env =>
    by_cases hpipe : commandNum text > 0
    · simp only [Harmless, handle, if_pos hpipe]
      by_cases hexec : env.exec = .started ∧ env.exec2 = .started
      · rw [piped_started hchildren hexec.1 hexec.2]
        cases hfree : firstFree p.files with
        | none => exact .inl ⟨⟨rfl, hexec⟩, by rw [pipe_full hfree]⟩
        | some j =>
          refine .inr ⟨by simp, .inr ⟨_, rfl, ?_, fun _ => pipe_files env, j, pipe_taken env hfree⟩⟩
          simpa only [pipe_children]
      · exact .inr ⟨fun h => hexec h.2, .inl (piped_failed hchildren hexec).ge⟩
    · simp only [Harmless, handle, if_neg hpipe]
      by_cases hexec : env.exec = .started
      · exact .inl ⟨hexec, plain_started hchildren hexec⟩
      · exact .inr ⟨hexec, .inl (plain_failed hchildren hexec).ge⟩

theorem Spoiled.step {s t : List (Process F S U)} {e : Process F S U × Input F U}
    (h : Spoiled shell s) (hst : Step s e t) : Spoiled shell t := by
  cases hst with
  | input p waiting i hline =>
    cases h with
    | process hlength =>
      refine .process ?_
      have := List.length_pos_of_ne_nil (handle_ne_nil p i)
      rw [List.length_cons] at hlength
      rw [List.length_append]
      omega
    | descriptor hchildren hbefore hopen =>
      rw [List.append_nil]
      rcases handle_cases hchildren i with ⟨-, heq⟩ | ⟨-, hlength | ⟨q, heq, hq, hmono, -⟩⟩
      · rw [heq]
        exact .descriptor hchildren hbefore hopen
      · exact .process hlength
      · rw [heq]
        exact .descriptor hq hbefore (hmono _ hopen)

theorem run_cases {es : List (Process F S U × Input F U)} {s : List (Process F S U)}
    (h : Trace (Init shell) Step es s) :
    (∀ i, shell.children i = none) ∧
      ((∀ e ∈ es, Harmless e) ∧ s = [shell] ∨ (∃ e ∈ es, ¬ Harmless e) ∧ Spoiled shell s) := by
  refine h.invariant (I := fun es s => (∀ i, shell.children i = none) ∧
    ((∀ e ∈ es, Harmless e) ∧ s = [shell] ∨ (∃ e ∈ es, ¬ Harmless e) ∧ Spoiled shell s)) ?_ ?_
  · rintro s ⟨hchildren⟩
    exact ⟨hchildren, .inl ⟨by simp, rfl⟩⟩
  · rintro es e s t ⟨hchildren, ⟨hes, rfl⟩ | ⟨⟨e', he', hnot⟩, hs⟩⟩ hst
    · refine ⟨hchildren, ?_⟩
      cases hst with
      | input p waiting i hline =>
        rw [List.append_nil]
        rcases handle_cases hchildren i with ⟨hharmless, heq⟩ | ⟨hnot, hleft⟩
        · refine .inl ⟨fun e he => ?_, heq⟩
          rcases List.mem_append.mp he with he | he
          · exact hes e he
          · rwa [List.mem_singleton.mp he]
        · refine .inr ⟨⟨_, List.mem_append_right _ (List.mem_singleton_self _), hnot⟩, ?_⟩
          obtain hlength | ⟨q, heq, hq, -, j, hbefore, hopen⟩ := hleft
          · exact .process hlength
          · rw [heq]
            exact .descriptor hq hbefore hopen
    · exact ⟨hchildren, .inr ⟨⟨e', List.mem_append_left _ he', hnot⟩, hs.step hst⟩⟩

theorem prompt_restored_iff {es : List (Process F S U × Input F U)} {s : List (Process F S U)}
    (h : Trace (Init shell) Step es s) : Restored shell s ↔ ∀ e ∈ es, Harmless e := by
  obtain ⟨hchildren, ⟨hes, rfl⟩ | ⟨⟨e, he, hnot⟩, hs⟩⟩ := run_cases h
  · exact iff_of_true ⟨shell, rfl, rfl, hchildren⟩ hes
  · exact iff_of_false hs.not_restored fun hall => hnot (hall e he)

end Runs

def terminal : Process ℕ ℕ ℕ :=
  ⟨fun i => if i.val < 3 then some i.val else none, fun _ => none, fun _ => none, 0, 0⟩

def meets (exec : Exec) : Env ℕ ℕ :=
  ⟨10, 11, (0, 0), ⟨20, 4096⟩, ⟨21, 8192⟩, exec, .started⟩

theorem terminal_start : Trace (Init terminal) Step [] [terminal] :=
  .start ⟨fun _ => rfl⟩

/-- `ls` -/
theorem ls_restored : Restored terminal (handle terminal (.line [108, 115] (meets .started))) := by
  have h := terminal_start.step (.input _ _ (.line [108, 115] (meets .started)) (by
    rintro text env heq
    cases heq
    decide))
  rw [List.append_nil] at h
  refine (prompt_restored_iff h).mpr fun e he => ?_
  rw [List.nil_append, List.mem_singleton] at he
  subst he
  have hplain : ¬ commandNum [108, 115] > 0 := by decide
  rw [Harmless, if_neg hplain]
  rfl

/-- `ls | wc` leaves both ends of the pipe open; after a command that does not exist there are two
shells. -/
theorem terminal_spoiled :
    (∃ s, Trace (Init terminal) Step
      [(terminal, .line [108, 115, 32, 124, 32, 119, 99] (meets .started))] s ∧
        ¬ Restored terminal s) ∧
    ∃ s, Trace (Init terminal) Step
      [(terminal, .line [108, 115] (meets (.failed (-1) (by decide))))] s ∧
        ¬ Restored terminal s := by
  refine ⟨⟨_, terminal_start.step (.input _ _ _ ?_), ?_⟩,
    ⟨_, terminal_start.step (.input _ _ _ ?_), ?_⟩⟩
  · rintro text env heq
    cases heq
    decide
  · rintro ⟨p, heq, hfiles, -⟩
    obtain rfl := (List.cons.inj heq).1
    have : some 10 = none := congrFun hfiles 3
    cases this
  · rintro text env heq
    cases heq
    decide
  · rintro ⟨p, heq, -⟩
    have : 2 = 1 := congrArg List.length heq
    omega

end OsShell.Prompt
