import OsShell.Library.Bytes
import OsShell.Shell.Prompt

/-!
# The words of a line

The shell cuts a line into words in its own buffer: a space becomes a zero, and
`arguments` gets the place where the word begins. A pipe ends a command; the
character behind it is skipped, and so is one character of `arg_start`. A place in
`buf` stands for the pointer to it. The array `arguments` is not initialised.
-/

namespace OsShell.Prompt

open Bytes

inductive Stored
  | zero (i : ℕ)
  | argument (c a : ℕ) (place : Option ℕ)
deriving DecidableEq

/-- Stores to `buf[0..255]`, and to `arguments[0..n][0..255]` of pointers into `buf`. -/
def Stored.Within (n : ℕ) : Stored → Prop
  | .zero i => i ≤ MAX_INPUT_LENGTH
  | .argument c a place =>
    c ≤ n ∧ a ≤ MAX_INPUT_LENGTH ∧ ∀ p, place = some p → p ≤ MAX_INPUT_LENGTH

abbrev Stored.Inside : Stored → Prop :=
  Stored.Within 9

theorem Stored.Within.mono {m n : ℕ} {st : Stored} (h : st.Within m) (hmn : m ≤ n) :
    st.Within n := by
  cases st with
  | zero i => exact h
  | argument c a place => exact ⟨h.1.trans hmn, h.2⟩

/-- The variables of the loop; `stores` keeps what has been stored so far. -/
structure Parsing where
  buf : Buffer
  arguments : ℕ → ℕ → Option ℕ
  commandNum : ℕ
  argIndex : ℕ
  argStart : ℕ
  stores : List Stored

namespace Parsing

/-- `arguments[command_num][arg_index] = place` -/
def setArgument (s : Parsing) (place : Option ℕ) : Parsing :=
  { s with
    arguments := Function.update s.arguments s.commandNum
      (Function.update (s.arguments s.commandNum) s.argIndex place)
    stores := s.stores ++ [.argument s.commandNum s.argIndex place] }

/-- `buf[i] = '\0'` -/
def setZero (s : Parsing) (i : ℕ) : Parsing :=
  { s with buf := Function.update s.buf i 0, stores := s.stores ++ [.zero i] }

/-- The branch for a space or a zero. -/
def endArgument (s : Parsing) (i : ℕ) : Parsing :=
  let s := s.setZero i
  let s := s.setArgument (some s.argStart)
  { s with argIndex := s.argIndex + 1, argStart := i + 1 }

/-- The branch for a pipe. -/
def endCommand (s : Parsing) : Parsing :=
  let s := s.setArgument none
  { s with commandNum := s.commandNum + 1, argIndex := 0, argStart := s.argStart + 2 }

/-- The body of the loop without the `break`, and what `i` is then. -/
def round (s : Parsing) (i : ℕ) : Parsing × ℕ :=
  let s := if s.buf i = SPACE ∨ s.buf i = 0 then s.endArgument i else s
  if s.buf i = PIPE then (s.endCommand, i + 1) else (s, i)

theorem round_cases (s : Parsing) (i : ℕ) :
    (s.buf i = SPACE ∨ s.buf i = 0) ∧ s.round i = (s.endArgument i, i) ∨
    s.buf i = PIPE ∧ s.round i = (s.endCommand, i + 1) ∨
    s.buf i ≠ SPACE ∧ s.buf i ≠ 0 ∧ s.buf i ≠ PIPE ∧ s.round i = (s, i) := by
  by_cases hend : s.buf i = SPACE ∨ s.buf i = 0
  · have hzero : (s.endArgument i).buf i = 0 := Function.update_self _ _ _
    left
    exact ⟨hend, by simp only [round, if_pos hend, hzero]; rfl⟩
  · obtain ⟨hspace, hzero⟩ := not_or.mp hend
    right
    by_cases hpipe : s.buf i = PIPE
    · exact .inl ⟨hpipe, by simp only [round, if_neg hend, if_pos hpipe]⟩
    · exact .inr ⟨hspace, hzero, hpipe, by simp only [round, if_neg hend, if_neg hpipe]⟩

theorem le_round (s : Parsing) (i : ℕ) : i ≤ (s.round i).2 := by
  rcases round_cases s i with ⟨-, h⟩ | ⟨-, h⟩ | ⟨-, -, -, h⟩ <;> simp [h]

def parseFrom (bufferIndex i : ℕ) (s : Parsing) : Parsing :=
  if bufferIndex < i then s
  else if (s.round i).1.argIndex ≥ MAX_INPUT_LENGTH - 1 then (s.round i).1
  else parseFrom bufferIndex ((s.round i).2 + 1) (s.round i).1
termination_by bufferIndex + 1 - i
decreasing_by
  have := le_round s i
  omega

/-- The loop, and the null pointer behind the last word. -/
def finish (bufferIndex i : ℕ) (s : Parsing) : Parsing :=
  (s.parseFrom bufferIndex i).setArgument none

end Parsing

def parse (buf : Buffer) (arguments : ℕ → ℕ → Option ℕ) (bufferIndex : ℕ) : Parsing :=
  Parsing.finish bufferIndex 0 ⟨buf, arguments, 0, 0, 0, []⟩

namespace Parsing

variable {s t u : Parsing} {bufferIndex i j : ℕ}

theorem parseFrom_of_lt (hi : bufferIndex < i) : s.parseFrom bufferIndex i = s := by
  rw [parseFrom, if_pos hi]

theorem parseFrom_of_round (hi : i ≤ bufferIndex) (hround : s.round i = (t, j))
    (hroom : t.argIndex < MAX_INPUT_LENGTH - 1) :
    s.parseFrom bufferIndex i = t.parseFrom bufferIndex (j + 1) := by
  rw [parseFrom, if_neg (by omega), hround, if_neg (Nat.not_le.mpr hroom)]

/-! ## What is done stays -/

/-- `t` has the buffer in front of `i` and the entries in front of the next one as in `s`. -/
structure Keeps (i : ℕ) (s t : Parsing) : Prop where
  buf : ∀ j < i, t.buf j = s.buf j
  arguments : ∀ c a, c < s.commandNum ∨ c = s.commandNum ∧ a < s.argIndex →
    t.arguments c a = s.arguments c a
  next : s.commandNum < t.commandNum ∨ s.commandNum = t.commandNum ∧ s.argIndex ≤ t.argIndex

theorem Keeps.refl (i : ℕ) (s : Parsing) : Keeps i s s :=
  ⟨fun _ _ => rfl, fun _ _ _ => rfl, .inr ⟨rfl, le_rfl⟩⟩

theorem Keeps.trans (h : Keeps i s t) (h' : Keeps j t u) (hij : i ≤ j) : Keeps i s u where
  buf k hk := (h'.buf k (by omega)).trans (h.buf k hk)
  arguments c a hca := by
    have hnext := h.next
    exact (h'.arguments c a (by omega)).trans (h.arguments c a hca)
  next := by
    have hst := h.next
    have htu := h'.next
    omega

theorem setArgument_of_before {c a : ℕ} (place : Option ℕ)
    (h : c < s.commandNum ∨ c = s.commandNum ∧ a < s.argIndex) :
    (s.setArgument place).arguments c a = s.arguments c a := by
  rcases h with hc | ⟨rfl, ha⟩
  · exact congrFun (Function.update_of_ne hc.ne _ _) a
  · simp only [setArgument]
    rw [Function.update_self, Function.update_of_ne ha.ne]

theorem setArgument_keeps (place : Option ℕ) : Keeps i s (s.setArgument place) where
  buf _ _ := rfl
  arguments _ _ h := setArgument_of_before place h
  next := .inr ⟨rfl, le_rfl⟩

theorem endArgument_keeps : Keeps i s (s.endArgument i) where
  buf _ hj := Function.update_of_ne hj.ne _ _
  arguments _ _ h := setArgument_of_before (s := s.setZero i) _ h
  next := .inr ⟨rfl, Nat.le_succ _⟩

theorem endCommand_keeps : Keeps i s s.endCommand where
  buf _ _ := rfl
  arguments _ _ h := setArgument_of_before _ h
  next := .inl (Nat.lt_succ_self _)

theorem round_keeps (s : Parsing) (i : ℕ) : Keeps i s (s.round i).1 := by
  rcases round_cases s i with ⟨-, h⟩ | ⟨-, h⟩ | ⟨-, -, -, h⟩
  · exact h ▸ endArgument_keeps
  · exact h ▸ endCommand_keeps
  · exact h ▸ Keeps.refl i s

theorem parseFrom_keeps (bufferIndex i : ℕ) (s : Parsing) : Keeps i s (s.parseFrom bufferIndex i) := by
  fun_induction parseFrom with
  | case1 => exact Keeps.refl _ _
  | case2 i s => exact round_keeps s i
  | case3 i s _ _ ih => exact (round_keeps s i).trans ih (Nat.le_succ_of_le (le_round s i))

theorem finish_keeps (bufferIndex i : ℕ) (s : Parsing) : Keeps i s (s.finish bufferIndex i) :=
  (parseFrom_keeps bufferIndex i s).trans (setArgument_keeps (i := i) none) le_rfl

/-! ## The words -/

def PointsTo (buf : Buffer) (entry : Option ℕ) (w : List UInt8) : Prop :=
  ∃ place, entry = some place ∧ place + w.length ≤ MAX_INPUT_LENGTH ∧ Spells buf place (w ++ [0])

def Argv (buf : Buffer) (argv : ℕ → Option ℕ) (ws : List (List UInt8)) : Prop :=
  (∀ a (ha : a < ws.length), PointsTo buf (argv a) ws[a]) ∧ argv ws.length = none

abbrev Entry (s : Parsing) (c a : ℕ) (w : List UInt8) : Prop :=
  PointsTo s.buf (s.arguments c a) w

abbrev Holds (s : Parsing) (c : ℕ) (ws : List (List UInt8)) : Prop :=
  Argv s.buf (s.arguments c) ws

theorem Keeps.entry {c a : ℕ} {w : List UInt8} (h : Keeps i s t)
    (hca : c < s.commandNum ∨ c = s.commandNum ∧ a < s.argIndex) {place : ℕ}
    (hplace : s.arguments c a = some place) (hlen : place + w.length < i)
    (hi : i ≤ MAX_INPUT_LENGTH + 1) (hw : Spells s.buf place (w ++ [0])) : t.Entry c a w := by
  refine ⟨place, (h.arguments c a hca).trans hplace, by omega, hw.congr fun j hj => ?_⟩
  rw [List.length_append, List.length_singleton] at hj
  exact h.buf _ (by omega)

abbrev IsWord (w : List UInt8) : Prop :=
  w ≠ [] ∧ SPACE ∉ w ∧ PIPE ∉ w ∧ 0 ∉ w

theorem parseFrom_letters {w : List UInt8} (hspace : SPACE ∉ w) (hpipe : PIPE ∉ w)
    (hzero : 0 ∉ w) (hw : Spells s.buf i w) (hi : i + w.length ≤ bufferIndex)
    (hroom : s.argIndex < MAX_INPUT_LENGTH - 1) :
    s.parseFrom bufferIndex i = s.parseFrom bufferIndex (i + w.length) := by
  induction w generalizing i with
  | nil => rfl
  | cons x w ih =>
    rw [List.length_cons] at hi
    simp only [List.mem_cons, not_or] at hspace hpipe hzero
    have hx : s.buf i = x := hw 0 (Nat.succ_pos _)
    have hrest : Spells s.buf (i + 1) w := (spells_cons.mp hw).2
    have hround : s.round i = (s, i) := by
      simp only [round, hx, Ne.symm hspace.1, Ne.symm hzero.1, Ne.symm hpipe.1, or_self, if_false]
    rw [parseFrom_of_round (by omega) hround hroom,
      ih hspace.2 hpipe.2 hzero.2 hrest (by omega), List.length_cons]
    congr 1
    omega

theorem parseFrom_word {w : List UInt8} {x : UInt8} (hword : IsWord w) (hx : x = SPACE ∨ x = 0)
    (hw : Spells s.buf i (w ++ [x])) (hi : i + w.length ≤ bufferIndex)
    (hroom : s.argIndex + 1 < MAX_INPUT_LENGTH - 1) :
    s.parseFrom bufferIndex i =
      (s.endArgument (i + w.length)).parseFrom bufferIndex (i + w.length + 1) := by
  obtain ⟨-, hspace, hpipe, hzero⟩ := hword
  obtain ⟨hletters, hend⟩ := spells_append.mp hw
  have hend : s.buf (i + w.length) = x := hend 0 (by simp)
  rw [parseFrom_letters hspace hpipe hzero hletters hi (by omega)]
  rcases round_cases s (i + w.length) with ⟨-, h⟩ | ⟨h, -⟩ | ⟨h, h', -⟩
  · exact parseFrom_of_round hi h hroom
  · rw [hend] at h
    rcases hx with rfl | rfl <;> exact absurd h (by decide)
  · rw [hend] at h h'
    exact absurd hx (not_or.mpr ⟨h, h'⟩)

structure Consumed (bufferIndex i : ℕ) (s : Parsing) (ws : List (List UInt8)) (j : ℕ)
    (t : Parsing) : Prop where
  parse : s.parseFrom bufferIndex i = t.parseFrom bufferIndex j
  commandNum : t.commandNum = s.commandNum
  argIndex : t.argIndex = s.argIndex + ws.length
  argStart : t.argStart = j
  behind : ∀ k, j ≤ k → t.buf k = s.buf k
  entries : ∀ a (ha : a < ws.length),
    (s.finish bufferIndex i).Entry s.commandNum (s.argIndex + a) ws[a]

theorem Consumed.finish {ws : List (List UInt8)} (h : Consumed bufferIndex i s ws j t) :
    s.finish bufferIndex i = t.finish bufferIndex j := by
  rw [Parsing.finish, Parsing.finish, h.parse]

theorem Consumed.append {ws ws' : List (List UInt8)} {k : ℕ} (h : Consumed bufferIndex i s ws j t)
    (h' : Consumed bufferIndex j t ws' k u) (hjk : j ≤ k) :
    Consumed bufferIndex i s (ws ++ ws') k u where
  parse := h.parse.trans h'.parse
  commandNum := h'.commandNum.trans h.commandNum
  argIndex := by rw [h'.argIndex, h.argIndex, List.length_append, Nat.add_assoc]
  argStart := h'.argStart
  behind l hl := (h'.behind l hl).trans (h.behind l (by omega))
  entries a ha := by
    by_cases hlt : a < ws.length
    · rw [List.getElem_append_left hlt]
      exact h.entries a hlt
    · rw [List.length_append] at ha
      have hentry := h'.entries (a - ws.length) (by omega)
      rw [← h.finish, h.commandNum, h.argIndex,
        show s.argIndex + ws.length + (a - ws.length) = s.argIndex + a by omega] at hentry
      rw [List.getElem_append_right (by omega)]
      exact hentry

theorem consumed_word {w : List UInt8} {x : UInt8} (hword : IsWord w) (hx : x = SPACE ∨ x = 0)
    (hw : Spells s.buf i (w ++ [x])) (hi : i + w.length ≤ bufferIndex)
    (hbuf : bufferIndex ≤ MAX_INPUT_LENGTH) (hstart : s.argStart = i)
    (hroom : s.argIndex + 1 < MAX_INPUT_LENGTH - 1) :
    Consumed bufferIndex i s [w] (i + w.length + 1) (s.endArgument (i + w.length)) where
  parse := parseFrom_word hword hx hw hi hroom
  commandNum := rfl
  argIndex := rfl
  argStart := rfl
  behind k hk := Function.update_of_ne (by omega) _ _
  entries a ha := by
    obtain rfl : a = 0 := by simpa using ha
    rw [Parsing.finish, parseFrom_word hword hx hw hi hroom]
    have hkeeps := finish_keeps bufferIndex (i + w.length + 1) (s.endArgument (i + w.length))
    refine hkeeps.entry (.inr ⟨rfl, Nat.lt_succ_self _⟩) (show _ = some i from ?_) (Nat.lt_succ_self _)
      (by omega) (spells_append.mpr ⟨?_, fun j hj => ?_⟩)
    · simp [endArgument, setArgument, setZero, hstart]
    · exact (spells_append.mp hw).1.congr fun j hj => Function.update_of_ne (by omega) _ _
    · obtain rfl : j = 0 := by simpa using hj
      exact Function.update_self _ _ _

def renderCommand (ws : List (List UInt8)) : List UInt8 :=
  [SPACE].intercalate ws

def render (cmds : List (List (List UInt8))) : List UInt8 :=
  [SPACE, PIPE, SPACE].intercalate (cmds.map renderCommand)

theorem renderCommand_cons (w : List UInt8) {ws : List (List UInt8)} (hne : ws ≠ []) :
    renderCommand (w :: ws) = w ++ [SPACE] ++ renderCommand ws := by
  rw [renderCommand, List.intercalate_cons_of_ne_nil hne]
  rfl

theorem render_cons (ws : List (List UInt8)) {cmds : List (List (List UInt8))} (hne : cmds ≠ []) :
    render (ws :: cmds) = renderCommand ws ++ [SPACE] ++ [PIPE, SPACE] ++ render cmds := by
  rw [render, List.map_cons, List.intercalate_cons_of_ne_nil (by simpa using hne),
    List.append_assoc _ [SPACE]]
  rfl

theorem consumed_words {ws : List (List UInt8)} {x : UInt8} (hne : ws ≠ [])
    (hwords : ∀ w ∈ ws, IsWord w) (hx : x = SPACE ∨ x = 0)
    (htext : Spells s.buf i (renderCommand ws ++ [x]))
    (hi : i + (renderCommand ws).length ≤ bufferIndex) (hbuf : bufferIndex ≤ MAX_INPUT_LENGTH)
    (hstart : s.argStart = i) (hfew : 2 * s.argIndex ≤ i) :
    ∃ t, Consumed bufferIndex i s ws (i + (renderCommand ws).length + 1) t := by
  induction ws generalizing i s with
  | nil => exact absurd rfl hne
  | cons w ws ih =>
    have hword := hwords w List.mem_cons_self
    have hpos := List.length_pos_of_ne_nil hword.1
    have hmax : MAX_INPUT_LENGTH = 255 := rfl
    by_cases hlast : ws = []
    · subst hlast
      have hrender : renderCommand [w] = w := List.intercalate_singleton
      rw [hrender] at htext hi ⊢
      exact ⟨_, consumed_word hword hx htext hi hbuf hstart (by omega)⟩
    · rw [renderCommand_cons w hlast] at htext hi ⊢
      rw [List.append_assoc] at htext
      obtain ⟨hw, hrest⟩ := spells_append.mp htext
      simp only [List.length_append, List.length_singleton] at hi hrest ⊢
      have hfirst := consumed_word hword (.inl rfl) hw (by omega) hbuf hstart (by omega)
      obtain ⟨t, ht⟩ := ih hlast (fun w hw => hwords w (List.mem_cons_of_mem _ hw))
        (s := s.endArgument (i + w.length)) (i := i + w.length + 1)
        (hrest.congr fun k hk => hfirst.behind _ (by omega)) (by omega) rfl
        (by rw [hfirst.argIndex, List.length_singleton]; omega)
      refine ⟨t, ?_⟩
      rw [show i + (w.length + 1 + (renderCommand ws).length) + 1 =
        i + w.length + 1 + (renderCommand ws).length + 1 by omega]
      exact hfirst.append ht (by omega)

theorem setArgument_self (place : Option ℕ) :
    (s.setArgument place).arguments s.commandNum s.argIndex = place := by
  simp only [setArgument, Function.update_self]

theorem finish_render {cmds : List (List (List UInt8))} (hne : cmds ≠ [])
    (hcmds : ∀ ws ∈ cmds, ws ≠ [] ∧ ∀ w ∈ ws, IsWord w)
    (htext : Spells s.buf i (render cmds ++ [0])) (hi : i + (render cmds).length = bufferIndex) (hbuf : bufferIndex ≤ MAX_INPUT_LENGTH)
    (hstart : s.argStart = i) (hindex : s.argIndex = 0) :
    (s.finish bufferIndex i).commandNum = s.commandNum + (cmds.length - 1) ∧
    ∀ c (hc : c < cmds.length), (s.finish bufferIndex i).Holds (s.commandNum + c) cmds[c] := by
  induction cmds generalizing i s with
  | nil => exact absurd rfl hne
  | cons ws cmds ih =>
    obtain ⟨hws, hwords⟩ := hcmds ws List.mem_cons_self
    by_cases hlast : cmds = []
    · subst hlast
      have hrender : render [ws] = renderCommand ws := List.intercalate_singleton
      rw [hrender] at htext hi
      obtain ⟨t, ht⟩ := consumed_words hws hwords (.inr rfl) htext (by omega) hbuf hstart (by omega)
      have hend : s.finish bufferIndex i = t.setArgument none := by
        rw [ht.finish, finish, parseFrom_of_lt (by omega)]
      refine ⟨by rw [hend]; exact ht.commandNum, fun c hc => ?_⟩
      obtain rfl : c = 0 := by simpa using hc
      refine ⟨fun a ha => by simpa [hindex] using ht.entries a ha, ?_⟩
      have hnull := setArgument_self (s := t) none
      rw [ht.commandNum, ht.argIndex, hindex, Nat.zero_add] at hnull
      rw [hend]
      exact hnull
    · rw [render_cons ws hlast] at htext hi
      rw [List.append_assoc, List.append_assoc] at htext
      obtain ⟨htext, hrest⟩ := spells_append.mp htext
      obtain ⟨hpipe, hrest⟩ := spells_append.mp hrest
      simp only [List.length_append, List.length_cons, List.length_nil] at hi hpipe hrest
      obtain ⟨t, ht⟩ := consumed_words hws hwords (.inl rfl) htext (by omega) hbuf hstart (by omega)
      have hround : t.round (i + (renderCommand ws).length + 1) =
          (t.endCommand, i + (renderCommand ws).length + 1 + 1) := by
        have hchar : t.buf (i + (renderCommand ws).length + 1) = PIPE :=
          (ht.behind _ le_rfl).trans (hpipe 0 (by simp))
        rcases round_cases t (i + (renderCommand ws).length + 1) with ⟨h, -⟩ | ⟨-, h⟩ | ⟨-, -, h, -⟩
        · exact absurd (hchar ▸ h) (by decide)
        · exact h
        · exact absurd hchar h
      have hroom : t.endCommand.argIndex < MAX_INPUT_LENGTH - 1 := Nat.zero_lt_succ _
      have hend : s.finish bufferIndex i =
          t.endCommand.finish bufferIndex (i + (renderCommand ws).length + 1 + 1 + 1) := by
        rw [ht.finish, finish, finish, parseFrom_of_round (by omega) hround hroom]
      have hmore := List.length_pos_of_ne_nil hlast
      have hnext : t.endCommand.commandNum = s.commandNum + 1 := congrArg (· + 1) ht.commandNum
      obtain ⟨hnum, hholds⟩ := ih hlast (fun ws h => hcmds ws (List.mem_cons_of_mem _ h))
        (s := t.endCommand) (i := i + (renderCommand ws).length + 1 + 1 + 1)
        (hrest.congr fun k hk => ht.behind _ (by omega)) (by omega)
        (congrArg (· + 2) ht.argStart) rfl
      rw [← hend, hnext] at hnum hholds
      refine ⟨by rw [hnum, List.length_cons]; omega, fun c hc => ?_⟩
      cases c with
      | zero =>
        refine ⟨fun a ha => by simpa [hindex] using ht.entries a ha, ?_⟩
        -- the null pointer of this command is kept by the commands behind it
        have hkeeps := finish_keeps bufferIndex (i + (renderCommand ws).length + 1 + 1 + 1)
          t.endCommand
        have hnull := setArgument_self (s := t) none
        rw [ht.commandNum, ht.argIndex, hindex, Nat.zero_add] at hnull
        rw [hend]
        exact (hkeeps.arguments _ _ (.inl (by rw [hnext]; exact Nat.lt_succ_self _))).trans hnull
      | succ c =>
        have hc' := hholds c (by simpa using hc)
        rwa [Nat.add_assoc, Nat.add_comm 1 c] at hc'

/-! ## Where the loop stores -/

/-- All stores so far are to the rows up to the current one; the next pointer is to no place behind
`i`. -/
structure Sound (i : ℕ) (s : Parsing) : Prop where
  stores : ∀ st ∈ s.stores, st.Within s.commandNum
  argStart : s.argStart ≤ i
  argIndex : s.argIndex ≤ MAX_INPUT_LENGTH - 1

theorem Sound.setArgument (h : s.Sound i) (place : Option ℕ)
    (hplace : ∀ p, place = some p → p ≤ MAX_INPUT_LENGTH) : (s.setArgument place).Sound i where
  stores := List.forall_mem_append.mpr ⟨h.stores, List.forall_mem_singleton.mpr
    ⟨le_rfl, h.argIndex.trans (Nat.sub_le _ _), hplace⟩⟩
  argStart := h.argStart
  argIndex := h.argIndex

theorem Sound.setZero (h : s.Sound i) (hi : i ≤ MAX_INPUT_LENGTH) : (s.setZero i).Sound i where
  stores := List.forall_mem_append.mpr ⟨h.stores, List.forall_mem_singleton.mpr hi⟩
  argStart := h.argStart
  argIndex := h.argIndex

theorem Sound.round (h : s.Sound i) (hi : i ≤ MAX_INPUT_LENGTH)
    (hroom : s.argIndex < MAX_INPUT_LENGTH - 1) : (s.round i).1.Sound ((s.round i).2 + 1) := by
  rcases round_cases s i with ⟨-, hround⟩ | ⟨-, hround⟩ | ⟨-, -, -, hround⟩
  · have hstored := (h.setZero hi).setArgument (some s.argStart)
      fun p hp => Option.some.inj hp ▸ h.argStart.trans hi
    rw [hround]
    exact ⟨hstored.stores, le_rfl, hroom⟩
  · have hstored := h.setArgument none (by simp)
    rw [hround]
    exact ⟨fun st hst => (hstored.stores st hst).mono (Nat.le_succ _),
      Nat.add_le_add_right h.argStart 2, Nat.zero_le _⟩
  · rw [hround]
    exact ⟨h.stores, Nat.le_succ_of_le h.argStart, h.argIndex⟩

theorem parseFrom_sound (hbuf : bufferIndex ≤ MAX_INPUT_LENGTH) (h : s.Sound i)
    (hroom : s.argIndex < MAX_INPUT_LENGTH - 1) : ∃ j, (s.parseFrom bufferIndex i).Sound j := by
  fun_induction parseFrom with
  | case1 i s _ => exact ⟨i, h⟩
  | case2 i s hi _ => exact ⟨_, h.round (by omega) hroom⟩
  | case3 i s hi hnext ih => exact ih (h.round (by omega) hroom) (Nat.not_le.mp hnext)

theorem stores_inside_iff (hbuf : bufferIndex ≤ MAX_INPUT_LENGTH) (h : s.Sound i)
    (hroom : s.argIndex < MAX_INPUT_LENGTH - 1) :
    (∀ st ∈ (s.finish bufferIndex i).stores, st.Inside) ↔
      (s.finish bufferIndex i).commandNum ≤ 9 := by
  obtain ⟨j, hsound⟩ := parseFrom_sound hbuf h hroom
  have hfinish := hsound.setArgument none (by simp)
  constructor
  · intro hinside
    exact (hinside _ (List.mem_append_right _ (List.mem_singleton_self _))).1
  · intro hnine st hst
    exact (hfinish.stores st hst).mono hnine

end Parsing

open Parsing

theorem parse_inside_iff_commandNum (buf : Buffer) (arguments : ℕ → ℕ → Option ℕ) {bufferIndex : ℕ}
    (hbuf : bufferIndex ≤ MAX_INPUT_LENGTH) :
    (∀ st ∈ (parse buf arguments bufferIndex).stores, st.Inside) ↔
      (parse buf arguments bufferIndex).commandNum ≤ 9 :=
  stores_inside_iff hbuf ⟨by simp, le_rfl, Nat.zero_le _⟩ (Nat.zero_lt_succ _)

section Render

variable {cmds : List (List (List UInt8))} {buf : Buffer}

theorem parse_commands (hne : cmds ≠ []) (hcmds : ∀ ws ∈ cmds, ws ≠ [] ∧ ∀ w ∈ ws, IsWord w)
    (hlen : (render cmds).length ≤ MAX_INPUT_LENGTH) (hbuf : Spells buf 0 (render cmds ++ [0]))
    (arguments : ℕ → ℕ → Option ℕ) :
    let s := parse buf arguments (render cmds).length
    s.commandNum = cmds.length - 1 ∧ ∀ c (hc : c < cmds.length), s.Holds c cmds[c] := by
  have hparsed := finish_render (s := ⟨buf, arguments, 0, 0, 0, []⟩) (i := 0) hne hcmds hbuf
    (Nat.zero_add _) hlen rfl rfl
  simp only [Nat.zero_add] at hparsed
  exact hparsed

/-- A line that is made of commands is cut into them, in the arrays. -/
theorem parse_render (hpos : 1 ≤ cmds.length) (hten : cmds.length ≤ 10)
    (hcmds : ∀ ws ∈ cmds, ws ≠ [] ∧ ∀ w ∈ ws, IsWord w)
    (hlen : (render cmds).length ≤ MAX_INPUT_LENGTH) (hbuf : Spells buf 0 (render cmds ++ [0]))
    (arguments : ℕ → ℕ → Option ℕ) :
    let s := parse buf arguments (render cmds).length
    s.commandNum = cmds.length - 1 ∧ (∀ c (hc : c < cmds.length), s.Holds c cmds[c]) ∧
      ∀ st ∈ s.stores, st.Inside := by
  have hne : cmds ≠ [] := List.ne_nil_of_length_pos hpos
  obtain ⟨hnum, hholds⟩ := parse_commands hne hcmds hlen hbuf arguments
  refine ⟨hnum, hholds, (parse_inside_iff_commandNum buf arguments hlen).mpr ?_⟩
  exact hnum.trans_le (by omega)

end Render

def lsWc : List (List (List UInt8)) :=
  [[[108, 115], [45, 108]], [[119, 99]]]

def lineBuf (line : List UInt8) : Buffer := fun i => (line ++ [0]).getD i 0

theorem lineBuf_spells (line : List UInt8) : Spells (lineBuf line) 0 (line ++ [0]) :=
  spells_iff_getD.mpr fun i _ => by rw [lineBuf, Nat.zero_add]

theorem lsWc_parsed :
    (parse (lineBuf (render lsWc)) (fun _ _ => none) 10).Holds 0 [[108, 115], [45, 108]] ∧
    (parse (lineBuf (render lsWc)) (fun _ _ => none) 10).Holds 1 [[119, 99]] := by
  obtain ⟨-, hholds, -⟩ := parse_render (show 1 ≤ lsWc.length by decide) (by decide) (by decide)
    (by decide) (lineBuf_spells _) fun _ _ => none
  exact ⟨hholds 0 (by decide), hholds 1 (by decide)⟩

end OsShell.Prompt
