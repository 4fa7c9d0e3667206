import OsShell.Library.Bytes

/-!
# Reading a line

The two functions with which a program reads a line from the terminal. Each takes one
character at a time into an array, and `read_input_echo` also writes to the terminal. The
index is an `int`, so that positions in the array are integers. What has been written is
seen through `Screen`, where positions count from the end of the prompt.
-/

namespace OsShell.Programs

open Bytes

def enter : UInt8 := 13
def backspace : UInt8 := 127
def tab : UInt8 := 9

structure Editor where
  buf : ℤ → UInt8
  bufferIndex : ℤ
  printed : List UInt8

section Code

-- what `handle_tab` writes, from the array and the index
variable (tabText : (ℤ → UInt8) → ℤ → List UInt8) (bufSize : ℤ)

def Editor.pressEcho (e : Editor) (c : UInt8) : Editor :=
  if c = backspace then
    if e.bufferIndex ≠ 0 then
      { e with bufferIndex := e.bufferIndex - 1, printed := e.printed ++ [8, 32, 8] }
    else e
  else if c = tab then
    let buf := Function.update e.buf e.bufferIndex 0
    { e with buf, printed := e.printed ++ tabText buf e.bufferIndex }
  else if e.bufferIndex < bufSize - 1 then
    { buf := Function.update e.buf e.bufferIndex c
      bufferIndex := e.bufferIndex + 1
      printed := e.printed ++ [c] }
  else e

def Editor.pressSilent (e : Editor) (c : UInt8) : Editor :=
  if c = backspace then
    if e.bufferIndex ≠ 0 then { e with bufferIndex := e.bufferIndex - 1 } else e
  else if c = tab then
    -- without a zero behind the text
    { e with printed := e.printed ++ tabText e.buf e.bufferIndex ++
        chars ("\nbuffer index: " ++ toString e.bufferIndex ++ "\n") }
  else if e.bufferIndex < bufSize - 1 then
    { e with buf := Function.update e.buf e.bufferIndex c, bufferIndex := e.bufferIndex + 1 }
  else e

/-- The loop, on the characters that `read` gives; `none` while it waits for one more. -/
def Editor.readInput (press : Editor → UInt8 → Editor) : List UInt8 → Editor → Option Editor
  | [], _ => none
  | c :: keys, e =>
    if c = enter then some { e with buf := Function.update e.buf e.bufferIndex 0 }
    else readInput press keys (press e c)

def Editor.start (buf : ℤ → UInt8) : Editor := ⟨buf, 0, []⟩

def readInputEcho (buf : ℤ → UInt8) (keys : List UInt8) : Option Editor :=
  Editor.readInput (Editor.pressEcho tabText bufSize) keys (.start buf)

def readInputSilent (buf : ℤ → UInt8) (keys : List UInt8) : Option Editor :=
  Editor.readInput (Editor.pressSilent tabText bufSize) keys (.start buf)

end Code

/-- A key that is neither `enter` nor `tab` nor another control character. -/
def Typed (c : UInt8) : Prop := c = backspace ∨ 32 ≤ c

instance (c : UInt8) : Decidable (Typed c) := inferInstanceAs (Decidable (_ ∨ _))

/-- What a key does to a line of at most `max` characters. -/
def edit (max : ℤ) (text : List UInt8) (c : UInt8) : List UInt8 :=
  if c = backspace then text.dropLast else if text.length < max then text ++ [c] else text

structure Editor.Holds (e : Editor) (bufSize : ℤ) (text : List UInt8) : Prop where
  index : e.bufferIndex = text.length
  fits : e.bufferIndex ≤ bufSize - 1
  spells : Spells (fun i : ℕ => e.buf i) 0 text

/-! ## The terminal -/

/-- A line of the terminal and the place of the cursor. -/
structure Screen where
  cells : ℤ → UInt8
  cursor : ℤ

/-- A backspace goes one cell back, and another character takes the cell under the cursor. -/
def Screen.put (s : Screen) (c : UInt8) : Screen :=
  if c = 8 then { s with cursor := s.cursor - 1 }
  else ⟨Function.update s.cells s.cursor c, s.cursor + 1⟩

/-- The prompt, the first `n` characters of the array, and blanks from the cursor on. -/
def Screen.line (prompt buf : ℤ → UInt8) (n : ℤ) : Screen :=
  ⟨fun i => if i < 0 then prompt i else if i < n then buf i else 32, n⟩

def Editor.screen (e : Editor) (prompt : ℤ → UInt8) : Screen :=
  e.printed.foldl Screen.put ⟨fun i => if i < 0 then prompt i else 32, 0⟩

/-- The line of the terminal has the text that the array has before the index, and no other. -/
def Editor.Shown (e : Editor) (prompt : ℤ → UInt8) : Prop :=
  e.screen prompt = .line prompt e.buf e.bufferIndex

section Keys

variable (tabText : (ℤ → UInt8) → ℤ → List UInt8) {bufSize n : ℤ} {prompt buf : ℤ → UInt8}
  {e : Editor} {text keys pressed : List UInt8} {c : UInt8}

theorem Screen.line_put (hn : 0 ≤ n) (hc : c ≠ 8) :
    (line prompt buf n).put c = line prompt (Function.update buf n c) (n + 1) := by
  rw [put, if_neg hc]
  simp only [line, Screen.mk.injEq, and_true]
  funext i
  rcases lt_trichotomy i n with hlt | rfl | hlt
  · rw [Function.update_of_ne hlt.ne, Function.update_of_ne hlt.ne, if_pos hlt,
      if_pos (by omega : i < n + 1)]
  · rw [Function.update_self, Function.update_self, if_neg (by omega), if_pos (by omega)]
  · rw [Function.update_of_ne hlt.ne', if_neg (by omega), if_neg (by omega), if_neg (by omega),
      if_neg (by omega)]

theorem Screen.line_erase (hn : 0 < n) :
    [8, 32, 8].foldl put (line prompt buf n) = line prompt buf (n - 1) := by
  have hback : (line prompt buf n).put 8 = ⟨(line prompt buf n).cells, n - 1⟩ := rfl
  rw [List.foldl_cons, hback, List.foldl_cons, put, if_neg (by decide), List.foldl_cons, put,
    if_pos rfl, List.foldl_nil]
  simp only [line, Screen.mk.injEq, add_sub_cancel_right, and_true]
  funext i
  rcases lt_trichotomy i (n - 1) with hlt | rfl | hlt
  · rw [Function.update_of_ne hlt.ne, if_pos hlt, if_pos (by omega : i < n)]
  · rw [Function.update_self, if_neg (by omega), if_neg (by omega)]
  · rw [Function.update_of_ne hlt.ne', if_neg (by omega), if_neg (by omega), if_neg (by omega),
      if_neg (by omega)]

/-! ## One key -/

theorem Editor.Holds.nonneg (h : e.Holds bufSize text) : 0 ≤ e.bufferIndex := by
  rw [h.index]
  exact Int.natCast_nonneg _

theorem Editor.Holds.length_le (h : e.Holds bufSize text) : (text.length : ℤ) ≤ bufSize - 1 :=
  h.index ▸ h.fits

theorem Editor.Holds.eq_nil_iff (h : e.Holds bufSize text) : e.bufferIndex = 0 ↔ text = [] := by
  rw [h.index, Int.natCast_eq_zero, List.length_eq_zero_iff]

theorem Editor.Holds.erase (h : e.Holds bufSize text) (hne : e.bufferIndex ≠ 0)
    (printed : List UInt8) :
    Holds ⟨e.buf, e.bufferIndex - 1, printed⟩ bufSize text.dropLast where
  index := by
    have hpos := List.length_pos_of_ne_nil (mt h.eq_nil_iff.mpr hne)
    have hindex := h.index
    rw [List.length_dropLast]
    change e.bufferIndex - 1 = _
    omega
  fits := by
    have hfits := h.fits
    change e.bufferIndex - 1 ≤ bufSize - 1
    omega
  spells := by
    intro i hi
    rw [List.length_dropLast] at hi
    rw [List.getElem_dropLast]
    exact h.spells i (by omega)

theorem Editor.Holds.push (h : e.Holds bufSize text) (hlt : e.bufferIndex < bufSize - 1) (c : UInt8)
    (printed : List UInt8) :
    Holds ⟨Function.update e.buf e.bufferIndex c, e.bufferIndex + 1, printed⟩ bufSize
      (text ++ [c]) where
  index := by
    rw [List.length_append, List.length_singleton, h.index]
    rfl
  fits := by
    change e.bufferIndex + 1 ≤ bufSize - 1
    omega
  spells := by
    have hindex := h.index
    refine spells_append.mpr ⟨h.spells.congr fun i hi => ?_, fun i hi => ?_⟩
    · exact Function.update_of_ne (by omega) _ _
    · obtain rfl : i = 0 := by simpa using hi
      simp [hindex]

theorem Typed.ne_tab (hc : Typed c) : c ≠ tab := by
  rintro rfl
  exact absurd hc (by decide)

theorem Typed.ne_enter (hc : Typed c) : c ≠ enter := by
  rintro rfl
  exact absurd hc (by decide)

theorem Typed.ne_eight (hc : Typed c) : c ≠ 8 := by
  rintro rfl
  exact absurd hc (by decide)

theorem Typed.ne_zero (hc : Typed c) : c ≠ 0 := by
  rintro rfl
  exact absurd hc (by decide)

theorem Editor.Holds.pressEcho (h : e.Holds bufSize text) (hc : Typed c) :
    (e.pressEcho tabText bufSize c).Holds bufSize (edit (bufSize - 1) text c) := by
  rw [Editor.pressEcho, edit, if_neg hc.ne_tab, ← h.index]
  by_cases hback : c = backspace
  · rw [if_pos hback, if_pos hback]
    by_cases hzero : e.bufferIndex = 0
    · obtain rfl := h.eq_nil_iff.mp hzero
      rw [if_neg (not_not_intro hzero)]
      exact h
    · rw [if_pos hzero]
      exact h.erase hzero _
  · rw [if_neg hback, if_neg hback]
    by_cases hlt : e.bufferIndex < bufSize - 1
    · rw [if_pos hlt, if_pos hlt]
      exact h.push hlt c _
    · rwa [if_neg hlt, if_neg hlt]

theorem Editor.pressSilent_eq (e : Editor) (hc : Typed c) : e.pressSilent tabText bufSize c =
    { e.pressEcho tabText bufSize c with printed := e.printed } := by
  rw [Editor.pressSilent, Editor.pressEcho, if_neg hc.ne_tab, if_neg hc.ne_tab]
  split_ifs <;> rfl

theorem Editor.Holds.pressSilent (h : e.Holds bufSize text) (hc : Typed c) :
    (e.pressSilent tabText bufSize c).Holds bufSize (edit (bufSize - 1) text c) := by
  have hecho := h.pressEcho tabText hc
  rw [e.pressSilent_eq tabText hc]
  exact ⟨hecho.index, hecho.fits, hecho.spells⟩

theorem Editor.screen_append (s : List UInt8) (buf : ℤ → UInt8) (n : ℤ) :
    Editor.screen ⟨buf, n, e.printed ++ s⟩ prompt = s.foldl Screen.put (e.screen prompt) :=
  List.foldl_append

theorem Editor.Holds.shown_pressEcho (h : e.Holds bufSize text) (hshown : e.Shown prompt)
    (hc : Typed c) : (e.pressEcho tabText bufSize c).Shown prompt := by
  have hnonneg := h.nonneg
  rw [Editor.pressEcho, if_neg hc.ne_tab]
  split_ifs with hback hne hlt
  · rw [Shown, screen_append, hshown, Screen.line_erase (by omega)]
  · exact hshown
  · rw [Shown, screen_append, hshown]
    exact Screen.line_put hnonneg hc.ne_eight
  · exact hshown

/-! ## The whole line -/

theorem Editor.start_holds (hsize : 1 ≤ bufSize) (buf : ℤ → UInt8) :
    (start buf).Holds bufSize [] where
  index := rfl
  fits := by
    change 0 ≤ bufSize - 1
    omega
  spells := fun i hi => absurd hi (Nat.not_lt_zero i)

theorem Editor.start_shown (prompt buf : ℤ → UInt8) : (start buf).Shown prompt := by
  have hcells : (start buf).screen prompt = ⟨fun i => if i < 0 then prompt i else 32, 0⟩ := rfl
  rw [Shown, hcells, Screen.line, Screen.mk.injEq]
  refine ⟨funext fun i => ?_, rfl⟩
  change (if i < 0 then prompt i else 32) = if i < 0 then prompt i else if i < 0 then buf i else 32
  split
  · rfl
  · rfl

theorem Editor.Holds.foldl {press : Editor → UInt8 → Editor}
    (hpress : ∀ e text c, e.Holds bufSize text → Typed c →
      (press e c).Holds bufSize (edit (bufSize - 1) text c))
    (h : e.Holds bufSize text) (hkeys : ∀ c ∈ keys, Typed c) :
    (keys.foldl press e).Holds bufSize (keys.foldl (edit (bufSize - 1)) text) := by
  induction keys generalizing e text with
  | nil => exact h
  | cons c keys ih =>
    have hc := hpress e text c h (hkeys c List.mem_cons_self)
    exact ih hc fun c hc => hkeys c (List.mem_cons_of_mem _ hc)

theorem Editor.Holds.shown_foldl (h : e.Holds bufSize text) (hshown : e.Shown prompt)
    (hkeys : ∀ c ∈ keys, Typed c) :
    (keys.foldl (Editor.pressEcho tabText bufSize) e).Shown prompt := by
  induction keys generalizing e text with
  | nil => exact hshown
  | cons c keys ih =>
    have hc := hkeys c List.mem_cons_self
    exact ih (h.pressEcho tabText hc) (h.shown_pressEcho tabText hshown hc) fun c hc =>
      hkeys c (List.mem_cons_of_mem _ hc)

theorem Editor.readInput_append {press : Editor → UInt8 → Editor}
    (hpressed : ∀ c ∈ pressed, Typed c) (rest : List UInt8) (e : Editor) :
    readInput press (pressed ++ rest) e = readInput press rest (pressed.foldl press e) := by
  induction pressed generalizing e with
  | nil => rfl
  | cons c pressed ih =>
    have hc := hpressed c List.mem_cons_self
    rw [List.cons_append, readInput, if_neg hc.ne_enter, List.foldl_cons]
    exact ih (fun c hc => hpressed c (List.mem_cons_of_mem _ hc)) (press e c)

theorem zero_notMem_edit (h : 0 ∉ text) (hc : Typed c) (max : ℤ) : 0 ∉ edit max text c := by
  rw [edit]
  split_ifs
  · exact fun hmem => h (List.mem_of_mem_dropLast hmem)
  · rw [List.mem_append, List.mem_singleton, not_or]
    exact ⟨h, hc.ne_zero.symm⟩
  · exact h

theorem zero_notMem_foldl_edit (hkeys : ∀ c ∈ keys, Typed c) (max : ℤ) :
    0 ∉ keys.foldl (edit max) [] := by
  refine List.foldlRecOn (motive := fun text => 0 ∉ text) keys (edit max) List.not_mem_nil
    fun text h c hc => ?_
  exact zero_notMem_edit h (hkeys c hc) max

theorem Editor.Holds.readInput_enter (h : e.Holds bufSize text) (press : Editor → UInt8 → Editor) :
    ∃ e', readInput press [enter] e = some e' ∧ e'.bufferIndex = text.length ∧
      Spells (fun i : ℕ => e'.buf i) 0 (text ++ [0]) := by
  have hindex := h.index
  refine ⟨_, if_pos rfl, hindex, spells_append.mpr ⟨h.spells.congr fun i hi => ?_, fun i hi => ?_⟩⟩
  · exact Function.update_of_ne (by omega) _ _
  · obtain rfl : i = 0 := by simpa using hi
    simp [hindex]

/-- Both functions read the line that has been typed. While `read_input_echo` does so, its index
stays inside the array, and the terminal has what the array has. -/
theorem read_input_correct (hsize : 1 ≤ bufSize) (hkeys : ∀ c ∈ keys, Typed c)
    (prompt buf buf' : ℤ → UInt8) :
    let text := keys.foldl (edit (bufSize - 1)) []
    (∀ pressed rest, pressed ++ rest = keys →
      let e := pressed.foldl (Editor.pressEcho tabText bufSize) (.start buf)
      readInputEcho tabText bufSize buf (keys ++ [enter]) =
          Editor.readInput (Editor.pressEcho tabText bufSize) (rest ++ [enter]) e ∧
        0 ≤ e.bufferIndex ∧ e.bufferIndex ≤ bufSize - 1 ∧ e.Shown prompt) ∧
    (text.length : ℤ) ≤ bufSize - 1 ∧ 0 ∉ text ∧
    (∃ e, readInputEcho tabText bufSize buf (keys ++ [enter]) = some e ∧
      e.bufferIndex = text.length ∧ Spells (fun i : ℕ => e.buf i) 0 (text ++ [0])) ∧
    ∃ e, readInputSilent tabText bufSize buf' (keys ++ [enter]) = some e ∧
      e.bufferIndex = text.length ∧ Spells (fun i : ℕ => e.buf i) 0 (text ++ [0]) := by
  have hecho := (Editor.start_holds hsize buf).foldl (fun _ _ _ h hc => h.pressEcho tabText hc)
    hkeys
  have hsilent := (Editor.start_holds hsize buf').foldl
    (fun _ _ _ h hc => h.pressSilent tabText hc) hkeys
  refine ⟨?_, hecho.length_le, zero_notMem_foldl_edit hkeys _, ?_, ?_⟩
  · rintro pressed rest rfl
    have hpressed : ∀ c ∈ pressed, Typed c := fun c hc => hkeys c (List.mem_append_left _ hc)
    have hholds := (Editor.start_holds hsize buf).foldl
      (fun _ _ _ h hc => h.pressEcho tabText hc) hpressed
    refine ⟨?_, hholds.nonneg, hholds.fits,
      (Editor.start_holds hsize buf).shown_foldl tabText (Editor.start_shown prompt buf) hpressed⟩
    rw [readInputEcho, List.append_assoc]
    exact Editor.readInput_append hpressed (rest ++ [enter]) _
  · rw [readInputEcho, Editor.readInput_append hkeys]
    exact hecho.readInput_enter _
  · rw [readInputSilent, Editor.readInput_append hkeys]
    exact hsilent.readInput_enter _

end Keys

/-- Into an array of three characters: `a`, two backspaces, `b`, `c` and `d`. -/
theorem read_input_bc :
    (∃ e, readInputEcho (fun _ _ => []) 3 (fun _ => 7) [97, 127, 127, 98, 99, 100, 13] = some e ∧
      e.bufferIndex = 2 ∧ Spells (fun i : ℕ => e.buf i) 0 [98, 99, 0]) ∧
    ∃ e, readInputSilent (fun _ _ => []) 3 (fun _ => 8) [97, 127, 127, 98, 99, 100, 13] = some e ∧
      e.bufferIndex = 2 ∧ Spells (fun i : ℕ => e.buf i) 0 [98, 99, 0] :=
  (read_input_correct (fun _ _ => []) (show (1 : ℤ) ≤ 3 by decide)
    (show ∀ c ∈ ([97, 127, 127, 98, 99, 100] : List UInt8), Typed c by decide +kernel) (fun _ => 32)
    (fun _ => 7) fun _ => 8).2.2.2

end OsShell.Programs
