import OsShell.Exec.Buffers

/-!
# What `execl` and `execvp` leave allocated

The two system calls from the caller's stack to the end of `SYS::exec`, as far as they
allocate. What `SYS::exec` stores in its buffers stays inside them and is left out.
The file system is a parameter: `find` hands out a reference that may own a block of
the heap, and reading a file uses the heap as well.
-/

namespace OsShell.Exec

open Bytes FirstFit KernelHeap Runs

/-- A reference to a node, and the block that goes with it. The root has none of its own. -/
structure Reference where
  file : File
  node : Option ℤ

structure FileSystem where
  find : List UInt8 → Kernel → Kernel × Except Halt (Option Reference)
  read : File → ℕ → ℕ → Kernel → Kernel × Except Halt Unit

def delete (p : ℤ) (k : Kernel) : Kernel × Except Halt Unit :=
  match free k.state.heap p with
  | none => (k, .error (.panic "freeing free block"))
  | some h => (⟨⟨h, k.state.theLock, k.state.live.erase p⟩, k.writes⟩, .ok ())

def Reference.drop (ref : Reference) (k : Kernel) : Kernel × Except Halt Unit :=
  match ref.node with
  | none => (k, .ok ())
  | some p => delete p k

inductive Ending
  | returned (code : ℤ)
  | user (entry : ℕ)
deriving DecidableEq

namespace OnHeap

variable (fs : FileSystem)

def segment (file : File) (phdr : ProgramHeader) (k : Kernel) : Kernel × Except Halt Unit :=
  if phdr.type = 1 then
    andThen (fs.read file phdr.offset phdr.filesz k) fun _ k =>
      (k, (file.readAll phdr.offset phdr.filesz).2.map fun _ => ())
  else (k, .ok ())

def segments (file : File) (phentsize : ℕ) : ℕ → ℕ → Kernel → Kernel × Except Halt Unit
  | 0, _, k => (k, .ok ())
  | n + 1, hoff, k =>
    andThen (fs.read file hoff 32 k) fun _ k =>
      match file.readThing hoff 32 with
      | .error e => (k, .error e)
      | .ok bits =>
        andThen (segment fs file ⟨bits⟩ k)
          fun _ k => segments file phentsize n ((hoff + phentsize) % 2 ^ 32) k

def load (file : File) (k : Kernel) : Kernel × Except Halt ℕ :=
  andThen (fs.read file 0 52 k) fun _ k =>
    match file.readThing 0 52 with
    | .error e => (k, .error e)
    | .ok bits =>
      let hdr : ElfHeader := ⟨bits⟩
      andThen (segments fs file hdr.phentsize hdr.phnum hdr.phoff k) fun _ k => (k, .ok hdr.entry)

def elems : List (List UInt8) → Kernel → Kernel × Except Halt Unit
  | [], k => (k, .ok ())
  | s :: argv, k =>
    andThen (elems argv k) fun _ k =>
      let size := s.length + 1
      let size := size + (4 - size % 4)
      andThen (new size k) fun _ k => (k, .ok ())

def leave (ref : Reference) (code : ℤ) (k : Kernel) : Kernel × Except Halt Ending :=
  andThen (ref.drop k) fun _ k => (k, .ok (.returned code))

def exec (path : List UInt8) (argv : List (List UInt8)) (k : Kernel) :
    Kernel × Except Halt Ending :=
  andThen (fs.find path k) fun found k =>
    match found with
    | none => (k, .ok (.returned (-1)))
    | some ref =>
      if ref.file.type ≠ 8 then leave ref (-2) k
      else
        andThen (fs.read ref.file 0 52 k) fun _ k =>
          match ref.file.readThing 0 52 with
          | .error e => (k, .error e)
          | .ok bits =>
            match (ElfHeader.mk bits).check with
            | some code => leave ref code k
            | none =>
              andThen (new (arrayBytes argv.length) k) fun _ k =>
                andThen (elems argv k) fun _ k =>
                  andThen (load fs ref.file k) fun e k =>
                    andThen (ref.drop k) fun _ k => (k, .ok (.user e))

end OnHeap

/-- The ending as `SYS.exec` has it, which leaves out the heap. -/
def Ending.Matches : Ending → SYS.Result → Prop
  | .returned code, result => result = .returned code
  | .user e, result => ∃ sp, result = .user e sp

namespace OnHeap

theorem exists_of_andThen {α β : Type} {r : Kernel × Except Halt α}
    {f : α → Kernel → Kernel × Except Halt β} {k : Kernel} {b : β}
    (h : andThen r f = (k, .ok b)) : ∃ k₁ a, r = (k₁, .ok a) ∧ f a k₁ = (k, .ok b) := by
  obtain ⟨k₁, e | a⟩ := r
  · cases (Prod.mk.inj h).2
  · exact ⟨k₁, a, rfl, h⟩

variable {fs : FileSystem} {k k' : Kernel}

theorem segment_ok {file : File} {phdr : ProgramHeader}
    (h : segment fs file phdr k = (k', .ok ())) : (ELF.segment file phdr).2 = .ok () := by
  unfold segment at h
  unfold ELF.segment
  split_ifs with htype
  · rw [if_pos htype] at h
    obtain ⟨k₁, _, -, h⟩ := exists_of_andThen h
    have hread := (Prod.mk.inj h).2
    generalize file.readAll phdr.offset phdr.filesz = r at hread
    obtain ⟨bytes, e | cnt⟩ := r
    · cases hread
    · rfl
  · rfl

theorem andThen_ok_of_ok {α β : Type} {w : Writing α} {f : α → Writing β} {a : α} {b : β}
    (hw : w.2 = .ok a) (hf : (f a).2 = .ok b) : (w.andThen f).2 = .ok b := by
  obtain ⟨stores, e | a'⟩ := w
  · cases hw
  · cases hw
    exact hf

theorem segments_ok {file : File} {phentsize n hoff : ℕ}
    (h : segments fs file phentsize n hoff k = (k', .ok ())) :
    (ELF.segments file phentsize n hoff).2 = .ok () := by
  induction n generalizing hoff k with
  | zero => rfl
  | succ n ih =>
    rw [segments] at h
    obtain ⟨k₁, _, -, h⟩ := exists_of_andThen h
    rw [ELF.segments]
    cases hbits : file.readThing hoff 32 with
    | error e =>
      rw [hbits] at h
      cases (Prod.mk.inj h).2
    | ok bits =>
      rw [hbits] at h
      obtain ⟨k₂, _, hsegment, h⟩ := exists_of_andThen h
      exact andThen_ok_of_ok (segment_ok hsegment) (ih h)

theorem load_ok {file : File} {e : ℕ} (h : load fs file k = (k', .ok e)) :
    (ELF.load file).2 = .ok e := by
  rw [load] at h
  obtain ⟨k₁, _, -, h⟩ := exists_of_andThen h
  rw [ELF.load]
  cases hbits : file.readThing 0 52 with
  | error e =>
    rw [hbits] at h
    cases (Prod.mk.inj h).2
  | ok bits =>
    rw [hbits] at h
    obtain ⟨k₂, _, hsegments, h⟩ := exists_of_andThen h
    obtain rfl := Except.ok.inj (Prod.mk.inj h).2
    simp only [segments_ok hsegments]
    rfl

theorem exec_matches {path : List UInt8} {argv : List (List UInt8)} {ending : Ending}
    (h : exec fs path argv k = (k', .ok ending)) (c : Vmm.Config) (strings : List CString)
    (mem : Buffer) : ∃ k₁ found, fs.find path k = (k₁, .ok found) ∧
      ending.Matches (SYS.exec c (found.map Reference.file) strings mem).2 := by
  rw [exec] at h
  obtain ⟨k₁, found, hfind, h⟩ := exists_of_andThen h
  refine ⟨k₁, found, hfind, ?_⟩
  cases found with
  | none =>
    obtain rfl := Except.ok.inj (Prod.mk.inj h).2
    exact rfl
  | some ref =>
    have hleave : ∀ {code k₁}, leave ref code k₁ = (k', .ok ending) → ending = .returned code := by
      intro code k₁ h
      obtain ⟨_, _, -, h⟩ := exists_of_andThen h
      exact (Except.ok.inj (Prod.mk.inj h).2).symm
    rw [Option.map_some, SYS.exec]
    simp only at h ⊢
    split at h
    case isTrue htype =>
      rw [if_pos htype, hleave h]
      exact rfl
    case isFalse htype =>
      rw [if_neg htype]
      obtain ⟨k₂, _, -, h⟩ := exists_of_andThen h
      cases hbits : ref.file.readThing 0 52 with
      | error e =>
        rw [hbits] at h
        cases (Prod.mk.inj h).2
      | ok bits =>
        rw [hbits] at h
        simp only at h ⊢
        cases hcheck : (ElfHeader.mk bits).check with
        | some code =>
          rw [hcheck] at h
          rw [hleave h]
          exact rfl
        | none =>
          rw [hcheck] at h
          obtain ⟨k₃, _, -, h⟩ := exists_of_andThen h
          obtain ⟨k₄, _, -, h⟩ := exists_of_andThen h
          obtain ⟨k₅, e, hload, h⟩ := exists_of_andThen h
          obtain ⟨_, _, -, h⟩ := exists_of_andThen h
          obtain rfl := Except.ok.inj (Prod.mk.inj h).2
          simp only [load_ok hload]
          exact ⟨_, rfl⟩

end OnHeap

section Memory

variable (mem : Buffer)

/-- A handler whose arguments begin at word `first` of the stack, up to its call of `SYS::exec`. -/
def requestFrom (first userEsp : ℕ) : Option Request := do
  let count ← countWords mem (userEsp + 4 * first)
  if wordAt mem (userEsp + 4 * (first + count - 1)) = 0 then
    return .refused
  let argvMod ← strings mem (userEsp + 4 * first)
  let path ← cstring mem (wordAt mem (userEsp + 4 * 1))
  return .exec path argvMod

def execl (userEsp : ℕ) : Option Request := requestFrom mem 2 userEsp

def Call.request : Call → ℕ → Option Request
  | .execl => Exec.execl mem
  | .execvp => Exec.execvp mem

/-- The whole call; it goes on for ever where a string or an array has no end. -/
def sysHandler (fs : FileSystem) (call : Call) (userEsp : ℕ) (k : Kernel) :
    Option (Kernel × Except Halt Ending) :=
  (call.request mem userEsp).map fun req =>
    match req with
    | .refused => (k, .ok (.returned (-1)))
    | .exec path argv =>
      andThen (copyArguments call path argv k) fun _ k => OnHeap.exec fs path argv k

end Memory

/-! ## What stays allocated -/

/-- Where the part returns, everything on the list is still allocated, as often as it is listed. -/
def Keeps {α : Type} (live : List ℤ) (r : Kernel × Except Halt α) : Prop :=
  ∀ k a, r = (k, .ok a) → live.Subperm k.state.live

structure FileSystem.Careful (fs : FileSystem) : Prop where
  none : ∀ path k k', fs.find path k = (k', .ok none) → k.state.live.Subperm k'.state.live
  some : ∀ path k k' ref, fs.find path k = (k', .ok (some ref)) →
    (ref.node.toList ++ k.state.live).Subperm k'.state.live
  read : ∀ file offset n k, Keeps k.state.live (fs.read file offset n k)

section Keeps

variable {α β : Type} {live : List ℤ} {k : Kernel}

theorem keeps_ok (h : live.Subperm k.state.live) (a : α) : Keeps live (k, .ok a) := by
  intro k' b hok
  obtain ⟨rfl, -⟩ := Prod.mk.inj hok
  exact h

theorem keeps_error (k : Kernel) (e : Halt) :
    Keeps live ((k, .error e) : Kernel × Except Halt α) := by
  intro k' a hok
  cases (Prod.mk.inj hok).2

theorem Keeps.andThen {live' : List ℤ} {r : Kernel × Except Halt α}
    {f : α → Kernel → Kernel × Except Halt β} (hr : Keeps live' r)
    (hf : ∀ k a, live'.Subperm k.state.live → Keeps live (f a k)) :
    Keeps live (Exec.andThen r f) := by
  obtain ⟨k, e | a⟩ := r
  · exact keeps_error k e
  · exact hf k a (hr k a rfl)

theorem keeps_new (h : live.Subperm k.state.live) (bytes : ℕ) : Keeps live (new bytes k) := by
  intro k' p hok
  simp only [new] at hok
  split at hok
  case h_1 => cases (Prod.mk.inj hok).2
  case h_2 =>
    obtain ⟨rfl, -⟩ := Prod.mk.inj hok
    simp only
    split
    · exact h
    · exact h.trans (List.sublist_cons_self _ _).subperm

theorem keeps_drop {ref : Reference} (h : (ref.node.toList ++ live).Subperm k.state.live) :
    Keeps live (ref.drop k) := by
  rw [Reference.drop]
  cases hnode : ref.node with
  | none =>
    rw [hnode] at h
    exact keeps_ok h ()
  | some p =>
    rw [hnode] at h
    simp only [delete]
    split
    · exact keeps_error _ _
    · refine keeps_ok ?_ ()
      simpa using h.erase p

theorem keeps_copyString (h : live.Subperm k.state.live) (s : List UInt8) :
    Keeps live (copyString s k) :=
  (keeps_new h _).andThen fun _ _ hk => keeps_ok (by exact hk) _

theorem keeps_copyStrings (h : live.Subperm k.state.live) (argvMod : ℤ) (count i : ℕ)
    (argv : List (List UInt8)) : Keeps live (copyStrings argvMod count i argv k) := by
  induction argv generalizing i k with
  | nil => exact keeps_ok h ()
  | cons s argv ih =>
    rw [copyStrings]
    exact (keeps_copyString h s).andThen fun _ _ hk => ih (by exact hk) (i + 1)

theorem keeps_copyPath (h : live.Subperm k.state.live) (path : List UInt8) :
    Keeps live (copyPath path k) :=
  (keeps_new h _).andThen fun _ _ hk => keeps_ok (by exact hk) _

theorem terminate_live (k : Kernel) (argvMod : ℤ) (count : ℕ) (call : Call) :
    (k.terminate argvMod count call).state.live = k.state.live := by
  cases call <;> rfl

theorem keeps_elems (h : live.Subperm k.state.live) (argv : List (List UInt8)) :
    Keeps live (OnHeap.elems argv k) := by
  induction argv with
  | nil => exact keeps_ok h ()
  | cons s argv ih =>
    rw [OnHeap.elems]
    exact ih.andThen fun _ _ hk => (keeps_new hk _).andThen fun _ _ hk => keeps_ok hk ()

variable {fs : FileSystem}

theorem FileSystem.Careful.keeps_read (hfs : fs.Careful) (h : live.Subperm k.state.live) (file : File)
    (offset n : ℕ) : Keeps live (fs.read file offset n k) :=
  fun k' a hok => h.trans (hfs.read file offset n k k' a hok)

theorem FileSystem.Careful.keeps_segment (hfs : fs.Careful) (h : live.Subperm k.state.live)
    (file : File) (phdr : ProgramHeader) : Keeps live (OnHeap.segment fs file phdr k) := by
  unfold OnHeap.segment
  split_ifs
  · refine (hfs.keeps_read h file _ _).andThen fun k _ hk => ?_
    cases (file.readAll phdr.offset phdr.filesz).2 with
    | error e => exact keeps_error k e
    | ok cnt => exact keeps_ok hk ()
  · exact keeps_ok h ()

theorem FileSystem.Careful.keeps_segments (hfs : fs.Careful) (h : live.Subperm k.state.live)
    (file : File) (phentsize n hoff : ℕ) :
    Keeps live (OnHeap.segments fs file phentsize n hoff k) := by
  induction n generalizing hoff k with
  | zero => exact keeps_ok h ()
  | succ n ih =>
    rw [OnHeap.segments]
    refine (hfs.keeps_read h file hoff 32).andThen fun k _ hk => ?_
    split
    · exact keeps_error _ _
    · exact (hfs.keeps_segment hk _ _).andThen fun k _ hk => ih hk _

theorem FileSystem.Careful.keeps_load (hfs : fs.Careful) (h : live.Subperm k.state.live)
    (file : File) : Keeps live (OnHeap.load fs file k) := by
  rw [OnHeap.load]
  refine (hfs.keeps_read h file 0 52).andThen fun k _ hk => ?_
  split
  · exact keeps_error _ _
  · exact (hfs.keeps_segments hk _ _ _ _).andThen fun k _ hk => keeps_ok hk _

theorem keeps_leave {ref : Reference} (h : (ref.node.toList ++ live).Subperm k.state.live)
    (code : ℤ) : Keeps live (OnHeap.leave ref code k) :=
  (keeps_drop h).andThen fun _ _ hk => keeps_ok hk _

theorem FileSystem.Careful.keeps_exec (hfs : fs.Careful) (h : live.Subperm k.state.live)
    (path : List UInt8) (argv : List (List UInt8)) :
    Keeps live (OnHeap.exec fs path argv k) := by
  rw [OnHeap.exec]
  rcases hfind : fs.find path k with ⟨k₁, e | _ | ref⟩
  · exact keeps_error _ _
  · exact keeps_ok (h.trans (hfs.none path k k₁ hfind)) _
  -- from here on the block of the reference is kept as well
  have hheld : (ref.node.toList ++ live).Subperm k₁.state.live :=
    ((List.subperm_append_left _).mpr h).trans (hfs.some path k k₁ ref hfind)
  rw [andThen_ok]
  simp only
  split
  · exact keeps_leave hheld _
  refine (hfs.keeps_read hheld _ _ _).andThen fun k _ hk => ?_
  split
  · exact keeps_error _ _
  split
  · exact keeps_leave hk _
  refine (keeps_new hk _).andThen fun k _ hk => (keeps_elems hk _).andThen fun k _ hk =>
    (hfs.keeps_load hk _).andThen fun k _ hk => (keeps_drop hk).andThen fun k _ hk => ?_
  exact keeps_ok hk _

end Keeps

/-! ## The calls -/

section Calls

variable {mem : Buffer} {fs : FileSystem} {call : Call} {userEsp : ℕ}

theorem request_eq (mem : Buffer) (call : Call) (userEsp : ℕ) :
    call.request mem userEsp = requestFrom mem call.first userEsp := by
  cases call <;> rfl

theorem request_refused_iff : call.request mem userEsp = some .refused ↔
    wordAt mem (userEsp + 4 * call.first) = 0 ∧ wordAt mem (userEsp + 4 * (call.first - 1)) = 0 := by
  rw [request_eq]
  generalize call.first = first
  constructor
  · intro h
    simp only [requestFrom, Option.bind_eq_bind, Option.bind_eq_some_iff] at h
    obtain ⟨count, hcount, h⟩ := h
    obtain ⟨-, hstop, hbefore⟩ := findFrom_spec hcount
    split at h
    case isFalse =>
      simp only [Option.bind_eq_some_iff] at h
      obtain ⟨argv, -, path, -, h⟩ := h
      nomatch h
    case isTrue hlast =>
      cases count with
      | zero => exact ⟨by simpa using hstop, hlast⟩
      | succ count =>
        -- the last word before the end is an argument
        have hne := hbefore count (Nat.zero_le _) (Nat.lt_succ_self _)
        have haddr : userEsp + 4 * (first + (count + 1) - 1) = userEsp + 4 * first + 4 * count := by
          omega
        rw [haddr] at hlast
        simp [hlast] at hne
  · rintro ⟨hzero, hpath⟩
    have hcount : countWords mem (userEsp + 4 * first) = some 0 := by
      cases hc : countWords mem (userEsp + 4 * first) with
      | none => exact absurd hzero (countWords_eq_none.mp hc 0)
      | some n =>
        obtain ⟨-, -, hbefore⟩ := findFrom_spec hc
        cases n with
        | zero => rfl
        | succ n => simpa [hzero] using hbefore 0 le_rfl (Nat.succ_pos n)
    simp [requestFrom, hcount, hpath]

theorem new_array {k k' : Kernel} (h : Reachable Init Step k.state) {n : ℕ} (hn : n ≠ 0) {p : ℤ}
    (hok : new (arrayBytes n) k = (k', .ok p)) :
    k'.state.live = p :: k.state.live ∧ p ∉ k.state.live := by
  have hmod : arrayBytes n % 2 ^ 32 ≠ 0 := by
    rw [arrayBytes]
    split <;> omega
  have hnext : Reachable Init Step k'.state := by
    have := new_reachable h (arrayBytes n)
    rwa [hok] at this
  have hlive : k'.state.live = p :: k.state.live := by
    simp only [new] at hok
    split at hok
    case h_1 => cases (Prod.mk.inj hok).2
    case h_2 =>
      obtain ⟨rfl, hp⟩ := Prod.mk.inj hok
      split at hp
      case isTrue => cases hp
      case isFalse hne =>
        obtain rfl := Except.ok.inj hp
        exact if_neg (not_or.mpr ⟨hmod, hne⟩)
  obtain ⟨bs, fl, I⟩ := inv_of_reachable hnext
  have hnodup := (List.nodup_cons.mp I.nodup).2
  rw [hlive] at hnodup
  exact ⟨hlive, (List.nodup_cons.mp hnodup).1⟩

theorem copyArguments_keeps {s : KernelHeap.State} (h : Reachable Init Step s) (hfs : fs.Careful)
    {path : List UInt8} {argv : List (List UInt8)} {k : Kernel} {ending : Ending}
    (hrun : (andThen (copyArguments call path argv ⟨s, []⟩) fun _ k =>
      OnHeap.exec fs path argv k) = (k, .ok ending)) :
    ∃ p ∉ s.live, p ∈ k.state.live := by
  rw [copyArguments] at hrun
  rcases hnew : new (arrayBytes (argv.length + 1)) ⟨s, []⟩ with ⟨k₁, e | p⟩
  · rw [hnew] at hrun
    cases (Prod.mk.inj hrun).2
  obtain ⟨hlive, hfresh⟩ := new_array h (Nat.succ_ne_zero _) hnew
  rw [hnew, andThen_ok] at hrun
  have hcopy : Keeps [p] (andThen (copyStrings p argv.length 0 argv k₁) fun _ k =>
      copyPath path (k.terminate p argv.length call)) := by
    have hp : [p].Subperm k₁.state.live := by simp [hlive]
    refine (keeps_copyStrings hp _ _ _ _).andThen fun k _ hk => keeps_copyPath ?_ _
    rwa [terminate_live]
  have hall := hcopy.andThen fun k _ hk => hfs.keeps_exec hk path argv
  exact ⟨p, hfresh, by simpa using hall k ending hrun⟩

/-- Nothing is left allocated if and only if the call is refused at once: there are no arguments,
and the word in front of them is zero. -/
theorem sysHandler_frees_iff {s : KernelHeap.State} (h : Reachable Init Step s) (hfs : fs.Careful)
    {k : Kernel} {ending : Ending}
    (hrun : sysHandler mem fs call userEsp ⟨s, []⟩ = some (k, .ok ending)) :
    (∀ p, p ∈ k.state.live ↔ p ∈ s.live) ↔
      wordAt mem (userEsp + 4 * call.first) = 0 ∧
        wordAt mem (userEsp + 4 * (call.first - 1)) = 0 := by
  rw [← request_refused_iff]
  simp only [sysHandler, Option.map_eq_some_iff] at hrun
  obtain ⟨req, hreq, hrun⟩ := hrun
  rw [hreq]
  cases req with
  | refused =>
    obtain ⟨rfl, -⟩ := Prod.mk.inj hrun
    exact iff_of_true (fun _ => Iff.rfl) rfl
  | exec path argv =>
    refine iff_of_false (fun hsame => ?_) nofun
    obtain ⟨p, hfresh, hp⟩ := copyArguments_keeps h hfs hrun
    exact hfresh ((hsame p).mp hp)

end Calls

def noFiles : FileSystem where
  find _ k := (k, .ok none)
  read _ _ _ k := (k, .ok ())

theorem noFiles_careful : noFiles.Careful where
  none _ k k' h := by
    obtain ⟨rfl, -⟩ := Prod.mk.inj h
    exact .refl _
  some _ k k' ref h := by cases (Prod.mk.inj h).2
  read _ _ _ k := keeps_ok (.refl _) ()

/-- The stack of `execl("a", "a", 0)`. -/
def execlMemory : Buffer :=
  [⟨0x90000004, word 0x90000100 ++ word 0x90000100⟩, ⟨0x90000100, [97]⟩].foldl Store.apply fun _ => 0

/-- A command that is not found leaves three blocks allocated. -/
theorem unknownCommand_leaks : ∃ s k, Reachable Init Step s ∧ s.live = [] ∧
    sysHandler execlMemory noFiles .execl 0x90000000 ⟨s, []⟩ = some (k, .ok (.returned (-1))) ∧
    k.state.live.length = 3 ∧ ¬ ∀ p, p ∈ k.state.live ↔ p ∈ s.live := by
  obtain ⟨h, lock, hr, hs⟩ := smallHeap_reachable
  have hrun : ((heapInit 0x100000 200 fun _ => 0).bind fun r =>
      (sysHandler execlMemory noFiles .execl 0x90000000 ⟨⟨r.1, r.2, []⟩, []⟩).map fun q =>
        (q.2, q.1.state.live.length)) = some (.ok (.returned (-1)), 3) := by decide +kernel
  rw [hr, Option.bind_some, Option.map_eq_some_iff] at hrun
  obtain ⟨⟨k, result⟩, hcall, hk⟩ := hrun
  simp only [Prod.mk.injEq] at hk
  obtain ⟨rfl, hlen⟩ := hk
  refine ⟨_, k, hs, rfl, hcall, hlen, fun hsame => ?_⟩
  obtain ⟨p, hp⟩ := List.exists_mem_of_length_pos (hlen ▸ Nat.succ_pos 2 : 0 < k.state.live.length)
  exact absurd ((hsame p).mp hp) List.not_mem_nil

/-- The same call as the theorem has it. -/
theorem unknownCommand_frees_iff : ∃ s k, s.live = [] ∧
    sysHandler execlMemory noFiles .execl 0x90000000 ⟨s, []⟩ = some (k, .ok (.returned (-1))) ∧
    ((∀ p, p ∈ k.state.live ↔ p ∈ s.live) ↔ False) := by
  obtain ⟨h, lock, hr, hs⟩ := smallHeap_reachable
  have hrun : ((heapInit 0x100000 200 fun _ => 0).bind fun r =>
      (sysHandler execlMemory noFiles .execl 0x90000000 ⟨⟨r.1, r.2, []⟩, []⟩).map Prod.snd) =
        some (.ok (.returned (-1))) := by decide +kernel
  rw [hr, Option.bind_some, Option.map_eq_some_iff] at hrun
  obtain ⟨⟨k, result⟩, hcall, rfl⟩ := hrun
  have hword : ¬ (wordAt execlMemory (0x90000000 + 4 * Call.execl.first) = 0 ∧
      wordAt execlMemory (0x90000000 + 4 * (Call.execl.first - 1)) = 0) := by decide +kernel
  exact ⟨_, k, rfl, hcall, (sysHandler_frees_iff hs noFiles_careful hcall).trans
    (iff_false_intro hword)⟩

end OsShell.Exec
