import OsShell.Machine.Traps

/-!
# System calls

A user program calls the kernel by `int $48` with a number in `%eax`, from a routine
that its own compiled code calls like any other function. Behind the gate the number
and the frame are handed to `sysHandler`, which finds in the frame where the program
goes on and its stack, with the arguments on it. `fork` comes back twice: in the child
through `switchToUser`, on a copy of the parent's stack.
-/

namespace OsShell.Machine

open AddressSpace

def sysHandler_ (sysHandler back : Word) : List Instr :=
  [.push (.reg .esp),
   .push (.reg .eax),
   .call sysHandler back,
   .add (.imm 8) (.reg .esp),
   .iret]

/-- `userSS` and `userCS` are words in memory. -/
def switchToUser (userSS userCS : Word) : List Instr :=
  [.mov (.mem 4 .esp) (.reg .ecx),
   .mov (.mem 8 .esp) (.reg .ebx),
   .mov (.mem 12 .esp) (.reg .eax),
   .push (.at (.abs userSS)),
   .push (.reg .ebx),
   .pushf,
   .or (.imm 0x200) (.mem 0 .esp),
   .push (.at (.abs userCS)),
   .push (.reg .ecx),
   .iret]

/-! ## The routines of a user program -/

namespace Stub

def systemCall (number after : Word) : List Instr :=
  [.mov (.imm number) (.reg .eax), .int 48 after, .ret]

def exit := systemCall 0

def write := systemCall 1

def forkSave : List Instr :=
  [.push (.reg .ebx),
   .push (.reg .esi),
   .push (.reg .edi),
   .push (.reg .ebp),
   .mov (.imm 2) (.reg .eax)]

def forkRestore : List Instr :=
  [.pop .ebp,
   .pop .edi,
   .pop .esi,
   .pop .ebx]

/-- What is behind `int`, where the child begins. -/
def forkReturn : List Instr := forkRestore ++ [.ret]

def fork (after : Word) : List Instr := forkSave ++ .int 48 after :: forkReturn

def sem := systemCall 3

def up := systemCall 4

def down := systemCall 5

def close := systemCall 6

def shutdown := systemCall 7

def wait := systemCall 8

def execl := systemCall 9

def «open» := systemCall 10

def len := systemCall 11

def read := systemCall 12

def seek := systemCall 13

def execvp := systemCall 14

def opendir := systemCall 15

def readdir := systemCall 16

def dup2 := systemCall 17

def pipe := systemCall 18

def pwd := systemCall 19

def cd := systemCall 20

end Stub

variable {ext user kernel : Functions} {g : Gate} {esp0 ss0 f back number after : Word}
  {s t d e k r u v : State} {kept : Set Word}

/-! ## Behind the gate -/

def sysEntry (d : State) (back : Word) : State := ((d.push (d.reg .esp)).push (d.reg .eax)).push back

theorem sysEntry_top : (sysEntry d back).top = back := load_store _ _ _

theorem sysHandler_ends : Ends ext (sysHandler_ f back) d t ↔
    ∃ r, ext f (sysEntry d back) = some r ∧ r.eip = back ∧ (r.release 8).iret = t := by
  have hstraight : ∀ instr ∈ [Instr.push (.reg .esp), .push (.reg .eax), .call f back,
      .add (.imm 8) (.reg .esp)], instr.Straight := by simp [Instr.Straight]
  have hcall : ∀ {v}, steps ext [.call f back, .add (.imm 8) (.reg .esp)]
      ((d.push (d.reg .esp)).push (d.reg .eax)) = some v ↔ ∃ r, ext f (sysEntry d back) = some r ∧
        r.eip = back ∧ steps ext [.add (.imm 8) (.reg .esp)] r = some v := steps_call rfl
  rw [show sysHandler_ f back = [.push (.reg .esp), .push (.reg .eax), .call f back,
    .add (.imm 8) (.reg .esp)] ++ [.iret] from rfl, ends_iret hstraight]
  constructor
  · rintro ⟨v, hv, rfl⟩
    obtain ⟨r, hr, heip, hrest⟩ := hcall.mp hv
    exact ⟨r, hr, heip, congrArg State.iret (Option.some.inj hrest)⟩
  · rintro ⟨r, hr, heip, rfl⟩
    exact ⟨_, hcall.mpr ⟨r, hr, heip, rfl⟩, rfl⟩

theorem sysEntry_esp : (sysEntry d back).reg .esp = d.reg .esp - 12 := by
  simp only [sysEntry, State.push_esp]
  ring

theorem sysEntry_mem : (sysEntry d back).mem = store (store (store d.mem
    (d.reg .esp - 12 + 8) (d.reg .esp)) (d.reg .esp - 12 + 4) (d.reg .eax)) (d.reg .esp - 12 + 0)
    back := by
  simp only [sysEntry, State.push_mem, State.push_esp]
  rw [show d.reg .esp - 4 - 4 - 4 = d.reg .esp - 12 + 0 by ring,
    show d.reg .esp - 4 - 4 = d.reg .esp - 12 + 4 by ring,
    show d.reg .esp - 4 = d.reg .esp - 12 + 8 by ring]

theorem sysEntry_of_notMem {x : Word} (hx : x ∉ span (d.reg .esp - 12) 12) :
    (sysEntry d back).mem x = d.mem x := by
  have hword : ∀ i : Word, i.toNat + 4 ≤ 12 → x ∉ span (d.reg .esp - 12 + i) 4 :=
    fun i hi hin => hx (span_subset hi hin)
  rw [sysEntry_mem, store_of_notMem (hword _ (by decide)),
    store_of_notMem (hword _ (by decide)), store_of_notMem (hword _ (by decide))]

/-- What `sysHandler(eax, frame)` is given by a user program in state `s`. -/
structure SysArguments (s e : State) : Prop where
  eax : load e.mem (e.reg .esp + 4) = s.reg .eax
  /-- `frame[0]` -/
  userPC : load e.mem (load e.mem (e.reg .esp + 8) + 0) = s.eip
  /-- `frame[3]` -/
  userEsp : load e.mem (load e.mem (e.reg .esp + 8) + 12) = s.reg .esp

/-- A program in state `s` is back in state `t` from a call that returned in state `r`. -/
structure SysReturns (s r t : State) : Prop where
  eax : t.reg .eax = r.reg .eax
  esp : t.reg .esp = s.reg .esp
  ebx : t.reg .ebx = s.reg .ebx
  ebp : t.reg .ebp = s.reg .ebp
  esi : t.reg .esi = s.reg .esi
  edi : t.reg .edi = s.reg .edi
  eflags : t.eflags = s.eflags
  eip : t.eip = s.eip
  cs : t.cs = s.cs
  ss : t.ss = s.ss
  mem : t.mem = r.mem

theorem sysArguments (h : g.Inward s) :
    SysArguments s (sysEntry (deliver g esp0 ss0 s) back) := by
  obtain ⟨hesp, -, hmem⟩ := deliver_inward esp0 ss0 h
  have hframe : load (sysEntry (deliver g esp0 ss0 s) back).mem
      ((sysEntry (deliver g esp0 ss0 s) back).reg .esp + 8) = esp0 - 20 := by
    rw [sysEntry_esp, sysEntry_mem, hesp]
    simp (disch := decide) only [load_store_offset, load_store]
  have hword : ∀ i : Word, i.toNat + 4 ≤ 20 → load (sysEntry (deliver g esp0 ss0 s) back).mem
      (esp0 - 20 + i) = load (deliver g esp0 ss0 s).mem (esp0 - 20 + i) := fun i hi =>
    load_congr fun x hx => sysEntry_of_notMem <| by
      rw [hesp]
      exact Set.disjoint_left.mp (disjoint_span (by bv_omega) (by bv_omega)) (span_subset hi hx)
  refine ⟨?_, ?_, ?_⟩
  · rw [sysEntry_esp, sysEntry_mem, hesp]
    simp (disch := decide) only [load_store_offset, load_store]
    exact deliver_reg (by decide)
  · rw [hframe, hword 0 (by decide), hmem]
    exact load_store _ _ _
  · rw [hframe, hword 12 (by decide), hmem]
    simp (disch := decide) only [load_store_offset, load_store]

theorem sysEntry_deliver_mem (h : g.Inward s) {x : Word} (hx : x ∉ span (esp0 - 32) 32) :
    (sysEntry (deliver g esp0 ss0 s) back).mem x = s.mem x := by
  have hesp := (deliver_inward esp0 ss0 h).1
  have hsize : g.frameSize s = 20 := if_pos h
  rw [sysEntry_of_notMem, deliver_mem]
  · rw [hesp, hsize]
    exact fun hin => hx (span_sub_subset (by decide) (by decide) hin)
  · rw [hesp, show esp0 - 20 - 12 = esp0 - 32 by ring]
    exact fun hin => hx (span_mono (by decide) hin)

theorem sysHandler_returns (hg : g.selector &&& 3 = 0) (hin : g.Inward s)
    (hcs : s.cs &&& 0xffff = s.cs) (hss : s.ss &&& 0xffff = s.ss)
    (hframe : span (esp0 - 20) 20 ⊆ kept)
    (hcall : ext f (sysEntry (deliver g esp0 ss0 s) back) = some r)
    (hcdecl : Cdecl kept (sysEntry (deliver g esp0 ss0 s) back) r) :
    ∃ t, Ends ext (sysHandler_ f back) (deliver g esp0 ss0 s) t ∧ SysReturns s r t := by
  obtain ⟨hesp, -, -⟩ := deliver_inward esp0 ss0 hin
  have hsize : g.frameSize s = 20 := if_pos hin
  have hback : (r.release 8).reg .esp = (deliver g esp0 ss0 s).reg .esp := by
    change r.reg .esp + 8 = _
    rw [hcdecl.esp, sysEntry_esp]
    ring
  obtain ⟨hreg, heflags, heip, hcs', hss'⟩ := iret_deliver hg hcs hss hback hcdecl.cs hcdecl.ss <| by
    rw [hback, hesp, hsize]
    intro x hx
    refine (hcdecl.mem x (hframe hx)).trans (sysEntry_of_notMem ?_)
    rw [hesp]
    exact Set.disjoint_left.mp (disjoint_span (by bv_omega) (by bv_omega)) hx
  have hentry : ∀ q, q ≠ .esp → (sysEntry (deliver g esp0 ss0 s) back).reg q = s.reg q :=
    fun q hq => by
      simp only [sysEntry, State.push_reg _ _ hq]
      exact deliver_reg hq
  have hkeeps : ∀ q, q ≠ .esp → (r.release 8).iret.reg q = r.reg q := fun q hq => by
    rw [hreg q, if_neg hq]
    exact Function.update_of_ne hq _ _
  exact ⟨_, sysHandler_ends.mpr ⟨r, hcall, hcdecl.eip.trans sysEntry_top, rfl⟩,
    { eax := hkeeps _ (by decide)
      esp := hreg .esp
      ebx := (hkeeps _ (by decide)).trans (hcdecl.ebx.trans (hentry _ (by decide)))
      ebp := (hkeeps _ (by decide)).trans (hcdecl.ebp.trans (hentry _ (by decide)))
      esi := (hkeeps _ (by decide)).trans (hcdecl.esi.trans (hentry _ (by decide)))
      edi := (hkeeps _ (by decide)).trans (hcdecl.edi.trans (hentry _ (by decide)))
      eflags := heflags
      eip := heip
      cs := hcs'
      ss := hss'
      mem := iret_mem _ }⟩

/-! ## Calls of the user program's routines -/

/-- The program behind `mov $number,%eax`, with `%eip` behind the `int` that follows. -/
def State.interrupts (s : State) (number after : Word) : State :=
  { s.set .eax number with eip := after }

theorem systemCall_ends : Ends ext (Stub.systemCall number after) s t ↔
    ∃ u, ext 48 (s.interrupts number after) = some u ∧ u.eip = after ∧ u.ret = t := by
  have hstraight : ∀ instr ∈ [Instr.mov (.imm number) (.reg .eax), .int 48 after],
      instr.Straight := by simp [Instr.Straight]
  have hint : ∀ {v}, steps ext [.int 48 after] (s.set .eax number) = some v ↔
      ∃ u, ext 48 (s.interrupts number after) = some u ∧ u.eip = after ∧ steps ext [] u = some v :=
    steps_comesBack rfl
  rw [show Stub.systemCall number after = [.mov (.imm number) (.reg .eax), .int 48 after] ++ [.ret]
    from rfl, ends_ret hstraight]
  constructor
  · rintro ⟨v, hv, rfl⟩
    obtain ⟨u, hu, heip, hrest⟩ := hint.mp hv
    exact ⟨u, hu, heip, congrArg State.ret (Option.some.inj hrest)⟩
  · rintro ⟨u, hu, heip, rfl⟩
    exact ⟨u, hint.mpr ⟨u, hu, heip, rfl⟩, rfl⟩

/-- To its caller the routine is a function of the user program that returns what `sysHandler` does:
that gets the number, and the caller's arguments on the stack that it finds in the frame. -/
theorem systemCall_returns (hg : g.selector &&& 3 = 0) (hin : g.Inward s)
    (hcs : s.cs &&& 0xffff = s.cs) (hss : s.ss &&& 0xffff = s.ss)
    (hint : ∀ d t, user 48 d = some t ↔ Ends kernel (sysHandler_ f back) (deliver g esp0 ss0 d) t)
    (hframe : span (esp0 - 20) 20 ⊆ kept)
    (hreturn : span (s.reg .esp) 4 ⊆ kept \ span (esp0 - 32) 32)
    (he : sysEntry (deliver g esp0 ss0 (s.interrupts number after)) back = e)
    (hcall : kernel f e = some r) (hcdecl : Cdecl kept e r) :
    SysArguments (s.interrupts number after) e ∧ (∀ x ∉ span (esp0 - 32) 32, e.mem x = s.mem x) ∧
    ∃ t, Ends user (Stub.systemCall number after) s t ∧ t.reg .eax = r.reg .eax ∧
      t.eflags = s.eflags ∧ Cdecl (kept \ span (esp0 - 32) 32) s t := by
  subst he
  have hin' : g.Inward (s.interrupts number after) := hin
  obtain ⟨u, hends, hreturns⟩ := sysHandler_returns hg hin' hcs hss hframe hcall hcdecl
  have hmem : ∀ x ∈ kept \ span (esp0 - 32) 32, u.mem x = s.mem x := fun x hx => by
    rw [hreturns.mem, hcdecl.mem x hx.1]
    exact sysEntry_deliver_mem hin' hx.2
  have hesp : u.reg .esp = s.reg .esp := hreturns.esp
  refine ⟨sysArguments hin', fun x hx => sysEntry_deliver_mem hin' hx, u.ret,
    systemCall_ends.mpr ⟨u, (hint _ _).mpr hends, hreturns.eip, rfl⟩, hreturns.eax,
    hreturns.eflags, ?_⟩
  exact
    { eip := by
        change load u.mem (u.reg .esp) = _
        rw [hesp]
        exact load_congr fun x hx => hmem x (hreturn hx)
      esp := congrArg (· + 4) hesp
      ebx := hreturns.ebx
      ebp := hreturns.ebp
      esi := hreturns.esi
      edi := hreturns.edi
      cs := hreturns.cs
      ss := hreturns.ss
      mem := hmem }

def systemCallGate : Gate := ⟨8, 0x100140, false, 3⟩

def answers : Functions := fun _ e => some (writesWord 0x5000 1 42 e)

/-- Where `sysHandler` comes back to, behind the call in `sysHandler_`, is 0x100148. -/
def answered (d : State) : State :=
  writesWord 0x5000 1 42 (sysEntry (deliver systemCallGate 0x9000 24 d) 0x100148)

/-- A program whose calls are answered, unless the answer has overwritten the address to return to. -/
def program : Functions := fun _ d =>
  if (answered d).eip = 0x100148 then some ((answered d).release 8).iret else none

theorem sysEntry_apart {a : Word} (h : g.Inward d) (ha : Disjoint (span (esp0 - 32) 4) (span a 4)) :
    Disjoint (span ((sysEntry (deliver g esp0 ss0 d) back).reg .esp) 4) (span a 4) := by
  rwa [sysEntry_esp, (deliver_inward _ _ h).1, show esp0 - 20 - 12 = esp0 - 32 by ring]

theorem program_ends (d t : State) : program 48 d = some t ↔
    Ends answers (sysHandler_ 0x100400 0x100148) (deliver systemCallGate 0x9000 24 d) t := by
  have hcall : answers 0x100400 (sysEntry (deliver systemCallGate 0x9000 24 d) 0x100148) =
      some (answered d) := rfl
  simp only [sysHandler_ends, hcall, Option.some.injEq, program]
  constructor
  · intro h
    split at h
    · rename_i heip
      exact ⟨_, rfl, heip, Option.some.inj h⟩
    · cases h
  · rintro ⟨r, rfl, heip, rfl⟩
    exact if_pos heip

theorem cdecl_answered (hin : systemCallGate.Inward d) :
    Cdecl (span 0x5000 4)ᶜ (sysEntry (deliver systemCallGate 0x9000 24 d) 0x100148) (answered d) :=
  cdecl_writesWord (sysEntry_apart hin (disjoint_span (by decide) (by decide)))

theorem systemCall_returns_userProgram : ∃ t, Ends program (Stub.write 0x80001239) userProgram t ∧
    t.reg .eax = 42 ∧ t.eip = 0x80000100 := by
  have hin : systemCallGate.Inward (userProgram.interrupts 1 0x80001239) :=
    show systemCallGate.Inward userProgram by decide
  have hreturn : span (userProgram.reg .esp) 4 ⊆ (span 0x5000 4)ᶜ \ span (0x9000 - 32) 32 :=
    fun x hx => ⟨disjoint_compl (disjoint_span (by decide) (by decide)) hx,
      disjoint_compl (disjoint_span (by decide) (by decide)) hx⟩
  obtain ⟨-, -, t, hends, heax, -, hcdecl⟩ := systemCall_returns (by decide) (by decide)
    (by decide) (by decide) program_ends (disjoint_compl (disjoint_span (by decide) (by decide)))
    hreturn rfl rfl (cdecl_answered hin)
  exact ⟨t, hends, heax, hcdecl.eip.trans (load_store _ _ _)⟩

/-! ## Into a user program -/

section SwitchToUser

variable {userSS userCS pc esp eax : Word}

/-- The frame but for the last two words. -/
def userFlags (m : Memory) (top esp eflags : Word) : Memory :=
  let m := store m (top - 4) 19
  let m := store m (top - 4 - 4) esp
  let m := store m (top - 4 - 4 - 4) eflags
  store m (top - 4 - 4 - 4) (eflags ||| 0x200)

def userFrame (m : Memory) (top pc esp eflags : Word) : Memory :=
  let m := store (userFlags m top esp eflags) (top - 4 - 4 - 4 - 4) 35
  store m (top - 4 - 4 - 4 - 4 - 4) pc

def beforeUser (k : State) (pc esp eax : Word) : State :=
  { k with
    reg := fun
      | .ecx => pc
      | .ebx => esp
      | .eax => eax
      | .esp => k.reg .esp - 4 - 4 - 4 - 4 - 4
      | r => k.reg r
    eflags := orFlags k.eflags k.eflags 0x200
    mem := userFrame k.mem (k.reg .esp) pc esp k.eflags }

theorem steps_switchToUser (hpc : load k.mem (k.reg .esp + 4) = pc)
    (hesp : load k.mem (k.reg .esp + 8) = esp) (heax : load k.mem (k.reg .esp + 12) = eax)
    (hss : load k.mem userSS = 19)
    (hcs : load (userFlags k.mem (k.reg .esp) esp k.eflags) userCS = 35) :
    steps ext ((switchToUser userSS userCS).take 9) k = some (beforeUser k pc esp eax) := by
  simp only [userFlags] at hcs
  simp only [switchToUser, List.take_succ_cons, List.take_zero, steps, Instr.exec, State.read,
    State.look, State.write, State.set, State.push, Function.update_self, Function.update_of_ne,
    ne_eq, reduceCtorEq, not_false_eq_true, hpc, hesp, heax, hss, add_zero, load_store, hcs,
    beforeUser, userFrame, userFlags]
  congr 3
  funext r
  cases r <;> rfl

structure EntersUser (k : State) (pc esp eax : Word) (u : State) : Prop where
  eip : u.eip = pc
  esp : u.reg .esp = esp
  eax : u.reg .eax = eax
  cs : u.cs = 35
  ss : u.ss = 19
  eflags : u.eflags = k.eflags ||| 0x200
  cr3 : u.cr3 = k.cr3
  mem : ∀ x ∉ span (k.reg .esp - 20) 20, u.mem x = k.mem x

theorem userFlags_eq (m : Memory) (top esp eflags : Word) :
    userFlags m top esp eflags = store (store (store (store m (top - 20 + 16) 19)
      (top - 20 + 12) esp) (top - 20 + 8) eflags) (top - 20 + 8) (eflags ||| 0x200) := by
  rw [userFlags, show top - 4 - 4 - 4 = top - 20 + 8 by ring, show top - 4 - 4 = top - 20 + 12 by ring,
    show top - 4 = top - 20 + 16 by ring]

theorem userFrame_eq (m : Memory) (top pc esp eflags : Word) :
    userFrame m top pc esp eflags = store (store (userFlags m top esp eflags) (top - 20 + 4) 35)
      (top - 20 + 0) pc := by
  rw [userFrame, show top - 4 - 4 - 4 - 4 - 4 = top - 20 + 0 by ring,
    show top - 4 - 4 - 4 - 4 = top - 20 + 4 by ring]

theorem userFlags_of_notMem {m : Memory} {top eflags x : Word} (hx : x ∉ span (top - 20) 20) :
    userFlags m top esp eflags x = m x := by
  have hword : ∀ i : Word, i.toNat + 4 ≤ 20 → x ∉ span (top - 20 + i) 4 :=
    fun i hi hin => hx (span_subset hi hin)
  rw [userFlags_eq, store_of_notMem (hword _ (by decide)), store_of_notMem (hword _ (by decide)),
    store_of_notMem (hword _ (by decide)), store_of_notMem (hword _ (by decide))]

theorem switchToUser_enters (ext : Functions) (hpc : load k.mem (k.reg .esp + 4) = pc)
    (hesp : load k.mem (k.reg .esp + 8) = esp) (heax : load k.mem (k.reg .esp + 12) = eax)
    (hss : load k.mem userSS = 19) (hcs : load k.mem userCS = 35)
    (hfar : Disjoint (span userCS 4) (span (k.reg .esp - 20) 20)) (hring : k.cpl = 0) :
    ∃ u, Ends ext (switchToUser userSS userCS) k u ∧ EntersUser k pc esp eax u := by
  have hcs' : load (userFlags k.mem (k.reg .esp) esp k.eflags) userCS = 35 := by
    rw [← hcs]
    exact load_congr fun x hx => userFlags_of_notMem (Set.disjoint_left.mp hfar hx)
  have hstraight : ∀ instr ∈ (switchToUser userSS userCS).take 9, instr.Straight := by
    simp [switchToUser, Instr.Straight]
  have hends : Ends ext (switchToUser userSS userCS) k (beforeUser k pc esp eax).iret :=
    (ends_iret hstraight).mpr ⟨_, steps_switchToUser hpc hesp heax hss hcs', rfl⟩
  refine ⟨_, hends, ?_⟩
  obtain ⟨b, hb⟩ : ∃ b, beforeUser k pc esp eax = b := ⟨_, rfl⟩
  have hring' : b.cpl = 0 := by rw [← hb]; exact hring
  have hbesp : b.reg .esp = k.reg .esp - 20 := by
    rw [← hb]
    change k.reg .esp - 4 - 4 - 4 - 4 - 4 = _
    ring
  have hbmem : b.mem = userFrame k.mem (k.reg .esp) pc esp k.eflags := by rw [← hb]; rfl
  have hbeax : b.reg .eax = eax := by rw [← hb]; rfl
  have hbcr3 : b.cr3 = k.cr3 := by rw [← hb]; rfl
  rw [hb]
  have hword : ∀ {i v}, load (userFrame k.mem (k.reg .esp) pc esp k.eflags)
      (k.reg .esp - 20 + i) = v → load b.mem (b.reg .esp + i) = v := fun h => by rwa [hbmem, hbesp]
  have heip : load b.mem (b.reg .esp + 0) = pc := hword <| by
    rw [userFrame_eq]
    exact load_store _ _ _
  have hbcs : load b.mem (b.reg .esp + 4) = 35 := hword <| by
    rw [userFrame_eq]
    simp (disch := decide) only [load_store_offset, load_store]
  have hflags : load b.mem (b.reg .esp + 8) = k.eflags ||| 0x200 := hword <| by
    rw [userFrame_eq, userFlags_eq]
    simp (disch := decide) only [load_store_offset, load_store]
  have huesp : load b.mem (b.reg .esp + 12) = esp := hword <| by
    rw [userFrame_eq, userFlags_eq]
    simp (disch := decide) only [load_store_offset, load_store]
  have hbss : load b.mem (b.reg .esp + 16) = 19 := hword <| by
    rw [userFrame_eq, userFlags_eq]
    simp (disch := decide) only [load_store_offset, load_store]
  have houter : 0 < ((35 : Word) &&& 0xffff &&& 3).toNat := by decide
  rw [State.iret, hring']
  simp only [heip, hbcs, hflags, huesp, hbss, State.cpl, houter, if_true]
  exact
    { eip := rfl
      esp := rfl
      eax := hbeax
      cs := rfl
      ss := rfl
      eflags := rfl
      cr3 := hbcr3
      mem := fun x hx => by
        have hin : ∀ i : Word, i.toNat + 4 ≤ 20 → x ∉ span (k.reg .esp - 20 + i) 4 :=
          fun i hi h => hx (span_subset hi h)
        change b.mem x = _
        rw [hbmem, userFrame_eq, store_of_notMem (hin _ (by decide)),
          store_of_notMem (hin _ (by decide)), userFlags_of_notMem hx] }

end SwitchToUser

/-! ## The two returns of fork -/

def forkMemory (s : State) : Memory :=
  let m := store s.mem (s.reg .esp - 4) (s.reg .ebx)
  let m := store m (s.reg .esp - 4 - 4) (s.reg .esi)
  let m := store m (s.reg .esp - 4 - 4 - 4) (s.reg .edi)
  store m (s.reg .esp - 4 - 4 - 4 - 4) (s.reg .ebp)

/-- The program when it interrupts itself in `fork`. -/
def State.forks (s : State) (after : Word) : State :=
  { s with
    reg := fun
      | .eax => 2
      | .esp => s.reg .esp - 4 - 4 - 4 - 4
      | r => s.reg r
    eip := after
    mem := forkMemory s }

theorem forks_esp : (s.forks after).reg .esp = s.reg .esp - 16 := by
  change s.reg .esp - 4 - 4 - 4 - 4 = _
  ring

theorem forkMemory_eq : forkMemory s = store (store (store (store s.mem (s.reg .esp - 16 + 12)
    (s.reg .ebx)) (s.reg .esp - 16 + 8) (s.reg .esi)) (s.reg .esp - 16 + 4) (s.reg .edi))
    (s.reg .esp - 16 + 0) (s.reg .ebp) := by
  rw [forkMemory, show s.reg .esp - 4 - 4 - 4 - 4 = s.reg .esp - 16 + 0 by ring,
    show s.reg .esp - 4 - 4 - 4 = s.reg .esp - 16 + 4 by ring,
    show s.reg .esp - 4 - 4 = s.reg .esp - 16 + 8 by ring,
    show s.reg .esp - 4 = s.reg .esp - 16 + 12 by ring]

theorem forkMemory_of_notMem {x : Word} (hx : x ∉ span (s.reg .esp - 16) 16) :
    forkMemory s x = s.mem x := by
  have hword : ∀ i : Word, i.toNat + 4 ≤ 16 → x ∉ span (s.reg .esp - 16 + i) 4 :=
    fun i hi hin => hx (span_subset hi hin)
  rw [forkMemory_eq, store_of_notMem (hword _ (by decide)), store_of_notMem (hword _ (by decide)),
    store_of_notMem (hword _ (by decide)), store_of_notMem (hword _ (by decide))]

theorem fork_ends : Ends ext (Stub.fork after) s t ↔ ∃ u, ext 48 (s.forks after) = some u ∧
    u.eip = after ∧ Ends ext Stub.forkReturn u t := by
  have hrestore : ∀ instr ∈ Stub.forkRestore, instr.Straight := by
    simp [Stub.forkRestore, Instr.Straight]
  have hstraight : ∀ instr ∈ Stub.forkSave ++ .int 48 after :: Stub.forkRestore,
      instr.Straight := by simp [Stub.forkSave, Stub.forkRestore, Instr.Straight]
  have hsave : steps ext Stub.forkSave s = some { s.forks after with eip := s.eip } := by
    simp only [Stub.forkSave, steps, Instr.exec, State.read, State.look, State.write, State.set,
      State.push, Function.update_self, Function.update_of_ne, ne_eq, reduceCtorEq,
      not_false_eq_true, State.forks, forkMemory]
    congr 3
    funext r
    cases r <;> rfl
  have hint : ∀ {v}, steps ext (.int 48 after :: Stub.forkRestore)
      { s.forks after with eip := s.eip } = some v ↔ ∃ u, ext 48 (s.forks after) = some u ∧
        u.eip = after ∧ steps ext Stub.forkRestore u = some v := steps_comesBack rfl
  rw [show Stub.fork after = (Stub.forkSave ++ .int 48 after :: Stub.forkRestore) ++ [.ret]
    from rfl, ends_ret hstraight, steps_append, hsave, Option.bind_some]
  simp only [Stub.forkReturn, ends_ret hrestore]
  constructor
  · rintro ⟨v, hv, rfl⟩
    obtain ⟨u, hu, heip, hrest⟩ := hint.mp hv
    exact ⟨u, hu, heip, v, hrest, rfl⟩
  · rintro ⟨u, hu, heip, v, hrest, rfl⟩
    exact ⟨v, hint.mpr ⟨u, hu, heip, hrest⟩, rfl⟩

theorem forkReturn_ends (ext : Functions) (u : State) :
    Ends ext Stub.forkReturn u ((((u.pop .ebp).pop .edi).pop .esi).pop .ebx).ret := by
  have hstraight : ∀ instr ∈ Stub.forkRestore, instr.Straight := by
    simp [Stub.forkRestore, Instr.Straight]
  exact (ends_ret hstraight).mpr ⟨_, rfl, rfl⟩

theorem forkReturn_resumes (ext : Functions) (hesp : u.reg .esp = s.reg .esp - 16)
    (hstack : ∀ x ∈ span (s.reg .esp - 16) 20, u.mem x = forkMemory s x)
    (hcs : u.cs = s.cs) (hss : u.ss = s.ss) (hmem : ∀ x ∈ kept, u.mem x = s.mem x) :
    ∃ v, Ends ext Stub.forkReturn u v ∧ v.reg .eax = u.reg .eax ∧ v.eflags = u.eflags ∧
      Cdecl kept s v := by
  have hword : ∀ i : Word, i.toNat + 4 ≤ 20 →
      load u.mem (s.reg .esp - 16 + i) = load (forkMemory s) (s.reg .esp - 16 + i) := fun i hi =>
    load_congr fun x hx => hstack x (span_subset hi hx)
  refine ⟨_, forkReturn_ends ext u, rfl, rfl, ?_⟩
  exact
    { eip := by
        change load u.mem (u.reg .esp + 4 + 4 + 4 + 4) = load s.mem (s.reg .esp)
        rw [hesp, show s.reg .esp - 16 + 4 + 4 + 4 + 4 = s.reg .esp - 16 + 16 by ring,
          hword 16 (by decide), show s.reg .esp - 16 + 16 = s.reg .esp by ring]
        refine load_congr fun x hx => forkMemory_of_notMem ?_
        exact Set.disjoint_left.mp (disjoint_span (by bv_omega) (by bv_omega)) hx
      esp := by
        change u.reg .esp + 4 + 4 + 4 + 4 + 4 = _
        rw [hesp]
        ring
      ebx := by
        change load u.mem (u.reg .esp + 4 + 4 + 4) = _
        rw [hesp, show s.reg .esp - 16 + 4 + 4 + 4 = s.reg .esp - 16 + 12 by ring,
          hword 12 (by decide), forkMemory_eq]
        simp (disch := decide) only [load_store_offset, load_store]
      ebp := by
        change load u.mem (u.reg .esp) = _
        rw [hesp, show s.reg .esp - 16 = s.reg .esp - 16 + 0 by ring, hword 0 (by decide),
          forkMemory_eq]
        exact load_store _ _ _
      esi := by
        change load u.mem (u.reg .esp + 4 + 4) = _
        rw [hesp, show s.reg .esp - 16 + 4 + 4 = s.reg .esp - 16 + 8 by ring, hword 8 (by decide),
          forkMemory_eq]
        simp (disch := decide) only [load_store_offset, load_store]
      edi := by
        change load u.mem (u.reg .esp + 4) = _
        rw [hesp, hword 4 (by decide), forkMemory_eq]
        simp (disch := decide) only [load_store_offset, load_store]
      cs := hcs
      ss := hss
      mem := hmem }

/-- The thread of the child calls `switchToUser(userPC, esp, 0)` with what `sysHandler` has found in
its frame, in an address space with a copy of the parent's stack. -/
structure Forked (userSS userCS : Word) (e k : State) : Prop where
  userPC : load k.mem (k.reg .esp + 4) = load e.mem (load e.mem (e.reg .esp + 8) + 0)
  userEsp : load k.mem (k.reg .esp + 8) = load e.mem (load e.mem (e.reg .esp + 8) + 12)
  eax : load k.mem (k.reg .esp + 12) = 0
  copy : ∀ x ∈ span (load k.mem (k.reg .esp + 8)) 20, k.mem x = e.mem x
  apart : Disjoint (span (load k.mem (k.reg .esp + 8)) 20) (span (k.reg .esp - 20) 20)
  ss : load k.mem userSS = 19
  cs : load k.mem userCS = 35
  far : Disjoint (span userCS 4) (span (k.reg .esp - 20) 20)
  ring : k.cpl = 0

/-- In the parent `fork` returns what `sysHandler` does, and in the child 0: to the same place, with
the same stack and the registers that the caller of `fork` wants to find again. -/
theorem fork_returns_twice (hg : g.selector &&& 3 = 0) (hin : g.Inward s) (hcs : s.cs = 35)
    (hss : s.ss = 19)
    (hint : ∀ d t, user 48 d = some t ↔ Ends kernel (sysHandler_ f back) (deliver g esp0 ss0 d) t)
    (hframe : span (esp0 - 20) 20 ⊆ kept)
    (hstack : span (s.reg .esp - 16) 20 ⊆ kept \ span (esp0 - 32) 32)
    (he : sysEntry (deliver g esp0 ss0 (s.forks after)) back = e)
    (hcall : kernel f e = some r) (hcdecl : Cdecl kept e r) :
    SysArguments (s.forks after) e ∧ (∀ x ∉ span (esp0 - 32) 32, e.mem x = forkMemory s x) ∧
    (∃ t, Ends user (Stub.fork after) s t ∧ t.reg .eax = r.reg .eax ∧
      Cdecl {x | x ∈ kept \ span (esp0 - 32) 32 ∧ x ∉ span (s.reg .esp - 16) 16} s t) ∧
    ∀ child userSS userCS k, Forked userSS userCS e k → ∃ u v,
      Ends kernel (switchToUser userSS userCS) k u ∧ u.eip = after ∧
      Ends child Stub.forkReturn u v ∧ v.reg .eax = 0 ∧
      Cdecl {x | k.mem x = s.mem x ∧ x ∉ span (k.reg .esp - 20) 20} s v := by
  subst he
  have hin' : g.Inward (s.forks after) := hin
  have hcs16 : s.cs &&& 0xffff = s.cs := by rw [hcs]; decide
  have hss16 : s.ss &&& 0xffff = s.ss := by rw [hss]; decide
  have hargs : SysArguments (s.forks after)
      (sysEntry (deliver g esp0 ss0 (s.forks after)) back) := sysArguments hin'
  obtain ⟨u, hends, hreturns⟩ := sysHandler_returns hg hin' hcs16 hss16 hframe hcall hcdecl
  have hmem : ∀ x ∈ kept \ span (esp0 - 32) 32, u.mem x = forkMemory s x := fun x hx => by
    rw [hreturns.mem, hcdecl.mem x hx.1]
    exact sysEntry_deliver_mem hin' hx.2
  have hesp : u.reg .esp = s.reg .esp - 16 := hreturns.esp.trans forks_esp
  obtain ⟨v, hv, heax, -, hparent⟩ := forkReturn_resumes user hesp
    (fun x hx => hmem x (hstack hx)) hreturns.cs hreturns.ss
    fun x (hx : x ∈ {x | x ∈ kept \ span (esp0 - 32) 32 ∧ x ∉ span (s.reg .esp - 16) 16}) =>
      (hmem x hx.1).trans (forkMemory_of_notMem hx.2)
  have hfork : Ends user (Stub.fork after) s v :=
    fork_ends.mpr ⟨u, (hint _ _).mpr hends, hreturns.eip, hv⟩
  refine ⟨hargs, fun x hx => sysEntry_deliver_mem hin' hx,
    ⟨v, hfork, heax.trans hreturns.eax, hparent⟩, fun child userSS userCS k hk => ?_⟩
  obtain ⟨w, hw, henters⟩ := switchToUser_enters kernel rfl rfl hk.eax hk.ss hk.cs hk.far hk.ring
  have hwesp : w.reg .esp = s.reg .esp - 16 := by
    rw [henters.esp, hk.userEsp, hargs.userEsp, forks_esp]
  have hwstack : ∀ x ∈ span (s.reg .esp - 16) 20, w.mem x = forkMemory s x := fun x hx => by
    rw [← hwesp, henters.esp] at hx
    rw [henters.mem x (Set.disjoint_left.mp hk.apart hx), hk.copy x hx]
    rw [← henters.esp, hwesp] at hx
    exact sysEntry_deliver_mem hin' (hstack hx).2
  obtain ⟨v, hv, hveax, -, hchild⟩ := forkReturn_resumes child hwesp hwstack
    (henters.cs.trans hcs.symm) (henters.ss.trans hss.symm)
    fun x (hx : x ∈ {x | k.mem x = s.mem x ∧ x ∉ span (k.reg .esp - 20) 20}) =>
      (henters.mem x hx.2).trans hx.1
  exact ⟨w, v, hw, henters.eip.trans (hk.userPC.trans hargs.userPC), hv, hveax.trans henters.eax,
    hchild⟩

def childThread : State where
  reg r := if r = .esp then 0x8000 else 0
  eflags := 0x2
  eip := 0x100600
  cs := 8
  ss := 24
  cr2 := 0
  cr3 := 0x4000
  mem := store (store (store (store (store (forkMemory userProgram) (0x6000 + 4) 35) (0x6000 + 0) 19)
    (0x8000 + 12) 0) (0x8000 + 8) 0xefffeff0) (0x8000 + 4) 0x80001239

theorem childThread_mem {x : Word} (hx : x ∈ span 0xefffeff0 20) :
    childThread.mem x = forkMemory userProgram x := by
  have hfar : ∀ a : Word, (a - 0xefffeff0).toNat ≥ 20 → (0xefffeff0 - a).toNat ≥ 4 →
      x ∉ span a 4 := fun a h h' => Set.disjoint_left.mp (disjoint_span h h') hx
  simp only [childThread]
  rw [store_of_notMem (hfar _ (by decide) (by decide)),
    store_of_notMem (hfar _ (by decide) (by decide)),
    store_of_notMem (hfar _ (by decide) (by decide)),
    store_of_notMem (hfar _ (by decide) (by decide)),
    store_of_notMem (hfar _ (by decide) (by decide))]

theorem fork_returns_twice_userProgram : ∃ t u v,
    Ends program (Stub.fork 0x80001239) userProgram t ∧ t.reg .eax = 42 ∧ t.eip = 0x80000100 ∧
    Ends answers (switchToUser (0x6000 + 0) (0x6000 + 4)) childThread u ∧
    Ends program Stub.forkReturn u v ∧ v.reg .eax = 0 ∧ v.eip = 0x80000100 := by
  have hin : systemCallGate.Inward (userProgram.forks 0x80001239) :=
    show systemCallGate.Inward userProgram by decide
  have hstack : span (userProgram.reg .esp - 16) 20 ⊆ (span 0x5000 4)ᶜ \ span (0x9000 - 32) 32 :=
    fun x hx => ⟨disjoint_compl (disjoint_span (by decide) (by decide)) hx,
      disjoint_compl (disjoint_span (by decide) (by decide)) hx⟩
  obtain ⟨hargs, hmem, ⟨t, hends, heax, hparent⟩, hchild⟩ := fork_returns_twice (by decide)
    (by decide) rfl rfl program_ends (disjoint_compl (disjoint_span (by decide) (by decide)))
    hstack rfl rfl (cdecl_answered hin)
  have hfar : ∀ {a b v w : Word} {m : Memory}, 4 ≤ (b - a).toNat → 4 ≤ (a - b).toNat →
      load m a = w → load (store m b v) a = w :=
    fun hab hba h => (load_store_of_disjoint (disjoint_span hab hba)).trans h
  have hesp : load childThread.mem (0x8000 + 8) = 0xefffeff0 :=
    hfar (by decide) (by decide) (load_store _ _ _)
  have hforked : Forked (0x6000 + 0) (0x6000 + 4) (sysEntry (deliver systemCallGate 0x9000 24
      (userProgram.forks 0x80001239)) 0x100148) childThread :=
    { userPC := by
        rw [hargs.userPC]
        exact load_store _ _ _
      userEsp := by
        rw [hargs.userEsp, forks_esp]
        exact hesp
      eax := hfar (by decide) (by decide) (hfar (by decide) (by decide) (load_store _ _ _))
      copy := by
        change ∀ x ∈ span (load childThread.mem (0x8000 + 8)) 20, _
        rw [hesp]
        intro x hx
        rw [childThread_mem hx, hmem x (hstack hx).2]
      apart := by
        change Disjoint (span (load childThread.mem (0x8000 + 8)) 20) (span (0x8000 - 20) 20)
        rw [hesp]
        exact disjoint_span (by decide) (by decide)
      ss := hfar (by decide) (by decide) (hfar (by decide) (by decide)
        (hfar (by decide) (by decide) (load_store _ _ _)))
      cs := hfar (by decide) (by decide) (hfar (by decide) (by decide)
        (hfar (by decide) (by decide) (hfar (by decide) (by decide) (load_store _ _ _))))
      far := disjoint_span (by decide) (by decide)
      ring := by decide }
  obtain ⟨u', v, hu', -, hv, hveax, hcdecl⟩ := hchild program _ _ childThread hforked
  exact ⟨t, u', v, hends, heax, hparent.eip.trans (load_store _ _ _), hu', hv, hveax,
    hcdecl.eip.trans (load_store _ _ _)⟩

end OsShell.Machine
