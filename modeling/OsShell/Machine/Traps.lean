import OsShell.Library.Interrupts

/-!
# Interrupted code

The routines behind the gates of the timer and of page faults, which the interrupted
code must not notice. The compiled functions that they call are open but for their
calling convention, and for leaving alone what lies on the stack above their own frame;
for the timer's that includes the slot of the argument, from which `%esp` is taken.
-/

namespace OsShell.Machine

open AddressSpace

def apitHandler_ (apitHandler back : Word) : List Instr :=
  [.pusha,
   .push (.reg .esp),
   .call apitHandler back,
   .pop .esp,
   .popa,
   .iret]

def pageFaultArguments : List Instr :=
  [.pusha,
   .mov (.reg .esp) (.reg .eax),
   .push (.reg .eax),
   .movFromCr2 .eax,
   .push (.reg .eax)]

def pageFaultReturn : List Instr :=
  [.add (.imm 8) (.reg .esp),
   .popa,
   .add (.imm 4) (.reg .esp)]

def pageFaultHandler_ (vmm_pageFault back : Word) : List Instr :=
  pageFaultArguments ++ .call vmm_pageFault back :: pageFaultReturn ++ [.iret]

/-- `add $n,%esp` -/
def State.release (s : State) (n : Word) : State :=
  { s.drop n with eflags := addFlags s.eflags (s.reg .esp) n }

variable {ext : Functions} {g : Gate} {esp0 ss0 f back : Word} {s t e r : State} {kept : Set Word}

/-! ## The timer -/

/-- How `apitHandler` is entered. -/
def apitEntry (e : State) (back : Word) : State := (e.pusha.push (e.pusha.reg .esp)).push back

theorem apitEntry_top : (apitEntry e back).top = back := load_store _ _ _

theorem apitHandler_ends : Ends ext (apitHandler_ f back) e t ↔
    ∃ r, ext f (apitEntry e back) = some r ∧ r.eip = back ∧ ((r.pop .esp).popa).iret = t := by
  have hstraight : ∀ instr ∈ [Instr.pusha, .push (.reg .esp), .call f back, .pop .esp, .popa],
      instr.Straight := by simp [Instr.Straight]
  have hcall : ∀ {v}, steps ext [.call f back, .pop .esp, .popa]
      (e.pusha.push (e.pusha.reg .esp)) = some v ↔ ∃ r, ext f (apitEntry e back) = some r ∧
        r.eip = back ∧ steps ext [.pop .esp, .popa] r = some v := steps_call rfl
  rw [show apitHandler_ f back = [.pusha, .push (.reg .esp), .call f back, .pop .esp, .popa] ++
    [.iret] from rfl, ends_iret hstraight]
  constructor
  · rintro ⟨v, hv, rfl⟩
    obtain ⟨r, hr, heip, hrest⟩ := hcall.mp hv
    exact ⟨r, hr, heip, congrArg State.iret (Option.some.inj hrest)⟩
  · rintro ⟨r, hr, heip, rfl⟩
    exact ⟨_, hcall.mpr ⟨r, hr, heip, rfl⟩, rfl⟩

/-- Wherever the timer interrupts: its handler returns, so the interrupted code goes on, and finds
every register, its flags, its stack and its place as they were, and in memory what the handler
keeps. -/
theorem apitHandler_transparent (hg : g.selector &&& 3 = 0) (hcs : s.cs &&& 0xffff = s.cs)
    (hss : s.ss &&& 0xffff = s.ss)
    (hframe : span ((deliver g esp0 ss0 s).reg .esp - 36) (36 + g.frameSize s) ⊆ kept)
    (hcall : ext f (apitEntry (deliver g esp0 ss0 s) back) = some r)
    (hcdecl : Cdecl kept (apitEntry (deliver g esp0 ss0 s) back) r) :
    ∃ t, Ends ext (apitHandler_ f back) (deliver g esp0 ss0 s) t ∧ Continues s t ∧ ∀ x ∈ kept,
      x ∉ span ((deliver g esp0 ss0 s).reg .esp - 40) (40 + g.frameSize s) → t.mem x = s.mem x := by
  have hend : Ends ext (apitHandler_ f back) (deliver g esp0 ss0 s) ((r.pop .esp).popa).iret :=
    apitHandler_ends.mpr ⟨r, hcall, hcdecl.eip.trans apitEntry_top, rfl⟩
  refine ⟨_, hend, ?_⟩
  clear hend hcall
  obtain ⟨e, he⟩ : ∃ e, deliver g esp0 ss0 s = e := ⟨_, rfl⟩
  rw [he] at hframe hcdecl ⊢
  have hsize := g.frameSize_le s
  have hsaved : span (e.reg .esp - 32) 32 ⊆ span (e.reg .esp - 36) (36 + g.frameSize s) :=
    span_sub_subset (by decide) (by change 4 + 32 ≤ _; omega)
  have hold : span (e.reg .esp) (g.frameSize s) ⊆ span (e.reg .esp - 36) (36 + g.frameSize s) :=
    span_subset_sub le_rfl
  have hmem : (apitEntry e back).mem =
      store (store e.pusha.mem (e.reg .esp - 36) (e.reg .esp - 32)) (e.reg .esp - 40) back := by
    change store (store e.pusha.mem (e.pusha.reg .esp - 4) (e.pusha.reg .esp))
      (e.pusha.reg .esp - 4 - 4) back = _
    rw [pusha_esp, show e.reg .esp - 32 - 4 = e.reg .esp - 36 by ring,
      show e.reg .esp - 36 - 4 = e.reg .esp - 40 by ring]
  have hentry : (apitEntry e back).reg .esp = e.reg .esp - 40 := by
    change e.pusha.reg .esp - 4 - 4 = _
    rw [pusha_esp]
    ring
  have hpushed : ∀ x, x ∉ span (e.reg .esp - 40) 8 → (apitEntry e back).mem x = e.pusha.mem x := by
    intro x hx
    rw [hmem, store_of_notMem fun h => hx (span_mono (by decide) h),
      store_of_notMem fun h => hx (span_sub_subset (by decide) (by decide) h)]
  have hesp : r.reg .esp = e.reg .esp - 36 := by
    rw [hcdecl.esp, hentry]
    ring
  have hslot : load r.mem (e.reg .esp - 36) = e.reg .esp - 32 := by
    rw [load_congr fun x hx => hcdecl.mem x (hframe (span_mono (by omega) hx)), hmem,
      load_store_of_disjoint (disjoint_span (by bv_omega) (by bv_omega)), load_store]
  have hregs : ((r.pop .esp).popa).reg = e.reg := by
    refine popa_pusha ?_ fun x hx => ?_
    · change load r.mem (r.reg .esp) = _
      rw [hesp, hslot]
    · refine (hcdecl.mem x (hframe (hsaved hx))).trans (hpushed x ?_)
      exact Set.disjoint_left.mp (disjoint_span (by bv_omega) (by bv_omega)) hx
  have hback : ∀ x ∈ span (e.reg .esp) (g.frameSize s), r.mem x = e.mem x := fun x hx => by
    rw [hcdecl.mem x (hframe (hold hx)), hpushed x fun h => ?_, pusha_of_notMem fun h => ?_]
    · exact Set.disjoint_left.mp (disjoint_span (by bv_omega) (by bv_omega)) hx h
    · exact Set.disjoint_left.mp (disjoint_span (by bv_omega) (by bv_omega)) hx h
  subst he
  refine ⟨continues_iret hg hcs hss hregs hcdecl.cs hcdecl.ss hback, fun x hx hout => ?_⟩
  · have hfar : x ∉ span ((deliver g esp0 ss0 s).reg .esp - 40) 40 := fun h =>
      hout (span_mono (by omega) h)
    have htop : x ∉ span ((deliver g esp0 ss0 s).reg .esp) (g.frameSize s) := fun h =>
      hout (span_subset_sub le_rfl h)
    have hpusha : x ∉ span ((deliver g esp0 ss0 s).reg .esp - 32) 32 := fun h =>
      hfar (span_sub_subset (by decide) (by decide) h)
    rw [iret_mem]
    refine (hcdecl.mem x hx).trans ?_
    rw [hpushed x fun h => hfar (span_mono (by decide) h), pusha_of_notMem hpusha, deliver_mem htop]

def userProgram : State where
  reg r := if r = .esp then 0xeffff000 else 7
  eflags := 0x202
  eip := 0x80001234
  cs := 35
  ss := 19
  cr2 := 0
  cr3 := 0x3000
  mem := store (fun x => byte x 0) 0xeffff000 0x80000100

def writesWord (a v result : Word) (e : State) : State :=
  ({ e with mem := store e.mem a v }.set .eax result).ret

theorem cdecl_writesWord {a v result : Word} (ha : Disjoint (span (e.reg .esp) 4) (span a 4)) :
    Cdecl (span a 4)ᶜ e (writesWord a v result e) where
  eip := load_store_of_disjoint ha
  esp := rfl
  ebx := rfl
  ebp := rfl
  esi := rfl
  edi := rfl
  cs := rfl
  ss := rfl
  mem := fun _ hx => store_of_notMem hx

theorem disjoint_compl {a b : Word} {n k : ℕ} (h : Disjoint (span a n) (span b k)) :
    span a n ⊆ (span b k)ᶜ := fun _ hx => Set.disjoint_left.mp h hx

def timerGate : Gate := ⟨8, 0x100100, true, 0⟩

def pageFaultGate : Gate := ⟨8, 0x100110, false, 3⟩

def countsTick : Functions := fun _ e => some (writesWord 0x5000 1 0 e)

theorem apitHandler_transparent_userProgram : ∃ t,
    Ends countsTick (apitHandler_ 0x100200 0x100105) (deliver timerGate 0x9000 24 userProgram) t ∧
    load t.mem 0x5000 = 1 ∧ Continues userProgram t := by
  have hesp : (deliver timerGate 0x9000 24 userProgram).reg .esp = 0x9000 - 20 :=
    (deliver_inward _ _ (by decide)).1
  have hpushed : ((deliver timerGate 0x9000 24 userProgram).pusha.push
      ((deliver timerGate 0x9000 24 userProgram).pusha.reg .esp)).reg .esp = 0x9000 - 56 := by
    rw [State.push_esp, pusha_esp, hesp]
    rfl
  have hframe : span ((deliver timerGate 0x9000 24 userProgram).reg .esp - 36)
      (36 + timerGate.frameSize userProgram) ⊆ (span 0x5000 4)ᶜ := by
    rw [hesp]
    exact disjoint_compl (disjoint_span (by decide) (by decide))
  have hcdecl : Cdecl (span 0x5000 4)ᶜ (apitEntry (deliver timerGate 0x9000 24 userProgram) 0x100105)
      (writesWord 0x5000 1 0 (apitEntry (deliver timerGate 0x9000 24 userProgram) 0x100105)) := by
    refine cdecl_writesWord ?_
    rw [apitEntry, State.push_esp, hpushed]
    exact disjoint_span (by decide) (by decide)
  have hcall : countsTick 0x100200 (apitEntry (deliver timerGate 0x9000 24 userProgram) 0x100105) =
      some (writesWord 0x5000 1 0 (apitEntry (deliver timerGate 0x9000 24 userProgram) 0x100105)) :=
    rfl
  have hends : Ends countsTick (apitHandler_ 0x100200 0x100105)
      (deliver timerGate 0x9000 24 userProgram) _ := apitHandler_ends.mpr
    ⟨_, hcall, hcdecl.eip.trans apitEntry_top, rfl⟩
  obtain ⟨t, ht, hcontinues, -⟩ := apitHandler_transparent (by decide) (by decide) (by decide)
    hframe hcall hcdecl
  refine ⟨t, ht, ?_, hcontinues⟩
  rw [ht.unique hends, iret_mem]
  exact load_store _ _ _

/-! ## Page faults -/

/-- The stack when `vmm_pageFault` is called: its arguments are the address and where the registers
are. -/
def pageFaultFrame (e : State) : State :=
  (((e.pusha.set .eax (e.pusha.reg .esp)).push (e.pusha.reg .esp)).set .eax e.cr2).push e.cr2

def pageFaultEntry (e : State) (back : Word) : State := (pageFaultFrame e).push back

theorem pageFaultEntry_top : (pageFaultEntry e back).top = back := load_store _ _ _

theorem pageFaultHandler_ends : Ends ext (pageFaultHandler_ f back) e t ↔
    ∃ r, ext f (pageFaultEntry e back) = some r ∧ r.eip = back ∧
      ((r.release 8).popa.release 4).iret = t := by
  have hstraight : ∀ instr ∈ pageFaultArguments ++ .call f back :: pageFaultReturn,
      instr.Straight := by simp [pageFaultArguments, pageFaultReturn, Instr.Straight]
  have hbefore : steps ext pageFaultArguments e = some (pageFaultFrame e) := by
    simp only [pageFaultArguments, steps, Instr.exec, State.read, State.look, State.write,
      pageFaultFrame, State.set, State.push, Function.update_self]
    rfl
  have hcall : ∀ {v}, steps ext (.call f back :: pageFaultReturn) (pageFaultFrame e) = some v ↔
      ∃ r, ext f (pageFaultEntry e back) = some r ∧ r.eip = back ∧
        steps ext pageFaultReturn r = some v := steps_call rfl
  have hafter : ∀ r, steps ext pageFaultReturn r = some ((r.release 8).popa.release 4) := fun r => by
    simp only [pageFaultReturn, steps, Instr.exec, State.read, State.look, State.write,
      State.release, State.drop]
  rw [pageFaultHandler_, ends_iret hstraight, steps_append, hbefore, Option.bind_some]
  simp only [hcall, hafter, Option.some.injEq]
  constructor
  · rintro ⟨v, ⟨r, hr, heip, rfl⟩, rfl⟩
    exact ⟨r, hr, heip, rfl⟩
  · rintro ⟨r, hr, heip, rfl⟩
    exact ⟨_, ⟨r, hr, heip, rfl⟩, rfl⟩

theorem pageFaultEntry_esp : (pageFaultEntry e back).reg .esp = e.reg .esp - 44 := by
  have heax (s : State) (v : Word) : (s.set .eax v).reg .esp = s.reg .esp :=
    s.set_reg_of_ne v (by decide)
  simp only [pageFaultEntry, pageFaultFrame, State.push_esp, heax, pusha_esp]
  ring

theorem pageFaultEntry_mem : (pageFaultEntry e back).mem = store (store (store e.pusha.mem
    (e.reg .esp - 44 + 8) (e.reg .esp - 32)) (e.reg .esp - 44 + 4) e.cr2) (e.reg .esp - 44 + 0)
    back := by
  have heax (s : State) (v : Word) : (s.set .eax v).reg .esp = s.reg .esp :=
    s.set_reg_of_ne v (by decide)
  have hmem (s : State) (v : Word) : (s.set .eax v).mem = s.mem := rfl
  simp only [pageFaultEntry, pageFaultFrame, State.push_mem, State.push_esp, heax, hmem, pusha_esp]
  rw [show e.reg .esp - 32 - 4 - 4 - 4 = e.reg .esp - 44 + 0 by ring,
    show e.reg .esp - 32 - 4 - 4 = e.reg .esp - 44 + 4 by ring,
    show e.reg .esp - 32 - 4 = e.reg .esp - 44 + 8 by ring]

theorem pageFaultEntry_of_notMem {x : Word} (hx : x ∉ span (e.reg .esp - 44) 12) :
    (pageFaultEntry e back).mem x = e.pusha.mem x := by
  have hword : ∀ i : Word, i.toNat + 4 ≤ 12 → x ∉ span (e.reg .esp - 44 + i) 4 :=
    fun i hi hin => hx (span_subset hi hin)
  rw [pageFaultEntry_mem, store_of_notMem (hword _ (by decide)),
    store_of_notMem (hword _ (by decide)), store_of_notMem (hword _ (by decide))]

/-- Wherever a page fault comes: its handler is told the address and where the registers are, and
as it returns, the instruction is tried again with everything as it was but for the memory that the
handler does not keep. -/
theorem pageFaultHandler_transparent {err : Word} (hg : g.selector &&& 3 = 0)
    (hcs : s.cs &&& 0xffff = s.cs) (hss : s.ss &&& 0xffff = s.ss)
    (hframe : span ((deliver g esp0 ss0 s).reg .esp - 36) (36 + g.frameSize s) ⊆ kept)
    (he : pageFaultEntry ((deliver g esp0 ss0 s).push err) back = e)
    (hcall : ext f e = some r) (hcdecl : Cdecl kept e r) :
    load e.mem (e.reg .esp + 4) = s.cr2 ∧
    load e.mem (e.reg .esp + 8) = (deliver g esp0 ss0 s).reg .esp - 36 ∧
    ∃ t, Ends ext (pageFaultHandler_ f back) ((deliver g esp0 ss0 s).push err) t ∧
      Continues s t ∧ ∀ x ∈ kept,
        x ∉ span ((deliver g esp0 ss0 s).reg .esp - 48) (48 + g.frameSize s) →
          t.mem x = s.mem x := by
  subst he
  have hend : Ends ext (pageFaultHandler_ f back) ((deliver g esp0 ss0 s).push err)
      ((r.release 8).popa.release 4).iret :=
    pageFaultHandler_ends.mpr ⟨r, hcall, hcdecl.eip.trans pageFaultEntry_top, rfl⟩
  obtain ⟨d, hd⟩ : ∃ d, deliver g esp0 ss0 s = d := ⟨_, rfl⟩
  have hcr2 : d.cr2 = s.cr2 := by
    rw [← hd]
    exact deliver_cr2
  have hcr2 : (d.push err).cr2 = s.cr2 := hcr2
  rw [hd] at hframe hcdecl hend ⊢
  have hsize := g.frameSize_le s
  have herr : (d.push err).reg .esp = d.reg .esp - 4 := d.push_esp err
  have hsaved : span (d.reg .esp - 36) 32 ⊆ span (d.reg .esp - 36) (36 + g.frameSize s) :=
    span_mono (by omega)
  have hold : span (d.reg .esp) (g.frameSize s) ⊆ span (d.reg .esp - 36) (36 + g.frameSize s) :=
    span_subset_sub le_rfl
  have hargs : (d.push err).reg .esp - 44 = d.reg .esp - 48 := by
    rw [herr]
    ring
  have hregs32 : (d.push err).reg .esp - 32 = d.reg .esp - 36 := by
    rw [herr]
    ring
  have hpopa : ((r.release 8).popa).reg = (d.push err).reg := by
    refine popa_pusha ?_ fun x hx => ?_
    · change r.reg .esp + 8 = _
      rw [hcdecl.esp, pageFaultEntry_esp]
      ring
    · rw [hregs32] at hx
      refine (hcdecl.mem x (hframe (hsaved hx))).trans (pageFaultEntry_of_notMem ?_)
      rw [hargs]
      exact Set.disjoint_left.mp (disjoint_span (by bv_omega) (by bv_omega)) hx
  have hreg : ((r.release 8).popa.release 4).reg = d.reg := by
    funext q
    by_cases hq : q = .esp
    · subst hq
      change ((r.release 8).popa).reg .esp + 4 = _
      rw [hpopa, herr, sub_add_cancel]
    · change Function.update ((r.release 8).popa).reg .esp _ q = _
      rw [Function.update_of_ne hq, hpopa, d.push_reg err hq]
  have hentry : ∀ x, x ∉ span (d.reg .esp - 48) 48 →
      (pageFaultEntry (d.push err) back).mem x = d.mem x := fun x hx => by
    rw [pageFaultEntry_of_notMem fun h => hx (span_mono (by decide) (hargs ▸ h)),
      pusha_of_notMem fun h => hx (span_sub_subset (by decide) (by decide) (hregs32 ▸ h)),
      State.push_mem, store_of_notMem fun h => hx (span_sub_subset (by decide) (by decide) h)]
  refine ⟨?_, ?_, _, hend, ?_, fun x hx hout => ?_⟩
  · rw [pageFaultEntry_esp, pageFaultEntry_mem]
    simp (disch := decide) only [load_store_offset, load_store, hcr2]
  · rw [pageFaultEntry_esp, pageFaultEntry_mem]
    simp (disch := decide) only [load_store_offset, load_store, hregs32]
  · subst hd
    refine continues_iret hg hcs hss hreg hcdecl.cs hcdecl.ss fun x hx => ?_
    refine (hcdecl.mem x (hframe (hold hx))).trans (hentry x fun h => ?_)
    exact Set.disjoint_left.mp (disjoint_span (by bv_omega) (by bv_omega)) hx h
  · rw [iret_mem]
    refine (hcdecl.mem x hx).trans ?_
    rw [hentry x fun h => hout (span_mono (by omega) h)]
    subst hd
    exact deliver_mem fun h => hout (span_subset_sub le_rfl h)

def mapsPage : Functions := fun _ e => some (writesWord 0x7000 0x4007 0 e)

theorem pageFaultHandler_transparent_userProgram : ∃ t,
    Ends mapsPage (pageFaultHandler_ 0x100300 0x100118)
      ((deliver pageFaultGate 0x9000 24 userProgram).push 6) t ∧
    load t.mem 0x7000 = 0x4007 ∧ Continues userProgram t := by
  have hesp : (deliver pageFaultGate 0x9000 24 userProgram).reg .esp = 0x9000 - 20 :=
    (deliver_inward _ _ (by decide)).1
  have hentry : (pageFaultEntry ((deliver pageFaultGate 0x9000 24 userProgram).push 6)
      0x100118).reg .esp = 0x9000 - 68 := by
    rw [pageFaultEntry_esp, State.push_esp, hesp]
    rfl
  have hcdecl : Cdecl (span 0x7000 4)ᶜ
      (pageFaultEntry ((deliver pageFaultGate 0x9000 24 userProgram).push 6) 0x100118)
      (writesWord 0x7000 0x4007 0
        (pageFaultEntry ((deliver pageFaultGate 0x9000 24 userProgram).push 6) 0x100118)) :=
    cdecl_writesWord (by rw [hentry]; exact disjoint_span (by decide) (by decide))
  have hframe : span ((deliver pageFaultGate 0x9000 24 userProgram).reg .esp - 36)
      (36 + pageFaultGate.frameSize userProgram) ⊆ (span 0x7000 4)ᶜ := by
    rw [hesp]
    exact disjoint_compl (disjoint_span (by decide) (by decide))
  have hcall : mapsPage 0x100300
      (pageFaultEntry ((deliver pageFaultGate 0x9000 24 userProgram).push 6) 0x100118) =
      some (writesWord 0x7000 0x4007 0
        (pageFaultEntry ((deliver pageFaultGate 0x9000 24 userProgram).push 6) 0x100118)) := rfl
  have hends : Ends mapsPage (pageFaultHandler_ 0x100300 0x100118)
      ((deliver pageFaultGate 0x9000 24 userProgram).push 6) _ := pageFaultHandler_ends.mpr
    ⟨_, hcall, hcdecl.eip.trans pageFaultEntry_top, rfl⟩
  obtain ⟨-, -, t, ht, hcontinues, -⟩ := pageFaultHandler_transparent (by decide) (by decide)
    (by decide) hframe rfl hcall hcdecl
  refine ⟨t, ht, ?_, hcontinues⟩
  rw [ht.unique hends, iret_mem]
  exact load_store _ _ _

end OsShell.Machine
