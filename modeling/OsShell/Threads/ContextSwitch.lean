import OsShell.Library.Machine

/-!
# The context switch

`gheith_contextSwitch(saveArea, restoreArea, action, arg)` keeps the registers that
compiled code wants to find again in the save area of the source thread and the
flags on its stack, takes those of the target thread, and calls the action on the
stack of the target. Every address it uses is one of the kernel, which all address
spaces map alike, so that `cr3` may change in the middle. The fields of a save area
are 36 bytes; `no_preempt` is the one at 20, and `cr3` at 32 is written once, when
the thread is made.
-/

namespace OsShell.ContextSwitch

open AddressSpace Machine

/-- Up to where `%esp` still points to the source stack and nothing of the source is needed. -/
def saveSource : List Instr :=
  [.mov (.mem 4 .esp) (.reg .eax),
   .mov (.mem 8 .esp) (.reg .ecx),
   .mov (.mem 12 .esp) (.reg .edx),
   .pushf,
   .mov (.reg .ebx) (.mem 0 .eax),
   .mov (.reg .esp) (.mem 4 .eax),
   .mov (.reg .ebp) (.mem 8 .eax),
   .mov (.reg .esi) (.mem 12 .eax),
   .mov (.reg .edi) (.mem 16 .eax),
   .movFromCr2 .edi,
   .mov (.reg .edi) (.mem 28 .eax),
   .cli,
   .mov (.imm 0) (.mem 20 .eax),
   .mov (.imm 0) (.mem 20 .ecx),
   .mov (.reg .esp) (.reg .eax)]

def restoreTarget : List Instr :=
  [.mov (.mem 28 .ecx) (.reg .edi),
   .movToCr2 .edi,
   .mov (.mem 32 .ecx) (.reg .edi),
   .movToCr3 .edi,
   .mov (.mem 0 .ecx) (.reg .ebx),
   .mov (.mem 4 .ecx) (.reg .esp),
   .mov (.mem 8 .ecx) (.reg .ebp),
   .mov (.mem 12 .ecx) (.reg .esi),
   .mov (.mem 16 .ecx) (.reg .edi),
   .push (.mem 20 .eax),
   .push (.mem 8 .eax)]

def callAction (back : Word) : List Instr :=
  [.callReg .edx back,
   .add (.imm 8) (.reg .esp),
   .popf]

def gheith_contextSwitch (back : Word) : List Instr :=
  saveSource ++ restoreTarget ++ callAction back ++ [.ret]

/-- What a thread finds again; `esp` points to its flags, with the return address behind them. -/
structure Context where
  ebx : Word
  esp : Word
  ebp : Word
  esi : Word
  edi : Word
  cr2 : Word
  eflags : Word
  eip : Word

def Context.of (s : State) : Context :=
  ⟨s.reg .ebx, s.reg .esp - 4, s.reg .ebp, s.reg .esi, s.reg .edi, s.cr2, s.eflags, s.top⟩

structure Suspended (m : Memory) (area : Word) (c : Context) : Prop where
  ebx : load m (area + 0) = c.ebx
  esp : load m (area + 4) = c.esp
  ebp : load m (area + 8) = c.ebp
  esi : load m (area + 12) = c.esi
  edi : load m (area + 16) = c.edi
  cr2 : load m (area + 28) = c.cr2
  eflags : load m (c.esp + 0) = c.eflags
  eip : load m (c.esp + 4) = c.eip

def footprint (area : Word) (c : Context) : Set Word :=
  span area 20 ∪ span (area + 28) 8 ∪ span c.esp 8

structure Resumed (c : Context) (t : Cpu) : Prop where
  ebx : t.reg .ebx = c.ebx
  esp : t.reg .esp = c.esp + 8
  ebp : t.reg .ebp = c.ebp
  esi : t.reg .esi = c.esi
  edi : t.reg .edi = c.edi
  eflags : t.eflags = c.eflags
  eip : t.eip = c.eip

structure Arguments (s : State) (source target action arg : Word) : Prop where
  source : load s.mem (s.reg .esp + 4) = source
  target : load s.mem (s.reg .esp + 8) = target
  action : load s.mem (s.reg .esp + 12) = action
  arg : load s.mem (s.reg .esp + 16) = arg

/-- The two save areas, the words that the call uses of the source stack, and those that it uses of
the target stack. -/
structure Apart (s : State) (source target : Word) (c : Context) : Prop where
  areas : Disjoint (span source 36) (span target 36)
  sourceSource : Disjoint (span (s.reg .esp - 4) 24) (span source 36)
  sourceTarget : Disjoint (span (s.reg .esp - 4) 24) (span target 36)
  targetSource : Disjoint (span (c.esp - 12) 20) (span source 36)
  targetTarget : Disjoint (span (c.esp - 12) 20) (span target 36)
  frames : Disjoint (span (s.reg .esp - 4) 24) (span (c.esp - 12) 20)

/-- How the action is entered: on the target's stack with interrupts disabled, the source kept
completely, neither thread marked any more. -/
structure Entry (s : State) (source target back arg : Word) (c : Context) (e : State) : Prop where
  esp : e.reg .esp = c.esp - 12
  back : e.top = back
  first : load e.mem (e.reg .esp + 4) = source
  second : load e.mem (e.reg .esp + 8) = arg
  disabled : e.eflags.getLsbD flagIF = false
  cr2 : e.cr2 = c.cr2
  cr3 : e.cr3 = load s.mem (target + 32)
  cs : e.cs = s.cs
  ss : e.ss = s.ss
  sourceKept : Suspended e.mem source (Context.of s)
  targetKept : Suspended e.mem target c
  sourcePreempt : load e.mem (source + 20) = 0
  targetPreempt : load e.mem (target + 20) = 0
  ebx : e.reg .ebx = c.ebx
  ebp : e.reg .ebp = c.ebp
  esi : e.reg .esi = c.esi
  edi : e.reg .edi = c.edi

theorem Suspended.congr {m m' : Memory} {area : Word} {c : Context} (h : Suspended m area c)
    (hm : ∀ x ∈ footprint area c, m' x = m x) : Suspended m' area c := by
  have hlow : ∀ i : Word, i.toNat + 4 ≤ 20 → load m' (area + i) = load m (area + i) := fun i hi =>
    load_congr fun x hx => hm x (Or.inl (Or.inl (span_subset hi hx)))
  have hcr2 : load m' (area + 28) = load m (area + 28) :=
    load_congr fun x hx => hm x (Or.inl (Or.inr (span_mono (by decide) hx)))
  have hstack : ∀ i : Word, i.toNat + 4 ≤ 8 → load m' (c.esp + i) = load m (c.esp + i) := fun i hi =>
    load_congr fun x hx => hm x (Or.inr (span_subset hi hx))
  exact {
    ebx := (hlow 0 (by decide)).trans h.ebx
    esp := (hlow 4 (by decide)).trans h.esp
    ebp := (hlow 8 (by decide)).trans h.ebp
    esi := (hlow 12 (by decide)).trans h.esi
    edi := (hlow 16 (by decide)).trans h.edi
    cr2 := hcr2.trans h.cr2
    eflags := (hstack 0 (by decide)).trans h.eflags
    eip := (hstack 4 (by decide)).trans h.eip }

variable {ext : Functions} {s : State} {source target action arg back : Word} {c : Context}

def saved (s : State) (source target : Word) : Memory :=
  let m := store s.mem (s.reg .esp - 4) s.eflags
  let m := store m (source + 0) (s.reg .ebx)
  let m := store m (source + 4) (s.reg .esp - 4)
  let m := store m (source + 8) (s.reg .ebp)
  let m := store m (source + 12) (s.reg .esi)
  let m := store m (source + 16) (s.reg .edi)
  let m := store m (source + 28) s.cr2
  let m := store m (source + 20) 0
  store m (target + 20) 0

def afterSave (s : State) (source target action : Word) : State :=
  { s with
    reg := fun
      | .eax => s.reg .esp - 4
      | .ecx => target
      | .edx => action
      | .esp => s.reg .esp - 4
      | .edi => s.cr2
      | r => s.reg r
    eflags := setFlag s.eflags flagIF false
    mem := saved s source target }

theorem steps_saveSource (h : Arguments s source target action arg) :
    steps ext saveSource s = some (afterSave s source target action) := by
  simp only [saveSource, steps, Instr.exec, State.read, State.look, h.source, h.target, h.action,
    State.write, State.set, State.push, Function.update_self, Function.update_of_ne, ne_eq,
    reduceCtorEq, not_false_eq_true, afterSave, saved]
  congr 3
  funext r
  cases r <;> rfl

theorem saved_of_notMem {x : Word} (hframe : x ∉ span (s.reg .esp - 4) 24)
    (hsource : x ∉ span source 36) (htarget : x ∉ span target 36) :
    saved s source target x = s.mem x := by
  have hfield : ∀ i : Word, i.toNat + 4 ≤ 36 → x ∉ span (source + i) 4 :=
    fun i hi hx => hsource (span_subset hi hx)
  rw [saved, store_of_notMem fun hx => htarget (span_subset (by decide) hx),
    store_of_notMem (hfield _ (by decide)), store_of_notMem (hfield _ (by decide)),
    store_of_notMem (hfield _ (by decide)), store_of_notMem (hfield _ (by decide)),
    store_of_notMem (hfield _ (by decide)), store_of_notMem (hfield _ (by decide)),
    store_of_notMem (hfield _ (by decide)),
    store_of_notMem fun hx => hframe (span_mono (by decide) hx)]

theorem load_saved_frame (h : Apart s source target c) {i : Word} (hi : i.toNat + 4 ≤ 24)
    (hbehind : 4 ≤ i.toNat) :
    load (saved s source target) (s.reg .esp - 4 + i) = load s.mem (s.reg .esp - 4 + i) := by
  simp (disch := decide) only [saved, load_store_apart h.sourceTarget hi,
    load_store_apart h.sourceSource hi]
  exact load_store_first hbehind (by bv_omega)

theorem suspended_source (h : Apart s source target c) :
    Suspended (saved s source target) source (.of s) := by
  have hflags : load (saved s source target) (s.reg .esp - 4 + 0) = s.eflags := by
    simp (disch := decide) only [saved, load_store_apart h.sourceTarget,
      load_store_apart h.sourceSource]
    rw [add_zero, load_store]
  have hback := load_saved_frame h (i := 4) (by decide) (by decide)
  rw [sub_add_cancel] at hback
  constructor
  case eflags => exact hflags
  case eip => exact (congrArg (load _) (sub_add_cancel _ 4)).trans hback
  all_goals
    simp (disch := decide) only [saved, load_store_apart h.areas, load_store_offset, load_store,
      Context.of]

theorem source_directory (h : Apart s source target c) :
    load (saved s source target) (source + 32) = load s.mem (source + 32) := by
  simp (disch := decide) only [saved, load_store_apart h.areas, load_store_offset,
    load_store_apart_first h.sourceSource.symm]

theorem source_preempt (h : Apart s source target c) :
    load (saved s source target) (source + 20) = 0 := by
  simp (disch := decide) only [saved, load_store_apart h.areas, load_store]

theorem load_saved_target (h : Apart s source target c) {i : Word}
    (hi : i.toNat ≤ 16 ∨ 24 ≤ i.toNat) (hin : i.toNat ≤ 32) :
    load (saved s source target) (target + i) = load s.mem (target + i) := by
  have hfit : i.toNat + 4 ≤ 36 := by omega
  rw [saved, load_store_offset (by bv_omega) (by bv_omega)]
  simp (disch := decide) only [load_store_apart h.areas.symm hfit,
    load_store_apart_first h.sourceTarget.symm hfit]

theorem load_saved_stack (h : Apart s source target c) {i : Word} (hi : i.toNat + 4 ≤ 20) :
    load (saved s source target) (c.esp - 12 + i) = load s.mem (c.esp - 12 + i) := by
  simp (disch := decide) only [saved, load_store_apart h.targetTarget hi,
    load_store_apart h.targetSource hi, load_store_apart_first h.frames.symm hi]

theorem suspended_target (h : Apart s source target c) (ht : Suspended s.mem target c) :
    Suspended (saved s source target) target c := by
  have heflags := load_saved_stack h (i := 12) (by decide)
  have heip := load_saved_stack h (i := 16) (by decide)
  rw [show c.esp - 12 + 12 = c.esp + 0 by ring] at heflags
  rw [show c.esp - 12 + 16 = c.esp + 4 by ring] at heip
  exact {
    ebx := (load_saved_target h (by decide) (by decide)).trans ht.ebx
    esp := (load_saved_target h (by decide) (by decide)).trans ht.esp
    ebp := (load_saved_target h (by decide) (by decide)).trans ht.ebp
    esi := (load_saved_target h (by decide) (by decide)).trans ht.esi
    edi := (load_saved_target h (by decide) (by decide)).trans ht.edi
    cr2 := (load_saved_target h (by decide) (by decide)).trans ht.cr2
    eflags := heflags.trans ht.eflags
    eip := heip.trans ht.eip }

def afterRestore (u : State) (source arg : Word) (c : Context) : State :=
  { u with
    reg := fun
      | .ebx => c.ebx
      | .esp => c.esp - 4 - 4
      | .ebp => c.ebp
      | .esi => c.esi
      | .edi => c.edi
      | r => u.reg r
    cr2 := c.cr2
    cr3 := load u.mem (u.reg .ecx + 32)
    mem := store (store u.mem (c.esp - 4) arg) (c.esp - 4 - 4) source }

theorem steps_restoreTarget {u : State} (ht : Suspended u.mem (u.reg .ecx) c)
    (harg : load u.mem (u.reg .eax + 20) = arg)
    (hsource : load (store u.mem (c.esp - 4) arg) (u.reg .eax + 8) = source) :
    steps ext restoreTarget u = some (afterRestore u source arg c) := by
  simp only [restoreTarget, steps, Instr.exec, State.read, State.look, State.write, State.set,
    State.push, Function.update_self, Function.update_of_ne, ne_eq, reduceCtorEq, not_false_eq_true,
    ht.ebx, ht.esp, ht.ebp, ht.esi, ht.edi, ht.cr2, harg, hsource,
    afterRestore]
  congr 3
  funext r
  cases r <;> rfl

def pushed (m : Memory) (c : Context) (source back arg : Word) : Memory :=
  let m := store m (c.esp - 4) arg
  let m := store m (c.esp - 4 - 4) source
  store m (c.esp - 4 - 4 - 4) back

theorem pushed_of_notMem {m : Memory} {x : Word} (hx : x ∉ span (c.esp - 12) 12) :
    pushed m c source back arg x = m x := by
  have hword : ∀ i : Word, i.toNat + 4 ≤ 12 → x ∉ span (c.esp - 12 + i) 4 :=
    fun i hi hmem => hx (span_subset hi hmem)
  rw [pushed, show c.esp - 4 - 4 - 4 = c.esp - 12 + 0 by ring,
    show c.esp - 4 - 4 = c.esp - 12 + 4 by ring, show c.esp - 4 = c.esp - 12 + 8 by ring,
    store_of_notMem (hword 0 (by decide)), store_of_notMem (hword 4 (by decide)),
    store_of_notMem (hword 8 (by decide))]

theorem footprint_source (h : Apart s source target c) :
    Disjoint (footprint source (.of s)) (span (c.esp - 12) 12) := by
  have hshort : span (c.esp - 12) 12 ⊆ span (c.esp - 12) 20 := span_mono (by decide)
  refine Disjoint.mono_right hshort ?_
  refine Set.disjoint_union_left.mpr ⟨Set.disjoint_union_left.mpr ⟨?_, ?_⟩, ?_⟩
  · exact h.targetSource.symm.mono_left (span_mono (by decide))
  · exact h.targetSource.symm.mono_left (span_subset (by decide))
  · exact h.frames.mono_left (span_mono (by decide))

theorem footprint_target (h : Apart s source target c) :
    Disjoint (footprint target c) (span (c.esp - 12) 12) := by
  have hshort : span (c.esp - 12) 12 ⊆ span (c.esp - 12) 20 := span_mono (by decide)
  refine Set.disjoint_union_left.mpr ⟨Set.disjoint_union_left.mpr ⟨?_, ?_⟩, ?_⟩
  · exact (h.targetTarget.symm.mono_right hshort).mono_left (span_mono (by decide))
  · exact (h.targetTarget.symm.mono_right hshort).mono_left (span_subset (by decide))
  · exact disjoint_span (by bv_omega) (by bv_omega)

def entry (s : State) (source target action back arg : Word) (c : Context) : State :=
  (afterRestore (afterSave s source target action) source arg c).push back

theorem entry_mem : (entry s source target action back arg c).mem =
    pushed (saved s source target) c source back arg :=
  rfl

theorem entry_esp : (entry s source target action back arg c).reg .esp = c.esp - 12 := by
  change c.esp - 4 - 4 - 4 = c.esp - 12
  ring

theorem entry_spec (action back arg : Word) (h : Apart s source target c) (ht : Suspended s.mem target c) :
    Entry s source target back arg c (entry s source target action back arg c) := by
  have hsource : ∀ x ∈ footprint source (.of s),
      pushed (saved s source target) c source back arg x = saved s source target x := fun x hx =>
    pushed_of_notMem (Set.disjoint_left.mp (footprint_source h) hx)
  have htarget : ∀ x ∈ footprint target c,
      pushed (saved s source target) c source back arg x = saved s source target x := fun x hx =>
    pushed_of_notMem (Set.disjoint_left.mp (footprint_target h) hx)
  have hshort : span (c.esp - 12) 12 ⊆ span (c.esp - 12) 20 := span_mono (by decide)
  have hpreempt : ∀ area, Disjoint (span (c.esp - 12) 20) (span area 36) →
      load (pushed (saved s source target) c source back arg) (area + 20) =
        load (saved s source target) (area + 20) := fun area harea =>
    load_congr fun x hx => pushed_of_notMem (Set.disjoint_right.mp (harea.mono_left hshort)
      (span_subset (by decide) hx))
  exact {
    esp := entry_esp
    back := by
      rw [State.top, entry_esp, entry_mem, pushed, show c.esp - 4 - 4 - 4 = c.esp - 12 by ring,
        load_store]
    first := by
      rw [entry_esp, entry_mem, pushed, show c.esp - 4 - 4 - 4 = c.esp - 12 by ring,
        show c.esp - 4 - 4 = c.esp - 12 + 4 by ring, load_store_first (by decide) (by decide),
        load_store]
    second := by
      rw [entry_esp, entry_mem, pushed, show c.esp - 4 - 4 - 4 = c.esp - 12 by ring,
        show c.esp - 4 - 4 = c.esp - 12 + 4 by ring, show c.esp - 4 = c.esp - 12 + 8 by ring,
        load_store_first (by decide) (by decide), load_store_offset (by decide) (by decide),
        load_store]
    disabled := getLsbD_setFlag s.eflags (by decide) false
    cr2 := rfl
    cr3 := load_saved_target h (by decide) (by decide)
    cs := rfl
    ss := rfl
    sourceKept := (suspended_source h).congr hsource
    targetKept := (suspended_target h ht).congr htarget
    sourcePreempt := (hpreempt source h.targetSource).trans (source_preempt h)
    targetPreempt := (hpreempt target h.targetTarget).trans (load_store _ _ _)
    ebx := rfl
    ebp := rfl
    esi := rfl
    edi := rfl }

def leave (r : State) : State :=
  { r with
    reg := Function.update r.reg .esp (r.reg .esp + 8 + 4 + 4)
    eflags := load r.mem (r.reg .esp + 8)
    eip := load r.mem (r.reg .esp + 8 + 4) }

theorem steps_afterAction (ext : Functions) (r : State) :
    ∃ v, steps ext [.add (.imm 8) (.reg .esp), .popf] r = some v ∧ v.ret = leave r := by
  refine ⟨_, rfl, ?_⟩
  simp only [State.ret, State.drop, State.write, State.set, State.top, State.look, State.read, leave,
    Function.update_self, Function.update_idem]

theorem ends_iff (A : Arguments s source target action arg) (h : Apart s source target c)
    (ht : Suspended s.mem target c) {t : State} :
    Ends ext (gheith_contextSwitch back) s t ↔
      ∃ r, ext action (entry s source target action back arg c) = some r ∧ r.eip = back ∧
        leave r = t := by
  have hkept := suspended_target h ht
  have hframe : ∀ i : Word, i.toNat + 4 ≤ 24 → 4 ≤ i.toNat →
      load (saved s source target) (s.reg .esp - 4 + i) = load s.mem (s.reg .esp + (i - 4)) :=
    fun i hi hbehind => (load_saved_frame h hi hbehind).trans (congrArg _ (by ring))
  have harg : load (saved s source target) (s.reg .esp - 4 + 20) = arg :=
    (hframe 20 (by decide) (by decide)).trans A.arg
  have hsource : load (store (saved s source target) (c.esp - 4) arg) (s.reg .esp - 4 + 8) =
      source := by
    rw [show c.esp - 4 = c.esp - 12 + 8 by ring, load_store_apart h.frames (by decide) (by decide)]
    exact (hframe 8 (by decide) (by decide)).trans A.source
  have hrestore : steps ext restoreTarget (afterSave s source target action) =
      some (afterRestore (afterSave s source target action) source arg c) :=
    steps_restoreTarget hkept harg hsource
  have hstraight : ∀ instr ∈ saveSource ++ restoreTarget ++ callAction back, instr.Straight := by
    simp [saveSource, restoreTarget, callAction, Instr.Straight]
  rw [gheith_contextSwitch, ends_ret hstraight, steps_append, steps_append, steps_saveSource A,
    Option.bind_some, hrestore, Option.bind_some, callAction]
  have hcall : ∀ {v}, steps ext [.callReg .edx back, .add (.imm 8) (.reg .esp), .popf]
      (afterRestore (afterSave s source target action) source arg c) = some v ↔
        ∃ r, ext action (entry s source target action back arg c) = some r ∧ r.eip = back ∧
          steps ext [.add (.imm 8) (.reg .esp), .popf] r = some v := steps_call rfl
  constructor
  · rintro ⟨v, hv, rfl⟩
    obtain ⟨r, hr, heip, hrest⟩ := hcall.mp hv
    obtain ⟨w, hw, hleave⟩ := steps_afterAction ext r
    rw [hw, Option.some.injEq] at hrest
    exact ⟨r, hr, heip, hrest ▸ hleave.symm⟩
  · rintro ⟨r, hr, heip, rfl⟩
    obtain ⟨w, hw, hleave⟩ := steps_afterAction ext r
    exact ⟨w, hcall.mpr ⟨r, hr, heip, hw⟩, hleave⟩

theorem resumed_of_cdecl {kept : Set Word} {r : State} (h : Apart s source target c)
    (ht : Suspended s.mem target c) (hkept : span c.esp 8 ⊆ kept)
    (hr : Cdecl kept (entry s source target action back arg c) r) : Resumed c (leave r).toCpu := by
  have e := entry_spec action back arg h ht
  have hesp : r.reg .esp = c.esp - 12 + 4 := by rw [hr.esp, e.esp]
  have hload : ∀ i : Word, i.toNat + 4 ≤ 8 → load r.mem (c.esp + i) =
      load (entry s source target action back arg c).mem (c.esp + i) := fun i hi =>
    load_congr fun x hx => hr.mem x (hkept (span_subset hi hx))
  exact {
    ebx := hr.ebx.trans e.ebx
    esp := by
      have hleave : (leave r).reg .esp = r.reg .esp + 8 + 4 + 4 := rfl
      rw [hleave, hesp]
      ring
    ebp := hr.ebp.trans e.ebp
    esi := hr.esi.trans e.esi
    edi := hr.edi.trans e.edi
    eflags := by
      change load r.mem (r.reg .esp + 8) = _
      rw [hesp, show c.esp - 12 + 4 + 8 = c.esp + 0 by ring, hload 0 (by decide),
        e.targetKept.eflags]
    eip := by
      change load r.mem (r.reg .esp + 8 + 4) = _
      rw [hesp, show c.esp - 12 + 4 + 8 + 4 = c.esp + 4 by ring, hload 4 (by decide),
        e.targetKept.eip] }

end OsShell.ContextSwitch
