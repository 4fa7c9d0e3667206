import OsShell.Library.Machine

/-!
# Interrupts of the 32-bit x86

The processor enters a handler through a gate, on the stack of the inner ring when the
ring changes, with what it was doing in a frame on that stack; `iret` takes the frame
back. Handlers keep the registers with `pusha` and `popa`, each of which undoes the
other.
-/

namespace OsShell.Machine

open AddressSpace

structure Gate where
  selector : Word
  offset : Word
  /-- an interrupt gate disables interrupts, a trap gate does not -/
  interrupt : Bool
  /-- the outermost ring from which `int` may use it -/
  dpl : ℕ

/-- TF, NT, RF and VM are cleared, and IF by an interrupt gate. -/
def entryFlags (f : Word) (interrupt : Bool) : Word :=
  let f := setFlag (setFlag (setFlag (setFlag f 8 false) 14 false) 16 false) 17 false
  if interrupt then setFlag f flagIF false else f

def Gate.Inward (g : Gate) (s : State) : Prop := (g.selector &&& 3).toNat < s.cpl

instance (g : Gate) (s : State) : Decidable (g.Inward s) := inferInstanceAs (Decidable (_ < _))

/-- The stack that the frame is put on; the task state segment has the inner ring's. -/
def Gate.stack (g : Gate) (esp0 ss0 : Word) (s : State) : State :=
  if g.Inward s then ({ s.set .esp esp0 with ss := ss0 }.push s.ss).push (s.reg .esp) else s

def deliver (g : Gate) (esp0 ss0 : Word) (s : State) : State :=
  { (((g.stack esp0 ss0 s).push s.eflags).push s.cs).push s.eip with
    cs := g.selector
    eip := g.offset
    eflags := entryFlags s.eflags g.interrupt }

def Gate.frameSize (g : Gate) (s : State) : ℕ := if g.Inward s then 20 else 12

theorem Gate.frameSize_le (g : Gate) (s : State) : g.frameSize s ≤ 20 := by
  unfold Gate.frameSize
  split <;> omega

structure Continues (s t : State) : Prop where
  reg : t.reg = s.reg
  eflags : t.eflags = s.eflags
  eip : t.eip = s.eip
  cs : t.cs = s.cs
  ss : t.ss = s.ss

section Deliver

variable {g : Gate} {esp0 ss0 : Word} {s r : State}

theorem deliver_reg {q : Reg} (hq : q ≠ .esp) : (deliver g esp0 ss0 s).reg q = s.reg q := by
  have hstack : (g.stack esp0 ss0 s).reg q = s.reg q := by
    unfold Gate.stack
    split
    · rw [State.push_reg _ _ hq, State.push_reg _ _ hq]
      exact Function.update_of_ne hq _ _
    · rfl
  change ((((g.stack esp0 ss0 s).push s.eflags).push s.cs).push s.eip).reg q = _
  rw [State.push_reg _ _ hq, State.push_reg _ _ hq, State.push_reg _ _ hq, hstack]

theorem deliver_cr2 : (deliver g esp0 ss0 s).cr2 = s.cr2 := by
  unfold deliver Gate.stack
  split <;> rfl

theorem deliver_inward (esp0 ss0 : Word) (h : g.Inward s) :
    (deliver g esp0 ss0 s).reg .esp = esp0 - 20 ∧ (deliver g esp0 ss0 s).ss = ss0 ∧
      (deliver g esp0 ss0 s).mem = store (store (store (store (store s.mem (esp0 - 20 + 16) s.ss)
        (esp0 - 20 + 12) (s.reg .esp)) (esp0 - 20 + 8) s.eflags) (esp0 - 20 + 4) s.cs)
        (esp0 - 20 + 0) s.eip := by
  have hstack : g.stack esp0 ss0 s =
      ({ s.set .esp esp0 with ss := ss0 }.push s.ss).push (s.reg .esp) := if_pos h
  unfold deliver
  rw [hstack]
  refine ⟨?_, rfl, ?_⟩
  · change esp0 - 4 - 4 - 4 - 4 - 4 = _
    ring
  · change store (store (store (store (store s.mem (esp0 - 4) s.ss) (esp0 - 4 - 4) (s.reg .esp))
      (esp0 - 4 - 4 - 4) s.eflags) (esp0 - 4 - 4 - 4 - 4) s.cs) (esp0 - 4 - 4 - 4 - 4 - 4) s.eip = _
    rw [show esp0 - 4 - 4 - 4 - 4 - 4 = esp0 - 20 + 0 by ring,
      show esp0 - 4 - 4 - 4 - 4 = esp0 - 20 + 4 by ring,
      show esp0 - 4 - 4 - 4 = esp0 - 20 + 8 by ring, show esp0 - 4 - 4 = esp0 - 20 + 12 by ring,
      show esp0 - 4 = esp0 - 20 + 16 by ring]

theorem deliver_same (esp0 ss0 : Word) (h : ¬ g.Inward s) :
    (deliver g esp0 ss0 s).reg .esp = s.reg .esp - 12 ∧ (deliver g esp0 ss0 s).ss = s.ss ∧
      (deliver g esp0 ss0 s).mem = store (store (store s.mem (s.reg .esp - 12 + 8) s.eflags)
        (s.reg .esp - 12 + 4) s.cs) (s.reg .esp - 12 + 0) s.eip := by
  have hstack : g.stack esp0 ss0 s = s := if_neg h
  unfold deliver
  rw [hstack]
  refine ⟨?_, rfl, ?_⟩
  · change s.reg .esp - 4 - 4 - 4 = _
    ring
  · change store (store (store s.mem (s.reg .esp - 4) s.eflags) (s.reg .esp - 4 - 4) s.cs)
      (s.reg .esp - 4 - 4 - 4) s.eip = _
    rw [show s.reg .esp - 4 - 4 - 4 = s.reg .esp - 12 + 0 by ring,
      show s.reg .esp - 4 - 4 = s.reg .esp - 12 + 4 by ring,
      show s.reg .esp - 4 = s.reg .esp - 12 + 8 by ring]

theorem deliver_mem {x : Word} (hx : x ∉ span ((deliver g esp0 ss0 s).reg .esp) (g.frameSize s)) :
    (deliver g esp0 ss0 s).mem x = s.mem x := by
  unfold Gate.frameSize at hx
  by_cases h : g.Inward s
  · obtain ⟨hesp, -, hmem⟩ := deliver_inward esp0 ss0 h
    rw [hesp, if_pos h] at hx
    have hword : ∀ i : Word, i.toNat + 4 ≤ 20 → x ∉ span (esp0 - 20 + i) 4 :=
      fun i hi hin => hx (span_subset hi hin)
    rw [hmem, store_of_notMem (hword _ (by decide)), store_of_notMem (hword _ (by decide)),
      store_of_notMem (hword _ (by decide)), store_of_notMem (hword _ (by decide)),
      store_of_notMem (hword _ (by decide))]
  · obtain ⟨hesp, -, hmem⟩ := deliver_same esp0 ss0 h
    rw [hesp, if_neg h] at hx
    have hword : ∀ i : Word, i.toNat + 4 ≤ 12 → x ∉ span (s.reg .esp - 12 + i) 4 :=
      fun i hi hin => hx (span_subset hi hin)
    rw [hmem, store_of_notMem (hword _ (by decide)), store_of_notMem (hword _ (by decide)),
      store_of_notMem (hword _ (by decide))]

theorem iret_mem (r : State) : r.iret.mem = r.mem := by
  simp only [State.iret]
  split <;> rfl

theorem iret_deliver (hg : g.selector &&& 3 = 0) (hcs : s.cs &&& 0xffff = s.cs)
    (hss : s.ss &&& 0xffff = s.ss) (hesp : r.reg .esp = (deliver g esp0 ss0 s).reg .esp)
    (hring : r.cs = g.selector) (hstack : r.ss = (deliver g esp0 ss0 s).ss)
    (hmem : ∀ x ∈ span (r.reg .esp) (g.frameSize s), r.mem x = (deliver g esp0 ss0 s).mem x) :
    (∀ q, r.iret.reg q = if q = .esp then s.reg .esp else r.reg q) ∧ r.iret.eflags = s.eflags ∧
      r.iret.eip = s.eip ∧ r.iret.cs = s.cs ∧ r.iret.ss = s.ss := by
  have hinner : r.cpl = 0 := by
    rw [State.cpl, hring, hg]
    rfl
  have hword : ∀ i : Word, i.toNat + 4 ≤ g.frameSize s →
      load r.mem (r.reg .esp + i) = load (deliver g esp0 ss0 s).mem (r.reg .esp + i) := fun i hi =>
    load_congr fun x hx => hmem x (span_subset hi hx)
  unfold Gate.frameSize at hword
  by_cases h : g.Inward s
  · obtain ⟨hdeliver, -, hdmem⟩ := deliver_inward esp0 ss0 h
    rw [if_pos h, hesp, hdeliver, hdmem] at hword
    have heip : load r.mem (esp0 - 20 + 0) = s.eip := by
      rw [hword 0 (by decide)]
      exact load_store _ _ _
    have hcs' : load r.mem (esp0 - 20 + 4) = s.cs := by
      rw [hword 4 (by decide)]
      simp (disch := decide) only [load_store_offset, load_store]
    have heflags : load r.mem (esp0 - 20 + 8) = s.eflags := by
      rw [hword 8 (by decide)]
      simp (disch := decide) only [load_store_offset, load_store]
    have hesp' : load r.mem (esp0 - 20 + 12) = s.reg .esp := by
      rw [hword 12 (by decide)]
      simp (disch := decide) only [load_store_offset, load_store]
    have hss' : load r.mem (esp0 - 20 + 16) = s.ss := by
      rw [hword 16 (by decide)]
      simp (disch := decide) only [load_store_offset, load_store]
    have houter : s.cpl ≠ 0 := by
      unfold Gate.Inward at h
      omega
    have hlt : 0 < (s.cs &&& 3).toNat := Nat.pos_of_ne_zero houter
    rw [State.iret, hinner, hesp, hdeliver]
    simp only [heip, hcs', heflags, hesp', hss', hcs, hss, State.cpl, hlt, if_true]
    refine ⟨fun q => ?_, rfl, rfl, rfl, trivial⟩
    cases q <;> rfl
  · obtain ⟨hdeliver, hdss, hdmem⟩ := deliver_same esp0 ss0 h
    rw [if_neg h, hesp, hdeliver, hdmem] at hword
    have heip : load r.mem (s.reg .esp - 12 + 0) = s.eip := by
      rw [hword 0 (by decide)]
      exact load_store _ _ _
    have hcs' : load r.mem (s.reg .esp - 12 + 4) = s.cs := by
      rw [hword 4 (by decide)]
      simp (disch := decide) only [load_store_offset, load_store]
    have heflags : load r.mem (s.reg .esp - 12 + 8) = s.eflags := by
      rw [hword 8 (by decide)]
      simp (disch := decide) only [load_store_offset, load_store]
    have hzero : (s.cs &&& 3).toNat = 0 := by
      unfold Gate.Inward State.cpl at h
      rw [hg] at h
      exact Nat.eq_zero_of_not_pos h
    rw [State.iret, hinner, hesp, hdeliver]
    simp only [heip, hcs', heflags, hcs, State.cpl, hzero, lt_irrefl, if_false]
    refine ⟨fun q => ?_, trivial, trivial, trivial, hstack.trans hdss⟩
    by_cases hq : q = .esp
    · rw [hq, if_pos rfl]
      change r.reg .esp + 12 = _
      rw [hesp, hdeliver, sub_add_cancel]
    · rw [if_neg hq]
      exact Function.update_of_ne hq _ _

theorem continues_iret (hg : g.selector &&& 3 = 0) (hcs : s.cs &&& 0xffff = s.cs)
    (hss : s.ss &&& 0xffff = s.ss) (hreg : r.reg = (deliver g esp0 ss0 s).reg)
    (hring : r.cs = g.selector) (hstack : r.ss = (deliver g esp0 ss0 s).ss)
    (hmem : ∀ x ∈ span ((deliver g esp0 ss0 s).reg .esp) (g.frameSize s),
      r.mem x = (deliver g esp0 ss0 s).mem x) : Continues s r.iret := by
  obtain ⟨hback, heflags, heip, hcs', hss'⟩ := iret_deliver hg hcs hss (congrFun hreg .esp) hring
    hstack (by rw [hreg]; exact hmem)
  refine ⟨funext fun q => ?_, heflags, heip, hcs', hss'⟩
  rw [hback q, hreg]
  by_cases hq : q = .esp
  · rw [if_pos hq, hq]
  · rw [if_neg hq, deliver_reg hq]

end Deliver

/-! ## All registers at once -/

variable {s r : State}

theorem pusha_esp (s : State) : s.pusha.reg .esp = s.reg .esp - 32 := by
  change s.reg .esp - 4 - 4 - 4 - 4 - 4 - 4 - 4 - 4 = _
  ring

theorem pusha_mem (s : State) : s.pusha.mem = store (store (store (store (store (store (store
    (store s.mem (s.reg .esp - 32 + 28) (s.reg .eax)) (s.reg .esp - 32 + 24) (s.reg .ecx))
    (s.reg .esp - 32 + 20) (s.reg .edx)) (s.reg .esp - 32 + 16) (s.reg .ebx))
    (s.reg .esp - 32 + 12) (s.reg .esp)) (s.reg .esp - 32 + 8) (s.reg .ebp))
    (s.reg .esp - 32 + 4) (s.reg .esi)) (s.reg .esp - 32 + 0) (s.reg .edi) := by
  rw [show s.reg .esp - 32 + 28 = s.reg .esp - 4 by ring,
    show s.reg .esp - 32 + 24 = s.reg .esp - 4 - 4 by ring,
    show s.reg .esp - 32 + 20 = s.reg .esp - 4 - 4 - 4 by ring,
    show s.reg .esp - 32 + 16 = s.reg .esp - 4 - 4 - 4 - 4 by ring,
    show s.reg .esp - 32 + 12 = s.reg .esp - 4 - 4 - 4 - 4 - 4 by ring,
    show s.reg .esp - 32 + 8 = s.reg .esp - 4 - 4 - 4 - 4 - 4 - 4 by ring,
    show s.reg .esp - 32 + 4 = s.reg .esp - 4 - 4 - 4 - 4 - 4 - 4 - 4 by ring,
    show s.reg .esp - 32 + 0 = s.reg .esp - 4 - 4 - 4 - 4 - 4 - 4 - 4 - 4 by ring]
  rfl

theorem pusha_of_notMem {x : Word} (hx : x ∉ span (s.reg .esp - 32) 32) :
    s.pusha.mem x = s.mem x := by
  have hword : ∀ i : Word, i.toNat + 4 ≤ 32 → x ∉ span (s.reg .esp - 32 + i) 4 :=
    fun i hi hin => hx (span_subset hi hin)
  rw [pusha_mem, store_of_notMem (hword _ (by decide)), store_of_notMem (hword _ (by decide)),
    store_of_notMem (hword _ (by decide)), store_of_notMem (hword _ (by decide)),
    store_of_notMem (hword _ (by decide)), store_of_notMem (hword _ (by decide)),
    store_of_notMem (hword _ (by decide)), store_of_notMem (hword _ (by decide))]

theorem popa_pusha (hesp : r.reg .esp = s.reg .esp - 32)
    (hmem : ∀ x ∈ span (s.reg .esp - 32) 32, r.mem x = s.pusha.mem x) : r.popa.reg = s.reg := by
  have hword : ∀ i : Word, i.toNat + 4 ≤ 32 →
      load r.mem (s.reg .esp - 32 + i) = load s.pusha.mem (s.reg .esp - 32 + i) := fun i hi =>
    load_congr fun x hx => hmem x (span_subset hi hx)
  rw [pusha_mem] at hword
  funext q
  cases q with
  | edi =>
    change load r.mem (r.reg .esp) = _
    rw [hesp, show s.reg .esp - 32 = s.reg .esp - 32 + 0 by ring, hword 0 (by decide)]
    exact load_store _ _ _
  | esi =>
    change load r.mem (r.reg .esp + 4) = _
    rw [hesp, hword 4 (by decide)]
    simp (disch := decide) only [load_store_offset, load_store]
  | ebp =>
    change load r.mem (r.reg .esp + 4 + 4) = _
    rw [hesp, show s.reg .esp - 32 + 4 + 4 = s.reg .esp - 32 + 8 by ring, hword 8 (by decide)]
    simp (disch := decide) only [load_store_offset, load_store]
  | ebx =>
    change load r.mem (r.reg .esp + 4 + 4 + 4 + 4) = _
    rw [hesp, show s.reg .esp - 32 + 4 + 4 + 4 + 4 = s.reg .esp - 32 + 16 by ring,
      hword 16 (by decide)]
    simp (disch := decide) only [load_store_offset, load_store]
  | edx =>
    change load r.mem (r.reg .esp + 4 + 4 + 4 + 4 + 4) = _
    rw [hesp, show s.reg .esp - 32 + 4 + 4 + 4 + 4 + 4 = s.reg .esp - 32 + 20 by ring,
      hword 20 (by decide)]
    simp (disch := decide) only [load_store_offset, load_store]
  | ecx =>
    change load r.mem (r.reg .esp + 4 + 4 + 4 + 4 + 4 + 4) = _
    rw [hesp, show s.reg .esp - 32 + 4 + 4 + 4 + 4 + 4 + 4 = s.reg .esp - 32 + 24 by ring,
      hword 24 (by decide)]
    simp (disch := decide) only [load_store_offset, load_store]
  | eax =>
    change load r.mem (r.reg .esp + 4 + 4 + 4 + 4 + 4 + 4 + 4) = _
    rw [hesp, show s.reg .esp - 32 + 4 + 4 + 4 + 4 + 4 + 4 + 4 = s.reg .esp - 32 + 28 by ring,
      hword 28 (by decide)]
    simp (disch := decide) only [load_store_offset, load_store]
  | esp =>
    change r.reg .esp + 4 + 4 + 4 + 4 + 4 + 4 + 4 + 4 = _
    rw [hesp]
    ring

end OsShell.Machine
