import OsShell.Library.AddressSpace

/-!
# A part of the 32-bit x86

The instructions that a kernel's assembly routines are made of, for code that runs
in a flat address space. A routine is a list of instructions, run from its first one
until `ret` or `iret` leaves it; jumps go to a place in the list. The functions that
a routine calls are not instructions here: `ext` says, for the address of a function
and the state at its entry, in which state it comes back. Every operand of a stack
instruction is a 32-bit word. Of the flags, `or` leaves AF as it was, where the
processor's manual leaves it open.
-/

namespace OsShell.Machine

open AddressSpace

inductive Reg
  | eax
  | ebx
  | ecx
  | edx
  | esi
  | edi
  | ebp
  | esp
deriving DecidableEq

structure Cpu where
  reg : Reg → Word
  eflags : Word
  eip : Word
  cs : Word
  ss : Word
  cr2 : Word
  cr3 : Word

structure State extends Cpu where
  mem : Memory

/-! ## Flags -/

def flagIF : ℕ := 9

def setFlag (f : Word) (i : ℕ) (b : Bool) : Word :=
  if b then f ||| .twoPow 32 i else f &&& ~~~ .twoPow 32 i

theorem getLsbD_setFlag (f : Word) {i : ℕ} (hi : i < 32) (b : Bool) :
    (setFlag f i b).getLsbD i = b := by
  cases b <;> simp [setFlag, hi]

theorem getLsbD_setFlag_of_ne (f : Word) {i j : ℕ} (h : j ≠ i) (b : Bool) :
    (setFlag f i b).getLsbD j = f.getLsbD j := by
  cases b with
  | true => simp [setFlag, h.symm]
  | false =>
    by_cases hj : j < 32
    · simp [setFlag, hj, h]
    · simp [setFlag, BitVec.getLsbD_of_ge _ _ (not_lt.mp hj)]

def signFlag (f : Word) : Bool := f.getLsbD 7

def overflowFlag (f : Word) : Bool := f.getLsbD 11

def resultFlags (f r : Word) : Word :=
  let f := setFlag f 2 ((List.range 8).countP (r.getLsbD ·) % 2 = 0)
  let f := setFlag f 6 (r = 0)
  setFlag f 7 r.msb

def addFlags (f a b : Word) : Word :=
  let r := a + b
  let f := setFlag f 0 (2 ^ 32 ≤ a.toNat + b.toNat)
  let f := setFlag f 4 (16 ≤ a.toNat % 16 + b.toNat % 16)
  let f := setFlag f 11 (a.msb = b.msb ∧ r.msb ≠ a.msb)
  resultFlags f r

theorem signFlag_addFlags (f a b : Word) : signFlag (addFlags f a b) = (a + b).msb :=
  getLsbD_setFlag _ (by decide) _

theorem overflowFlag_addFlags (f a b : Word) :
    overflowFlag (addFlags f a b) = decide (a.msb = b.msb ∧ (a + b).msb ≠ a.msb) := by
  simp only [overflowFlag, addFlags, resultFlags]
  rw [getLsbD_setFlag_of_ne _ (by decide), getLsbD_setFlag_of_ne _ (by decide),
    getLsbD_setFlag_of_ne _ (by decide), getLsbD_setFlag _ (by decide)]

/-- After a signed word has been counted down, "less" means that it was not positive. -/
theorem countdown_iff (f a : Word) :
    signFlag (addFlags f a (-1)) = overflowFlag (addFlags f a (-1)) ↔
      0 < a.toNat ∧ a.toNat < 2 ^ 31 := by
  have hlast : (a + -1).toNat = (a.toNat + (2 ^ 32 - 1)) % 2 ^ 32 := BitVec.toNat_add a (-1)
  rw [signFlag_addFlags, overflowFlag_addFlags, show (-1 : Word).msb = true from rfl,
    BitVec.msb_eq_decide, BitVec.msb_eq_decide, hlast]
  have ha := a.isLt
  rcases Nat.lt_or_ge a.toNat (2 ^ 31) with hlow | hhigh
  · have hmsb : ¬ 2 ^ (32 - 1) ≤ a.toNat := by omega
    simp only [hmsb, decide_false, Bool.false_eq_true, false_and, decide_eq_false_iff_not]
    omega
  · have hmsb : 2 ^ (32 - 1) ≤ a.toNat := by omega
    simp only [hmsb, decide_true, true_and, ne_eq, decide_eq_true_eq, decide_eq_decide]
    omega

def orFlags (f a b : Word) : Word :=
  resultFlags (setFlag (setFlag f 0 false) 11 false) (a ||| b)

/-! ## Operands -/

inductive Place
  | reg (r : Reg)
  /-- `disp(%base)` -/
  | mem (disp : Word) (base : Reg)
  | abs (a : Word)

inductive Operand
  | imm (v : Word)
  | at (p : Place)

abbrev Operand.reg (r : Reg) : Operand := .at (.reg r)

abbrev Operand.mem (disp : Word) (base : Reg) : Operand := .at (.mem disp base)

inductive ByteOperand
  | imm (v : UInt8)
  /-- `%al`, `%bl`, `%cl` or `%dl` -/
  | low (r : Reg)

namespace State

def set (s : State) (r : Reg) (v : Word) : State := { s with reg := Function.update s.reg r v }

def look (s : State) : Place → Word
  | .reg r => s.reg r
  | .mem disp base => load s.mem (s.reg base + disp)
  | .abs a => load s.mem a

def read (s : State) : Operand → Word
  | .imm v => v
  | .at p => s.look p

def write (s : State) (p : Place) (v : Word) : State :=
  match p with
  | .reg r => s.set r v
  | .mem disp base => { s with mem := store s.mem (s.reg base + disp) v }
  | .abs a => { s with mem := store s.mem a v }

def readByte (s : State) : ByteOperand → UInt8
  | .imm v => v
  | .low r => byte (s.reg r) 0

def setLow (s : State) (r : Reg) (v : UInt8) : State :=
  s.set r ((s.reg r &&& 0xffffff00) ||| .ofNat 32 v.toNat)

def push (s : State) (v : Word) : State :=
  { s.set .esp (s.reg .esp - 4) with mem := store s.mem (s.reg .esp - 4) v }

def top (s : State) : Word := load s.mem (s.reg .esp)

def drop (s : State) (n : Word) : State := s.set .esp (s.reg .esp + n)

def pop (s : State) (r : Reg) : State := (s.drop 4).set r s.top

def pusha (s : State) : State :=
  let esp := s.reg .esp
  (((((((s.push (s.reg .eax)).push (s.reg .ecx)).push (s.reg .edx)).push (s.reg .ebx)).push
    esp).push (s.reg .ebp)).push (s.reg .esi)).push (s.reg .edi)

def popa (s : State) : State :=
  (((((((s.pop .edi).pop .esi).pop .ebp).drop 4).pop .ebx).pop .edx).pop .ecx).pop .eax

/-- The ring that the code runs in. -/
def cpl (s : State) : ℕ := (s.cs &&& 3).toNat

def ret (s : State) : State := { s.drop 4 with eip := s.top }

/-- To the same ring or to an outer one; in the second case the stack is the outer ring's again. -/
def iret (s : State) : State :=
  let word (i : Word) := load s.mem (s.reg .esp + i)
  let t := { s.drop 12 with eip := word 0, cs := word 4 &&& 0xffff, eflags := word 8 }
  if s.cpl < t.cpl then { t.set .esp (word 12) with ss := word 16 &&& 0xffff } else t

variable (s : State) (v : Word) {q r : Reg}

theorem set_reg_of_ne (h : q ≠ r) : (s.set r v).reg q = s.reg q := Function.update_of_ne h _ _

theorem push_esp : (s.push v).reg .esp = s.reg .esp - 4 := rfl

theorem push_reg (h : q ≠ .esp) : (s.push v).reg q = s.reg q := Function.update_of_ne h _ _

theorem push_mem : (s.push v).mem = store s.mem (s.reg .esp - 4) v := rfl

end State

/-! ## Instructions -/

inductive Instr
  | mov (src : Operand) (dst : Place)
  /-- `movb (%base),%dst` -/
  | movbFrom (base dst : Reg)
  /-- `movb src,(%base)`, with an index register or without -/
  | movbTo (src : ByteOperand) (base : Reg) (index : Option Reg)
  | add (src : Operand) (dst : Place)
  | or (src : Operand) (dst : Place)
  | push (src : Operand)
  | pop (dst : Reg)
  | pushf
  | popf
  | pusha
  | popa
  | cli
  | movFromCr2 (dst : Reg)
  | movToCr2 (src : Reg)
  | movToCr3 (src : Reg)
  /-- to the instruction with this number, if the signed comparison said "less" -/
  | jl (target : ℕ)
  | jmp (target : ℕ)
  /-- of the function at `f`; `back` is the address behind the instruction -/
  | call (f back : Word)
  | callReg (r : Reg) (back : Word)
  /-- `int $vector`; `back` is the address behind the instruction -/
  | int (vector back : Word)
  | ret
  | iret

inductive Flow
  | next (s : State)
  | jump (target : ℕ) (s : State)
  | leave (s : State)

/-- What a call of the function at an address does, from its entry to its return. At the number of
an interrupt it is what `int` does, up to the next instruction. -/
abbrev Functions := Word → State → Option State

def comesBack (ext : Functions) (f back : Word) (s : State) : Option Flow :=
  (ext f s).bind fun t => if t.eip = back then some (.next t) else none

def callFunction (ext : Functions) (f back : Word) (s : State) : Option Flow :=
  comesBack ext f back (s.push back)

def Instr.exec (ext : Functions) (s : State) : Instr → Option Flow
  | .mov src dst => some (.next (s.write dst (s.read src)))
  | .movbFrom base dst => some (.next (s.setLow dst (s.mem (s.reg base))))
  | .movbTo src base index =>
    let a := s.reg base + (index.map s.reg).getD 0
    some (.next { s with mem := storeByte s.mem a (s.readByte src) })
  | .add src dst =>
    let a := s.look dst
    let b := s.read src
    some (.next { s.write dst (a + b) with eflags := addFlags s.eflags a b })
  | .or src dst =>
    let a := s.look dst
    let b := s.read src
    some (.next { s.write dst (a ||| b) with eflags := orFlags s.eflags a b })
  | .push src => some (.next (s.push (s.read src)))
  | .pop dst => some (.next (s.pop dst))
  | .pushf => some (.next (s.push s.eflags))
  | .popf => some (.next { s.drop 4 with eflags := s.top })
  | .pusha => some (.next s.pusha)
  | .popa => some (.next s.popa)
  | .cli => some (.next { s with eflags := setFlag s.eflags flagIF false })
  | .movFromCr2 dst => some (.next (s.set dst s.cr2))
  | .movToCr2 src => some (.next { s with cr2 := s.reg src })
  | .movToCr3 src => some (.next { s with cr3 := s.reg src })
  | .jl target =>
    some (if signFlag s.eflags = overflowFlag s.eflags then .next s else .jump target s)
  | .jmp target => some (.jump target s)
  | .call f back => callFunction ext f back s
  | .callReg r back => callFunction ext (s.reg r) back s
  | .int vector back => comesBack ext vector back { s with eip := back }
  | .ret => some (.leave s.ret)
  | .iret => some (.leave s.iret)

def run (ext : Functions) (code : List Instr) : ℕ → ℕ → State → Option State
  | 0, _, _ => none
  | fuel + 1, i, s =>
    match code[i]? with
    | none => none
    | some instr =>
      match instr.exec ext s with
      | none => none
      | some (.next s) => run ext code fuel (i + 1) s
      | some (.jump target s) => run ext code fuel target s
      | some (.leave s) => some s

/-- A stretch of instructions without jumps. -/
def steps (ext : Functions) : List Instr → State → Option State
  | [], s => some s
  | instr :: code, s =>
    match instr.exec ext s with
    | some (.next s) => steps ext code s
    | _ => none

/-- Begun in state `s` at its first instruction, the routine is left in state `t`. -/
def Ends (ext : Functions) (code : List Instr) (s t : State) : Prop :=
  ∃ fuel, run ext code fuel 0 s = some t

theorem run_add {ext : Functions} {code : List Instr} {fuel i : ℕ} {s t : State} (k : ℕ)
    (h : run ext code fuel i s = some t) : run ext code (fuel + k) i s = some t := by
  induction fuel generalizing i s with
  | zero => nomatch h
  | succ fuel ih =>
    rw [Nat.add_right_comm, run]
    rw [run] at h
    split at h
    · nomatch h
    · split at h
      · nomatch h
      · exact ih h
      · exact ih h
      · exact h

theorem steps_append {ext : Functions} {a b : List Instr} {s : State} :
    steps ext (a ++ b) s = (steps ext a s).bind (steps ext b) := by
  induction a generalizing s with
  | nil => rfl
  | cons instr a ih =>
    rw [List.cons_append, steps, steps]
    split
    · exact ih
    · rfl

theorem steps_comesBack {ext : Functions} {instr : Instr} {f back : Word} {code : List Instr}
    {s e v : State} (hexec : instr.exec ext s = comesBack ext f back e) :
    steps ext (instr :: code) s = some v ↔
      ∃ r, ext f e = some r ∧ r.eip = back ∧ steps ext code r = some v := by
  rw [steps, hexec, comesBack]
  cases ext f e with
  | none => simp
  | some r =>
    by_cases heip : r.eip = back
    · simp [heip]
    · simp [heip]

theorem steps_call {ext : Functions} {instr : Instr} {f back : Word} {code : List Instr} {s v : State}
    (hcall : instr.exec ext s = callFunction ext f back s) :
    steps ext (instr :: code) s = some v ↔
      ∃ r, ext f (s.push back) = some r ∧ r.eip = back ∧ steps ext code r = some v :=
  steps_comesBack hcall

theorem run_steps {ext : Functions} (pre : List Instr) {block : List Instr} (post : List Instr)
    {s t : State} (fuel : ℕ) (h : steps ext block s = some t) :
    run ext (pre ++ block ++ post) (fuel + block.length) pre.length s =
      run ext (pre ++ block ++ post) fuel (pre ++ block).length t := by
  induction block generalizing pre s with
  | nil =>
    rw [steps, Option.some.injEq] at h
    rw [h, List.append_nil, List.length_nil, Nat.add_zero]
  | cons instr block ih =>
    have hget : (pre ++ instr :: block ++ post)[pre.length]? = some instr := by simp
    rw [steps] at h
    split at h
    · rename_i s₁ hexec
      have hnext := ih (pre ++ [instr]) h
      rw [List.length_cons, ← Nat.add_assoc, run, hget]
      simp only [hexec]
      simpa using hnext
    · nomatch h

/-- The instruction is followed by the next one, if it has an effect at all. -/
def Instr.Straight : Instr → Prop
  | .jl _ | .jmp _ | .ret | .iret => False
  | _ => True

theorem Instr.Straight.exec {instr : Instr} (h : instr.Straight) (ext : Functions) (s : State) :
    instr.exec ext s = none ∨ ∃ t, instr.exec ext s = some (.next t) := by
  have hback : ∀ f back e, comesBack ext f back e = none ∨
      ∃ t, comesBack ext f back e = some (.next t) := by
    intro f back e
    unfold comesBack
    cases ext f e with
    | none => exact Or.inl rfl
    | some t =>
      by_cases heip : t.eip = back
      · exact Or.inr ⟨t, by simp [heip]⟩
      · exact Or.inl (by simp [heip])
  cases instr with
  | jl _ => exact h.elim
  | jmp _ => exact h.elim
  | ret => exact h.elim
  | iret => exact h.elim
  | call f back => exact hback f back _
  | callReg r back => exact hback (s.reg r) back _
  | int vector back => exact hback vector back _
  | _ => exact Or.inr ⟨_, rfl⟩

theorem run_of_stuck {ext : Functions} (pre : List Instr) {block : List Instr} (post : List Instr)
    {s : State} (fuel : ℕ)
    (hblock : ∀ instr ∈ block, instr.Straight) (h : steps ext block s = none) :
    run ext (pre ++ block ++ post) fuel pre.length s = none := by
  induction block generalizing pre s fuel with
  | nil => nomatch h
  | cons instr block ih =>
    cases fuel with
    | zero => rfl
    | succ fuel =>
      have hget : (pre ++ instr :: block ++ post)[pre.length]? = some instr := by simp
      rw [run, hget]
      rcases (hblock instr List.mem_cons_self).exec ext s with hexec | ⟨t, hexec⟩
      · simp only [hexec]
      · simp only [hexec]
        rw [steps, hexec] at h
        have hnext := ih (pre ++ [instr]) fuel
          (fun i hi => hblock i (List.mem_cons_of_mem _ hi)) h
        simpa using hnext

theorem ends_iff_steps {ext : Functions} {block : List Instr} {last : Instr} {s u : State}
    (hblock : ∀ instr ∈ block, instr.Straight)
    (hlast : ∀ t, last.exec ext t = none ∨ ∃ u, last.exec ext t = some (.leave u)) :
    Ends ext (block ++ [last]) s u ↔
      ∃ t, steps ext block s = some t ∧ last.exec ext t = some (.leave u) := by
  have hrun : ∀ fuel t, steps ext block s = some t →
      run ext (block ++ [last]) (fuel + 1 + block.length) 0 s =
        match last.exec ext t with
        | some (.leave u) => some u
        | _ => none := by
    intro fuel t ht
    have h := run_steps [] [last] (fuel + 1) ht
    rw [List.nil_append, List.length_nil] at h
    rw [h, run, List.getElem?_concat_length]
    rcases hlast t with hexec | ⟨u, hexec⟩ <;> simp only [hexec]
  constructor
  · rintro ⟨fuel, h⟩
    cases ht : steps ext block s with
    | none =>
      have hnone := run_of_stuck [] [last] fuel hblock ht
      rw [List.nil_append, List.length_nil, h] at hnone
      nomatch hnone
    | some t =>
      have hmore := run_add (1 + block.length) h
      rw [← Nat.add_assoc, hrun fuel t ht] at hmore
      refine ⟨t, rfl, ?_⟩
      rcases hlast t with hexec | ⟨v, hexec⟩
      · simp only [hexec, reduceCtorEq] at hmore
      · simp only [hexec, Option.some.injEq] at hmore
        rw [hexec, hmore]
  · rintro ⟨t, ht, hexec⟩
    refine ⟨1 + block.length, ?_⟩
    have h := hrun 0 t ht
    rwa [hexec, Nat.zero_add] at h

theorem ends_ret {ext : Functions} {block : List Instr} {s u : State}
    (hblock : ∀ instr ∈ block, instr.Straight) :
    Ends ext (block ++ [.ret]) s u ↔ ∃ t, steps ext block s = some t ∧ t.ret = u := by
  rw [ends_iff_steps hblock fun t => Or.inr ⟨t.ret, rfl⟩]
  simp [Instr.exec]

theorem ends_iret {ext : Functions} {block : List Instr} {s u : State}
    (hblock : ∀ instr ∈ block, instr.Straight) :
    Ends ext (block ++ [.iret]) s u ↔ ∃ t, steps ext block s = some t ∧ t.iret = u := by
  rw [ends_iff_steps hblock fun t => Or.inr ⟨t.iret, rfl⟩]
  simp [Instr.exec]

/-- From state `s` at instruction `i` the routine comes to instruction `j` in state `t`. -/
def Goes (ext : Functions) (code : List Instr) (i : ℕ) (s : State) (j : ℕ) (t : State) : Prop :=
  ∃ k, ∀ fuel, run ext code (fuel + k) i s = run ext code fuel j t

section Goes

variable {ext : Functions} {code : List Instr} {i j k : ℕ} {s t u : State} {instr : Instr}

theorem Goes.refl : Goes ext code i s i s := ⟨0, fun _ => rfl⟩

theorem Goes.trans (h : Goes ext code i s j t) (h' : Goes ext code j t k u) :
    Goes ext code i s k u := by
  obtain ⟨m, hm⟩ := h
  obtain ⟨n, hn⟩ := h'
  exact ⟨n + m, fun fuel => by rw [← Nat.add_assoc, hm, hn]⟩

theorem Goes.next (hget : code[i]? = some instr) (hexec : instr.exec ext s = some (.next t)) :
    Goes ext code i s (i + 1) t :=
  ⟨1, fun fuel => by rw [run, hget]; simp only [hexec]⟩

theorem Goes.jump (hget : code[i]? = some instr) (hexec : instr.exec ext s = some (.jump j t)) :
    Goes ext code i s j t :=
  ⟨1, fun fuel => by rw [run, hget]; simp only [hexec]⟩

theorem Goes.ends (h : Goes ext code 0 s j t) (hget : code[j]? = some instr)
    (hexec : instr.exec ext t = some (.leave u)) : Ends ext code s u := by
  obtain ⟨n, hn⟩ := h
  exact ⟨1 + n, by rw [hn, run, hget]; simp only [hexec]⟩

/-- How often a loop goes round that counts a signed word down. -/
def rounds (v : Word) : ℕ := if v.toNat < 2 ^ 31 then v.toNat else 0

/-- `add $-1,%ecx` -/
def State.countdown (s : State) : State :=
  { s.set .ecx (s.reg .ecx + -1) with eflags := addFlags s.eflags (s.reg .ecx) (-1) }

theorem rounds_succ {v : Word} {n : ℕ} (h : rounds v = n + 1) :
    (0 < v.toNat ∧ v.toNat < 2 ^ 31) ∧ rounds (v + -1) = n := by
  unfold rounds at h ⊢
  have hlast : (v + -1).toNat = (v.toNat + (2 ^ 32 - 1)) % 2 ^ 32 := BitVec.toNat_add v (-1)
  split at h
  · rw [hlast, if_pos (by omega)]
    omega
  · nomatch h

theorem rounds_zero {v : Word} (h : rounds v = 0) : ¬ (0 < v.toNat ∧ v.toNat < 2 ^ 31) := by
  unfold rounds at h
  split at h <;> omega

/-- A loop that counts `%ecx` down at instruction `i` and is left to instruction `e`: what its body
keeps, with the number of rounds to go, leads to what is left of it without any. -/
theorem Goes.countdown {P : ℕ → State → Prop} {e : ℕ}
    (hadd : code[i]? = some (.add (.imm (-1)) (.reg .ecx))) (hjl : code[i + 1]? = some (.jl e))
    (hbody : ∀ n s, P (n + 1) s → ∃ t, Goes ext code (i + 2) s.countdown i t ∧
      t.reg .ecx = s.reg .ecx + -1 ∧ P n t)
    {n : ℕ} (hn : rounds (s.reg .ecx) = n) (h : P n s) :
    ∃ t, Goes ext code i s e t.countdown ∧ P 0 t := by
  have hfirst : ∀ s : State, Goes ext code i s (i + 1) s.countdown := fun s => .next hadd rfl
  have hflags : ∀ s : State, signFlag s.countdown.eflags = overflowFlag s.countdown.eflags ↔
      0 < (s.reg .ecx).toNat ∧ (s.reg .ecx).toNat < 2 ^ 31 := fun s => countdown_iff _ _
  induction n generalizing s with
  | zero =>
    have hless := (hflags s).not.mpr (rounds_zero hn)
    refine ⟨s, (hfirst s).trans (.jump hjl ?_), h⟩
    rw [Instr.exec, if_neg hless]
  | succ n ih =>
    obtain ⟨hpos, hnext⟩ := rounds_succ hn
    obtain ⟨t, hgoes, hecx, ht⟩ := hbody n s h
    obtain ⟨u, hrest, hu⟩ := ih (hecx ▸ hnext) ht
    have hstay : Goes ext code (i + 1) s.countdown (i + 2) s.countdown := by
      refine .next hjl ?_
      rw [Instr.exec, if_pos ((hflags s).mpr hpos)]
    exact ⟨u, (hfirst s).trans (hstay.trans (hgoes.trans hrest)), hu⟩

theorem Goes.steps {pre block post : List Instr} (h : steps ext block s = some t) :
    Goes ext (pre ++ block ++ post) pre.length s (pre ++ block).length t :=
  ⟨block.length, fun fuel => run_steps pre post fuel h⟩

end Goes

/-- What the callers of a compiled function rely on, from its entry in state `s` to its return in
state `t`; the bytes in `kept` are the caller's. -/
structure Cdecl (kept : Set Word) (s t : State) : Prop where
  eip : t.eip = s.top
  esp : t.reg .esp = s.reg .esp + 4
  ebx : t.reg .ebx = s.reg .ebx
  ebp : t.reg .ebp = s.reg .ebp
  esi : t.reg .esi = s.reg .esi
  edi : t.reg .edi = s.reg .edi
  cs : t.cs = s.cs
  ss : t.ss = s.ss
  mem : ∀ x ∈ kept, t.mem x = s.mem x

theorem Ends.unique {ext : Functions} {code : List Instr} {s t u : State}
    (ht : Ends ext code s t) (hu : Ends ext code s u) : t = u := by
  obtain ⟨m, hm⟩ := ht
  obtain ⟨n, hn⟩ := hu
  have hmore := run_add n hm
  rw [Nat.add_comm, run_add m hn] at hmore
  exact (Option.some.inj hmore).symm

end OsShell.Machine
