import OsShell.Library.Interrupts

/-!
# The interrupt table

A gate is two words of the table: the kernel's code segment and the low half of the
handler's address in the first, the high half, the kind of the gate and its ring in the
second. `IDT::interrupt` and `IDT::trap` write them; the processor takes them apart.
-/

namespace OsShell.Machine

open AddressSpace

/-- The gate in two words, as the processor sees it; none if it is not present. -/
def Gate.decode (low high : Word) : Option Gate :=
  let kind := (high >>> 8) &&& 0x1f
  if high.getLsbD 15 ∧ (kind = 0xe ∨ kind = 0xf) then
    some ⟨low >>> 16, (high &&& 0xffff0000) ||| (low &&& 0xffff), kind = 0xe,
      ((high >>> 13) &&& 3).toNat⟩
  else none

abbrev Table := ℕ → Word

def Table.gate (idt : Table) (index : ℕ) : Option Gate :=
  Gate.decode (idt (2 * index)) (idt (2 * index + 1))

namespace IDT

def kernelCS : Word := 8

def interrupt (idt : Table) (index : ℕ) (handler : Word) : Table :=
  let i0 := 2 * index
  let i1 := i0 + 1
  let idt := Function.update idt i0 ((kernelCS <<< 16) + (handler &&& 0xffff))
  Function.update idt i1 ((handler &&& 0xffff0000) ||| 0x8e00)

def trap (idt : Table) (index : ℕ) (handler dpl : Word) : Table :=
  let i0 := 2 * index
  let i1 := i0 + 1
  let idt := Function.update idt i0 ((kernelCS <<< 16) + (handler &&& 0xffff))
  Function.update idt i1 ((handler &&& (0xffff0000 : Word)) ||| (0x8f00 : Word) ||| (dpl <<< 13))

end IDT

/-- A call of `IDT::interrupt` or `IDT::trap`. -/
inductive Registration
  | interrupt (index : ℕ) (handler : Word)
  | trap (index : ℕ) (handler dpl : Word)

namespace Registration

def index : Registration → ℕ
  | interrupt index _ => index
  | trap index _ _ => index

def register (idt : Table) : Registration → Table
  | interrupt index handler => IDT.interrupt idt index handler
  | trap index handler dpl => IDT.trap idt index handler dpl

def gate : Registration → Gate
  | interrupt _ handler => ⟨8, handler, true, 0⟩
  | trap _ handler dpl => ⟨8, handler, false, dpl.toNat⟩

def Rings : Registration → Prop
  | interrupt _ _ => True
  | trap _ _ dpl => dpl.toNat < 4

end Registration

section Decode

theorem first_eq (handler : Word) :
    (IDT.kernelCS <<< 16) + (handler &&& 0xffff) = 0x80000 ||| (handler &&& 0xffff) := by
  have hapart : (0x80000 : Word) &&& (handler &&& 0xffff) = 0#32 := by
    rw [BitVec.and_comm handler, ← BitVec.and_assoc, show (0x80000 : Word) &&& 0xffff = 0#32 from rfl,
      BitVec.zero_and]
  rw [show IDT.kernelCS <<< 16 = 0x80000 from rfl]
  exact BitVec.add_eq_or_of_and_eq_zero _ _ hapart

theorem decode_words (handler : Word) {c : Word} (hc : c &&& 0xffff0000 = 0#32)
    (hpresent : c.getLsbD 15) (hkind : (c >>> 8) &&& 0x1f = 0xe ∨ (c >>> 8) &&& 0x1f = 0xf) :
    Gate.decode (0x80000 ||| (handler &&& 0xffff)) ((handler &&& 0xffff0000) ||| c) =
      some ⟨8, handler, (c >>> 8) &&& 0x1f = 0xe, ((c >>> 13) &&& 3).toNat⟩ := by
  have hfield : ∀ (i : ℕ) (m : Word), ((0xffff0000 : Word) >>> i) &&& m = 0#32 →
      (((handler &&& 0xffff0000) ||| c) >>> i) &&& m = (c >>> i) &&& m := fun i m hm => by
    rw [BitVec.ushiftRight_or_distrib, BitVec.and_or_distrib_right, BitVec.ushiftRight_and_distrib,
      BitVec.and_assoc, hm, BitVec.and_zero, BitVec.zero_or]
  have hbit : ((handler &&& 0xffff0000) ||| c).getLsbD 15 = c.getLsbD 15 := by
    rw [BitVec.getLsbD_or, BitVec.getLsbD_and, show (0xffff0000 : Word).getLsbD 15 = false from rfl,
      Bool.and_false, Bool.false_or]
  have hselector : (0x80000 ||| (handler &&& 0xffff)) >>> 16 = 8 := by
    rw [BitVec.ushiftRight_or_distrib, BitVec.ushiftRight_and_distrib,
      show (0xffff : Word) >>> 16 = 0#32 from rfl, BitVec.and_zero, BitVec.or_zero]
    rfl
  have hlow : (0x80000 ||| (handler &&& 0xffff)) &&& 0xffff = handler &&& 0xffff := by
    rw [BitVec.and_or_distrib_right, BitVec.and_assoc, BitVec.and_self,
      show (0x80000 : Word) &&& 0xffff = 0#32 from rfl, BitVec.zero_or]
  have hhigh : ((handler &&& 0xffff0000) ||| c) &&& 0xffff0000 = handler &&& 0xffff0000 := by
    rw [BitVec.and_or_distrib_right, BitVec.and_assoc, BitVec.and_self, hc, BitVec.or_zero]
  have hoffset : (handler &&& 0xffff0000) ||| (handler &&& 0xffff) = handler := by
    rw [← BitVec.and_or_distrib_left]
    exact BitVec.and_allOnes
  rw [Gate.decode, hfield 8 _ rfl, hfield 13 _ rfl, hbit, hselector, hlow, hhigh, hoffset,
    if_pos ⟨hpresent, hkind⟩]

variable (idt : Table) (index : ℕ) (handler : Word)

theorem gate_interrupt :
    (IDT.interrupt idt index handler).gate index = some ⟨8, handler, true, 0⟩ := by
  rw [Table.gate, IDT.interrupt, Function.update_of_ne (by omega), Function.update_self,
    Function.update_self, first_eq, decode_words handler (by decide) (by decide) (by decide)]
  rfl

theorem gate_trap {dpl : Word} (hdpl : dpl.toNat < 4) :
    (IDT.trap idt index handler dpl).gate index = some ⟨8, handler, false, dpl.toNat⟩ := by
  obtain ⟨d, rfl⟩ : ∃ d : Fin 4, dpl = .ofNat 32 d.val :=
    ⟨⟨dpl.toNat, hdpl⟩, BitVec.eq_of_toNat_eq (by simp)⟩
  have hword : ∀ d : Fin 4, (((0x8f00 : Word) ||| (BitVec.ofNat 32 d.val <<< 13)) &&& 0xffff0000 = 0#32 ∧
      ((0x8f00 : Word) ||| (BitVec.ofNat 32 d.val <<< 13)).getLsbD 15) ∧
      (((0x8f00 : Word) ||| (BitVec.ofNat 32 d.val <<< 13)) >>> 8) &&& 0x1f = 0xf ∧
      ((((0x8f00 : Word) ||| (BitVec.ofNat 32 d.val <<< 13)) >>> 13) &&& 3).toNat =
        (BitVec.ofNat 32 d.val).toNat := by decide
  obtain ⟨⟨hhalf, hpresent⟩, hkind, hring⟩ := hword d
  rw [Table.gate, IDT.trap, Function.update_of_ne (by omega), Function.update_self,
    Function.update_self, first_eq, BitVec.or_assoc, decode_words handler hhalf hpresent (Or.inr hkind),
    hkind, hring]
  rfl

end Decode

namespace Registration

variable {idt : Table} {r : Registration} {index : ℕ}

theorem gate_register (h : r.Rings) : (r.register idt).gate r.index = some r.gate := by
  cases r with
  | interrupt index handler => exact gate_interrupt idt index handler
  | trap index handler dpl => exact gate_trap idt index handler h

theorem gate_register_of_ne (h : index ≠ r.index) : (r.register idt).gate index = idt.gate index := by
  have hwords : ∀ x y, Function.update (Function.update idt (2 * r.index) x) (2 * r.index + 1) y
      (2 * index) = idt (2 * index) ∧
      Function.update (Function.update idt (2 * r.index) x) (2 * r.index + 1) y (2 * index + 1) =
        idt (2 * index + 1) := fun x y => by
    rw [Function.update_of_ne (by omega), Function.update_of_ne (by omega),
      Function.update_of_ne (by omega), Function.update_of_ne (by omega)]
    exact ⟨rfl, rfl⟩
  cases r with
  | interrupt index' handler =>
    obtain ⟨hlow, hhigh⟩ := hwords _ _
    exact congrArg₂ Gate.decode hlow hhigh
  | trap index' handler dpl =>
    obtain ⟨hlow, hhigh⟩ := hwords _ _
    exact congrArg₂ Gate.decode hlow hhigh

def lastGate (rs : List Registration) (index : ℕ) (before : Option Gate) : Option Gate :=
  match rs.reverse.find? (·.index = index) with
  | some r => some r.gate
  | none => before

/-- Whatever has been registered, the processor finds in each place of the table the gate that was
asked for last, and where none was what had been there before. -/
theorem gates_registered {rs : List Registration} (h : ∀ r ∈ rs, r.Rings) (idt : Table) (index : ℕ) :
    (rs.foldl register idt).gate index = lastGate rs index (idt.gate index) := by
  induction rs using List.reverseRecOn with
  | nil => rfl
  | append_singleton rs r ih =>
    rw [List.foldl_append, List.foldl_cons, List.foldl_nil, lastGate, List.reverse_append]
    by_cases hindex : r.index = index
    · subst hindex
      rw [gate_register (h r (by simp))]
      simp
    · rw [gate_register_of_ne (Ne.symm hindex), ih fun r hr => h r (by simp [hr]), lastGate]
      simp [hindex]

/-- What `kernelInit` registers, in its order. -/
def boot (pageFaultHandler_ sysHandler_ spuriousHandler_ apitHandler_ : Word) : List Registration :=
  [trap 14 pageFaultHandler_ 3,
   trap 48 sysHandler_ 3,
   interrupt 0xff spuriousHandler_,
   interrupt 40 apitHandler_]

theorem boot_rings (a b c d : Word) : ∀ r ∈ boot a b c d, r.Rings := by
  simp [boot, Rings]

theorem gates_registered_boot :
    ((boot 0x100110 0x100140 0x100160 0x100100).foldl register fun _ => 0).gate 48 =
      some ⟨8, 0x100140, false, 3⟩ :=
  (gates_registered (boot_rings _ _ _ _) (fun _ => 0) 48).trans rfl

end Registration

end OsShell.Machine
