import OsShell.Exec.Stack
import OsShell.Machine.Copy

/-!
# Where a program begins

The first instructions of a program stand on the stack that `SYS::exec` has built, with
no return address on it. `start` calls `main` from there, so that the two words in front
are its arguments, and hands what `main` returns to `exit`.
-/

namespace OsShell.Machine

open AddressSpace Bytes Exec

def start (heap_init main exit back₀ back₁ back₂ : Word) : List Instr :=
  [.call heap_init back₀,
   .call main back₁,
   .push (.reg .eax),
   .call exit back₂,
   .jmp 3]

theorem load_buffer (m : Memory) (a : Word) : load m a = .ofNat 32 (le32 (buffer m) a.toNat) := by
  have haddress : ∀ i, (BitVec.ofNat 32 (a.toNat + i) : Word) = a + .ofNat 32 i := by
    intro i
    rw [BitVec.ofNat_add, BitVec.ofNat_toNat, BitVec.setWidth_eq]
  have h0 : (BitVec.ofNat 32 a.toNat : Word) = a := by rw [BitVec.ofNat_toNat, BitVec.setWidth_eq]
  have h1 : (BitVec.ofNat 32 (a.toNat + 1) : Word) = a + 1 := haddress 1
  have h2 : (BitVec.ofNat 32 (a.toNat + 2) : Word) = a + 2 := haddress 2
  have h3 : (BitVec.ofNat 32 (a.toNat + 2 + 1) : Word) = a + 3 := haddress 3
  unfold load le32 le16 buffer
  rw [h0, h1, h2, h3]
  exact congrArg (BitVec.ofNat 32) (by ring)

variable {ext : Functions} {heap_init main exit back₀ back₁ back₂ : Word} {s r t : State}

theorem goes_call {code : List Instr} {i : ℕ} {f back : Word}
    (hget : code[i]? = some (.call f back)) (hcall : ext f (s.push back) = some t)
    (heip : t.eip = back) : Goes ext code i s (i + 1) t := by
  refine .next hget ?_
  change (ext f (s.push back)).bind _ = _
  rw [hcall, Option.bind_some, if_pos heip]

def begun : State where
  reg r := if r = .esp then 0xefffdfe4 else 0
  eflags := 0x202
  eip := 0x80000000
  cs := 35
  ss := 19
  cr2 := 0
  cr3 := 0
  mem x := (SYS.image twoArguments 0xefffdfe4).getD (x.toNat - 0xefffdfe4) 0

theorem begun_decodes : Decodes twoArguments (buffer begun.mem) (begun.reg .esp).toNat := by
  have hesp : (begun.reg .esp).toNat = 0xefffdfe4 := rfl
  rw [hesp]
  refine decodes_of_spells (by decide) fun i hi => ?_
  have hlength : i < 28 := by
    rwa [length_image] at hi
  have haddress : (BitVec.ofNat 32 (0xefffdfe4 + i)).toNat = 0xefffdfe4 + i := by
    rw [BitVec.toNat_ofNat]
    omega
  have hbyte : ∀ a, buffer begun.mem a =
      (SYS.image twoArguments 0xefffdfe4).getD ((BitVec.ofNat 32 a).toNat - 0xefffdfe4) 0 := by
    intro a
    simp only [buffer, begun]
  rw [hbyte, haddress, Nat.add_sub_cancel_left]
  exact List.getD_eq_getElem _ _ hi

def returnsAtOnce : Functions := fun _ e => some e.ret

end OsShell.Machine
