import OsShell.Library.Machine
import OsShell.Sys.Strings

/-!
# `memcpy` and `bzero`

Both routines go through memory byte by byte from the low end, and count down a signed
word. `memcpy` takes `%ebx` for the byte and keeps the caller's on the stack meanwhile.
They do what the rest of the kernel's model has for them.
-/

namespace OsShell.Machine

open AddressSpace

def memcpy : List Instr :=
  [.mov (.mem 4 .esp) (.reg .eax),
   .mov (.mem 8 .esp) (.reg .edx),
   .mov (.mem 12 .esp) (.reg .ecx),
   .push (.reg .ebx),
   .add (.imm (-1)) (.reg .ecx),
   .jl 11,
   .movbFrom .edx .ebx,
   .movbTo (.low .ebx) .eax none,
   .add (.imm 1) (.reg .edx),
   .add (.imm 1) (.reg .eax),
   .jmp 4,
   .pop .ebx,
   .ret]

def bzero : List Instr :=
  [.mov (.mem 4 .esp) (.reg .eax),
   .mov (.mem 8 .esp) (.reg .ecx),
   .add (.imm (-1)) (.reg .ecx),
   .jl 7,
   .movbTo (.imm 0) .eax none,
   .add (.imm 1) (.reg .eax),
   .jmp 2,
   .ret]

/-- The memory as the other parts of the kernel's model have it. -/
def buffer (m : Memory) : Bytes.Buffer := fun a => m (.ofNat 32 a)

structure Kept (s t : State) : Prop where
  esp : t.reg .esp = s.reg .esp
  ebp : t.reg .ebp = s.reg .ebp
  esi : t.reg .esi = s.reg .esi
  edi : t.reg .edi = s.reg .edi
  cs : t.cs = s.cs
  ss : t.ss = s.ss

theorem Kept.trans {s t u : State} (h : Kept s t) (h' : Kept t u) : Kept s u :=
  ⟨h'.esp.trans h.esp, h'.ebp.trans h.ebp, h'.esi.trans h.esi, h'.edi.trans h.edi,
    h'.cs.trans h.cs, h'.ss.trans h.ss⟩

def copyForward (m : Memory) (dest src : Word) : ℕ → Memory
  | 0 => m
  | k + 1 => Function.update (copyForward m dest src k) (dest + .ofNat 32 k)
      (copyForward m dest src k (src + .ofNat 32 k))

def zeroForward (m : Memory) (dest : Word) : ℕ → Memory
  | 0 => m
  | k + 1 => Function.update (zeroForward m dest k) (dest + .ofNat 32 k) 0

section Rounds

variable {m : Memory} {dest src x : Word} {k : ℕ}

theorem ofNat_succ (k : ℕ) : BitVec.ofNat 32 (k + 1) = .ofNat 32 k + 1 := BitVec.ofNat_add k 1

theorem copyForward_of_notMem (hk : k ≤ 2 ^ 32) (hx : x ∉ span dest k) :
    copyForward m dest src k x = m x := by
  induction k with
  | zero => rfl
  | succ k ih =>
    have hne : x ≠ dest + .ofNat 32 k := fun h =>
      hx (h ▸ mem_span_add (Nat.lt_succ_self k) hk)
    rw [copyForward, Function.update_of_ne hne]
    exact ih (by omega) fun h => hx (span_mono (Nat.le_succ k) h)

theorem zeroForward_eq (hk : k ≤ 2 ^ 32) :
    zeroForward m dest k x = if (x - dest).toNat < k then 0 else m x := by
  induction k with
  | zero => rfl
  | succ k ih =>
    rw [zeroForward]
    by_cases hx : x = dest + .ofNat 32 k
    · have hin := mem_span_add (a := dest) (Nat.lt_succ_self k) hk
      rw [hx, Function.update_self]
      exact (if_pos hin).symm
    · rw [Function.update_of_ne hx, ih (by omega)]
      have hne : (x - dest).toNat ≠ k := fun h => hx (by
        rw [← h, BitVec.ofNat_toNat, BitVec.setWidth_eq]
        ring)
      by_cases hlt : (x - dest).toNat < k
      · rw [if_pos hlt, if_pos (by omega)]
      · rw [if_neg hlt, if_neg (by omega)]

theorem copyForward_congr {m' : Memory} {skip : Set Word} (hk : k ≤ 2 ^ 32)
    (hsrc : Disjoint skip (span src k)) (h : ∀ x, x ∉ skip → m' x = m x) (hx : x ∉ skip) :
    copyForward m' dest src k x = copyForward m dest src k x := by
  induction k generalizing x with
  | zero => exact h x hx
  | succ k ih =>
    have hread : src + .ofNat 32 k ∉ skip :=
      Set.disjoint_right.mp hsrc (mem_span_add (Nat.lt_succ_self k) hk)
    have hearlier := fun {x} hx => ih (x := x) (by omega)
      (hsrc.mono_right (span_mono (Nat.le_succ k))) hx
    rw [copyForward, copyForward, hearlier hread]
    by_cases hxd : x = dest + .ofNat 32 k
    · rw [hxd, Function.update_self, Function.update_self]
    · rw [Function.update_of_ne hxd, Function.update_of_ne hxd, hearlier hx]

theorem copyForward_eq_memcpy (hk : k < 2 ^ 31) :
    copyForward m dest src k x =
      Sys.memcpy (buffer m) dest.toNat src.toNat k x.toNat := by
  induction k generalizing x with
  | zero =>
    change m x = m (.ofNat 32 x.toNat)
    rw [BitVec.ofNat_toNat, BitVec.setWidth_eq]
  | succ k ih =>
    have hadd : ∀ a : Word, (a + .ofNat 32 k).toNat = (a.toNat + k) % 2 ^ 32 := fun a => by
      rw [BitVec.toNat_add, BitVec.toNat_ofNat, Nat.add_mod_mod]
    rw [copyForward, Sys.memcpy_succ hk]
    unfold Sys.setByte
    by_cases hx : x = dest + .ofNat 32 k
    · rw [hx, Function.update_self, hadd, Function.update_self, ih (by omega), hadd]
      rfl
    · have hne : x.toNat ≠ (dest.toNat + k) % 2 ^ 32 := fun h =>
        hx (BitVec.eq_of_toNat_eq (h.trans (hadd dest).symm))
      rw [Function.update_of_ne hx, Function.update_of_ne hne, ih (by omega)]

end Rounds

/-! ## The routines -/

variable {ext : Functions} {s : State} {dest src n : Word}

theorem byte_setLow (s : State) (r : Reg) (v : UInt8) : byte ((s.setLow r v).reg r) 0 = v := by
  have hlow : ((s.setLow r v).reg r) = (s.reg r &&& 0xffffff00) ||| .ofNat 32 v.toNat :=
    Function.update_self ..
  have hv := v.toNat_lt
  refine UInt8.toNat_inj.mp ?_
  rw [hlow, byte, UInt8.toNat_ofNat', Nat.mul_zero, pow_zero, Nat.div_one, BitVec.toNat_or,
    BitVec.toNat_and, BitVec.toNat_ofNat, Nat.or_mod_two_pow, Nat.and_mod_two_pow,
    show (0xffffff00 : Word).toNat % 2 ^ 8 = 0 from rfl, Nat.and_zero, Nat.zero_or]
  omega

theorem memcpy_round (ext : Functions) (s : State) : ∃ t, Goes ext memcpy 6 s 4 t ∧ Kept s t ∧
    t.reg .ecx = s.reg .ecx ∧ t.reg .eax = s.reg .eax + 1 ∧ t.reg .edx = s.reg .edx + 1 ∧
    t.mem = Function.update s.mem (s.reg .eax) (s.mem (s.reg .edx)) := by
  let t : State := s.setLow .ebx (s.mem (s.reg .edx))
  let u : State := { t with mem := Function.update s.mem (s.reg .eax) (s.mem (s.reg .edx)) }
  let v : State := { u.set .edx (s.reg .edx + 1) with eflags := addFlags s.eflags (s.reg .edx) 1 }
  let w : State := { v.set .eax (s.reg .eax + 1) with eflags := addFlags v.eflags (s.reg .eax) 1 }
  have hwrite : Goes ext memcpy 7 t 8 u := by
    refine .next rfl ?_
    simp only [Instr.exec, State.readByte, t, byte_setLow, Option.map_none, Option.getD_none, add_zero]
    rfl
  have hsrc : Goes ext memcpy 8 u 9 v := .next rfl rfl
  have hdest : Goes ext memcpy 9 v 10 w := .next rfl rfl
  have hback : Goes ext memcpy 10 w 4 w := .jump rfl rfl
  exact ⟨w, (Goes.next rfl rfl).trans (hwrite.trans (hsrc.trans (hdest.trans hback))),
    ⟨rfl, rfl, rfl, rfl, rfl, rfl⟩, rfl, rfl, rfl, rfl⟩

theorem memcpy_loop (ext : Functions) {s : State} {k : ℕ} (hk : rounds (s.reg .ecx) = k) :
    ∃ t, Goes ext memcpy 4 s 11 t ∧ Kept s t ∧ t.reg .eax = s.reg .eax + .ofNat 32 k ∧
      t.mem = copyForward s.mem (s.reg .eax) (s.reg .edx) k := by
  let P (n : ℕ) (t : State) : Prop := ∃ i, i + n = k ∧ Kept s t ∧
    t.reg .eax = s.reg .eax + .ofNat 32 i ∧ t.reg .edx = s.reg .edx + .ofNat 32 i ∧
    t.mem = copyForward s.mem (s.reg .eax) (s.reg .edx) i
  have hbody : ∀ n t, P (n + 1) t → ∃ u, Goes ext memcpy (4 + 2) t.countdown 4 u ∧
      u.reg .ecx = t.reg .ecx + -1 ∧ P n u := by
    rintro n t ⟨i, hi, hkept, heax, hedx, hmem⟩
    obtain ⟨u, hgoes, hkept', hecx, heax', hedx', hmem'⟩ := memcpy_round ext t.countdown
    refine ⟨u, hgoes, hecx, i + 1, by omega, ?_, ?_, ?_, ?_⟩
    · exact ⟨hkept'.esp.trans hkept.esp, hkept'.ebp.trans hkept.ebp, hkept'.esi.trans hkept.esi,
        hkept'.edi.trans hkept.edi, hkept'.cs.trans hkept.cs, hkept'.ss.trans hkept.ss⟩
    · rw [heax', ofNat_succ, ← add_assoc]
      exact congrArg (· + 1) heax
    · rw [hedx', ofNat_succ, ← add_assoc]
      exact congrArg (· + 1) hedx
    · have hmem'' : u.mem = Function.update t.mem (t.reg .eax) (t.mem (t.reg .edx)) := hmem'
      rw [hmem'', hmem, heax, hedx]
      rfl
  have hstart : P k s := ⟨0, Nat.zero_add k, ⟨rfl, rfl, rfl, rfl, rfl, rfl⟩, by simp, by simp, rfl⟩
  obtain ⟨t, hgoes, i, hi, hkept, heax, -, hmem⟩ := Goes.countdown rfl rfl hbody hk hstart
  obtain rfl : i = k := hi
  exact ⟨_, hgoes, ⟨hkept.esp, hkept.ebp, hkept.esi, hkept.edi, hkept.cs, hkept.ss⟩, heax, hmem⟩

theorem memcpy_copied (mem : Bytes.Buffer) (dest src n : ℕ) :
    Sys.memcpy mem dest src (Sys.copied n) = Sys.memcpy mem dest src n := by
  have hcopied : Sys.copied (Sys.copied n) = Sys.copied n := by
    unfold Sys.copied
    split <;> simp_all
  rw [Sys.memcpy, hcopied, Sys.memcpy]

theorem copied_lt (n : ℕ) : Sys.copied n < 2 ^ 31 := by
  unfold Sys.copied
  split <;> omega

/-- Whatever the ranges, and also where they overlap: the routine leaves in memory what the model's
`memcpy` does, keeps what its caller relies on, and returns the address behind the copy. Only the
word below the stack is used besides. -/
theorem memcpy_refines {s : State} {dest src n : Word}
    (hdest : load s.mem (s.reg .esp + 4) = dest) (hsrc : load s.mem (s.reg .esp + 8) = src)
    (hn : load s.mem (s.reg .esp + 12) = n)
    (hframe : Disjoint (span (s.reg .esp - 4) 8) (span dest (Sys.copied n.toNat)))
    (hslot : Disjoint (span (s.reg .esp - 4) 4) (span src (Sys.copied n.toNat))) :
    ∃ t, Ends ext memcpy s t ∧
      Cdecl {x | x ∉ span (s.reg .esp - 4) 4 ∧ x ∉ span dest (Sys.copied n.toNat)} s t ∧
      t.reg .eax = dest + .ofNat 32 (Sys.copied n.toNat) ∧
      ∀ x, x ∉ span (s.reg .esp - 4) 4 →
        t.mem x = Sys.memcpy (buffer s.mem) dest.toNat src.toNat n.toNat x.toNat := by
  have hcopied := copied_lt n.toNat
  obtain ⟨k, hk⟩ : ∃ k, Sys.copied n.toNat = k := ⟨_, rfl⟩
  rw [hk] at hframe hslot hcopied ⊢
  let u : State := (((s.set .eax dest).set .edx src).set .ecx n).push (s.reg .ebx)
  have hstart : Goes ext memcpy 0 s 4 u := by
    have h0 : Goes ext memcpy 0 s 1 (s.set .eax dest) := .next rfl (hdest ▸ rfl)
    have h1 : Goes ext memcpy 1 (s.set .eax dest) 2 ((s.set .eax dest).set .edx src) :=
      .next rfl (hsrc ▸ rfl)
    have h2 : Goes ext memcpy 2 ((s.set .eax dest).set .edx src) 3
        (((s.set .eax dest).set .edx src).set .ecx n) := .next rfl (hn ▸ rfl)
    exact h0.trans (h1.trans (h2.trans (.next rfl rfl)))
  obtain ⟨t, hgoes, hkept, heax, hmem⟩ := memcpy_loop ext (s := u) (k := k) hk
  have hmem : t.mem = copyForward (store s.mem (s.reg .esp - 4) (s.reg .ebx)) dest src k := hmem
  have hesp : t.reg .esp = s.reg .esp - 4 := hkept.esp
  have hout : ∀ x, x ∉ span dest k → t.mem x = store s.mem (s.reg .esp - 4) (s.reg .ebx) x :=
    fun x hx => by rw [hmem, copyForward_of_notMem (by omega) hx]
  have hebx : t.top = s.reg .ebx := by
    rw [State.top, hesp, load_congr fun x hx =>
      hout x (Set.disjoint_left.mp hframe (span_mono (by decide) hx)), load_store]
  have hback : load t.mem (s.reg .esp) = s.top := by
    refine load_congr fun x hx => ?_
    have hx' : x ∈ span (s.reg .esp - 4 + 4) 4 := by rwa [sub_add_cancel]
    rw [hout x (Set.disjoint_left.mp hframe (span_subset (by decide) hx')), store_of_notMem]
    exact Set.disjoint_left.mp (disjoint_span (by bv_omega) (by bv_omega)) hx
  refine ⟨(t.pop .ebx).ret, (hstart.trans (hgoes.trans (Goes.next rfl rfl))).ends rfl rfl, ?_, heax,
    fun x hx => ?_⟩
  · have hesp' : (t.pop .ebx).reg .esp = s.reg .esp := by
      change t.reg .esp + 4 = _
      rw [hesp, sub_add_cancel]
    exact {
      eip := by
        change load t.mem ((t.pop .ebx).reg .esp) = _
        rw [hesp', hback]
      esp := by
        change (t.pop .ebx).reg .esp + 4 = _
        rw [hesp']
      ebx := hebx
      ebp := hkept.ebp
      esi := hkept.esi
      edi := hkept.edi
      cs := hkept.cs
      ss := hkept.ss
      mem := fun x hx => (hout x hx.2).trans (store_of_notMem hx.1) }
  · change t.mem x = _
    rw [hmem, copyForward_congr (by omega) hslot (fun y hy => store_of_notMem hy) hx,
      copyForward_eq_memcpy hcopied, ← hk, memcpy_copied]

def called (a b c : Word) : State where
  reg r := if r = .esp then 0x1000 else 0
  eflags := 0
  eip := 0
  cs := 8
  ss := 16
  cr2 := 0
  cr3 := 0
  mem := store (store (store (fun x => byte x 0) (0x1000 + 4) a) (0x1000 + 8) b) (0x1000 + 12) c

theorem called_arguments (a b c : Word) : load (called a b c).mem (0x1000 + 4) = a ∧
    load (called a b c).mem (0x1000 + 8) = b ∧ load (called a b c).mem (0x1000 + 12) = c := by
  refine ⟨?_, ?_, load_store _ _ _⟩
  · simp (disch := decide) only [called, load_store_offset, load_store]
  · simp (disch := decide) only [called, load_store_offset, load_store]

/-- A copy to the byte before its source. -/
theorem memcpy_refines_overlapping : ∃ t, Ends (fun _ _ => none) memcpy (called 0x2000 0x2001 3) t ∧
    Cdecl {x | x ∉ span (0x1000 - 4) 4 ∧ x ∉ span 0x2000 (Sys.copied 3)} (called 0x2000 0x2001 3) t ∧
    t.reg .eax = 0x2000 + .ofNat 32 (Sys.copied 3) ∧
    ∀ x, x ∉ span (0x1000 - 4) 4 →
      t.mem x = Sys.memcpy (buffer (called 0x2000 0x2001 3).mem) 0x2000 0x2001 3 x.toNat := by
  obtain ⟨ha, hb, hc⟩ := called_arguments 0x2000 0x2001 3
  exact memcpy_refines ha hb hc (disjoint_span (by decide) (by decide))
    (disjoint_span (by decide) (by decide))

theorem bzero_loop (ext : Functions) {s : State} {k : ℕ} (hk : rounds (s.reg .ecx) = k) :
    ∃ t, Goes ext bzero 2 s 7 t ∧ Kept s t ∧ t.reg .ebx = s.reg .ebx ∧
      t.mem = zeroForward s.mem (s.reg .eax) k := by
  let P (n : ℕ) (t : State) : Prop := ∃ i, i + n = k ∧ Kept s t ∧ t.reg .ebx = s.reg .ebx ∧
    t.reg .eax = s.reg .eax + .ofNat 32 i ∧ t.mem = zeroForward s.mem (s.reg .eax) i
  have hbody : ∀ n t, P (n + 1) t → ∃ u, Goes ext bzero (2 + 2) t.countdown 2 u ∧
      u.reg .ecx = t.reg .ecx + -1 ∧ P n u := by
    rintro n t ⟨i, hi, hkept, hebx, heax, hmem⟩
    let u : State := { t.countdown with mem := Function.update t.mem (t.reg .eax) 0 }
    let v : State := { u.set .eax (t.reg .eax + 1) with eflags := addFlags u.eflags (t.reg .eax) 1 }
    have hwrite : Goes ext bzero 4 t.countdown 5 u := by
      refine .next rfl ?_
      simp only [Instr.exec, State.readByte, Option.map_none, Option.getD_none, add_zero]
      rfl
    have hnext : Goes ext bzero 5 u 6 v := .next rfl rfl
    have hback : Goes ext bzero 6 v 2 v := .jump rfl rfl
    refine ⟨v, hwrite.trans (hnext.trans hback), rfl, i + 1, by omega,
      ⟨hkept.esp, hkept.ebp, hkept.esi, hkept.edi, hkept.cs, hkept.ss⟩, hebx, ?_, ?_⟩
    · rw [ofNat_succ, ← add_assoc]
      exact congrArg (· + 1) heax
    · change Function.update t.mem (t.reg .eax) 0 = _
      rw [hmem, heax]
      rfl
  have hstart : P k s := ⟨0, Nat.zero_add k, ⟨rfl, rfl, rfl, rfl, rfl, rfl⟩, rfl, by simp, rfl⟩
  obtain ⟨t, hgoes, i, hi, hkept, hebx, -, hmem⟩ := Goes.countdown rfl rfl hbody hk hstart
  obtain rfl : i = k := hi
  exact ⟨_, hgoes, ⟨hkept.esp, hkept.ebp, hkept.esi, hkept.edi, hkept.cs, hkept.ss⟩, hebx, hmem⟩

/-- `bzero` writes the zeros that the model has for it, and keeps what its caller relies on. -/
theorem bzero_refines {s : State} {dest n : Word}
    (hdest : load s.mem (s.reg .esp + 4) = dest) (hn : load s.mem (s.reg .esp + 8) = n)
    (hframe : Disjoint (span (s.reg .esp) 4) (span dest (Sys.copied n.toNat))) :
    ∃ t, Ends ext bzero s t ∧ Cdecl {x | x ∉ span dest (Sys.copied n.toNat)} s t ∧
      ∀ x, t.mem x = (Exec.bzero dest.toNat n.toNat).apply (buffer s.mem) x.toNat := by
  have hcopied := copied_lt n.toNat
  obtain ⟨k, hk⟩ : ∃ k, Sys.copied n.toNat = k := ⟨_, rfl⟩
  rw [hk] at hframe hcopied ⊢
  let u : State := (s.set .eax dest).set .ecx n
  have hstart : Goes ext bzero 0 s 2 u := by
    have h0 : Goes ext bzero 0 s 1 (s.set .eax dest) := .next rfl (hdest ▸ rfl)
    have h1 : Goes ext bzero 1 (s.set .eax dest) 2 ((s.set .eax dest).set .ecx n) :=
      .next rfl (hn ▸ rfl)
    exact h0.trans h1
  obtain ⟨t, hgoes, hkept, hebx, hmem⟩ := bzero_loop ext (s := u) (k := k) hk
  have hmem : t.mem = zeroForward s.mem dest k := hmem
  have hesp : t.reg .esp = s.reg .esp := hkept.esp
  have hbyte : ∀ x, t.mem x = if (x - dest).toNat < k then 0 else s.mem x := fun x => by
    rw [hmem, zeroForward_eq (by omega)]
  refine ⟨t.ret, (hstart.trans hgoes).ends rfl rfl, ?_, fun x => ?_⟩
  · exact {
      eip := by
        change load t.mem (t.reg .esp) = load s.mem (s.reg .esp)
        rw [hesp]
        exact load_congr fun x hx =>
          (hbyte x).trans (if_neg (Set.disjoint_left.mp hframe hx))
      esp := by
        change t.reg .esp + 4 = _
        rw [hesp]
      ebx := hebx
      ebp := hkept.ebp
      esi := hkept.esi
      edi := hkept.edi
      cs := hkept.cs
      ss := hkept.ss
      mem := fun x hx => (hbyte x).trans (if_neg hx) }
  · change t.mem x = _
    have hzeros : Exec.bzero dest.toNat n.toNat = ⟨dest.toNat, List.replicate k 0⟩ := by
      rw [← hk]
      rfl
    have hdistance : (x.toNat + 2 ^ 32 - dest.toNat % 2 ^ 32) % 2 ^ 32 = (x - dest).toNat := by
      have hd := dest.isLt
      rw [BitVec.toNat_sub, Nat.mod_eq_of_lt hd]
      congr 1
      omega
    have hself : buffer s.mem x.toNat = s.mem x := by
      rw [buffer, BitVec.ofNat_toNat, BitVec.setWidth_eq]
    rw [hbyte, hzeros, Exec.Store.apply]
    simp only [hdistance, hself]
    by_cases hlt : (x - dest).toNat < k
    · rw [if_pos hlt, List.getD_eq_getElem _ _ (by simpa using hlt), List.getElem_replicate]
    · rw [if_neg hlt, List.getD_eq_default _ _ (by simpa using hlt)]

theorem bzero_refines_called : ∃ t, Ends (fun _ _ => none) bzero (called 0x2000 3 0) t ∧
    Cdecl {x | x ∉ span 0x2000 (Sys.copied 3)} (called 0x2000 3 0) t ∧
    ∀ x, t.mem x = (Exec.bzero 0x2000 3).apply (buffer (called 0x2000 3 0).mem) x.toNat := by
  obtain ⟨ha, hb, -⟩ := called_arguments 0x2000 3 0
  exact bzero_refines ha hb (disjoint_span (by decide) (by decide))

end OsShell.Machine
