import OsShell.Library.Runs
import OsShell.Sys.ChangeDir

/-!
# The storage of the current directory

`cd` has two objects of the kernel to store to: the literal `""`, where the argument is
kept, and the 16 bytes that the current directory begins in, which all processes share.
How much is stored is the length of the argument. Its other stores go to the caller's
buffer.
-/

namespace OsShell.Sys

open Bytes Exec

inductive Target
  | storedAddition
  | cwd
deriving DecidableEq

def Target.object (k : Caller) : Target → Range
  | .storedAddition => (k.literal, 1)
  | .cwd => (k.cwd, 16)

section Stores

variable (k : Caller) (addedPath pathChecked : ℕ)

/-- `memcpy(dest, src, n)` and `dest[n] = '\0'` -/
def stringStores (dest n : ℕ) : List Range :=
  [(dest, copied n), (dest + n, 1)]

def kernelStores : List (Target × Range) :=
  if pathChecked = 0 then
    match cstring k.mem addedPath with
    | none => []
    | some added =>
      if added = [46, 46] then []
      else if added = [46] then []
      else (stringStores k.literal added.length).map (Prod.mk .storedAddition)
  else
    match strlen k.mem addedPath with
    | none => []
    | some length => (stringStores k.cwd length).map (Prod.mk .cwd)

def bufferStores : List Range :=
  if pathChecked = 0 then
    match cstring k.mem addedPath with
    | none => []
    | some added =>
      if added = [46, 46] then parentStores k addedPath
      else if added = [46] then []
      else
        match strlen (k.addition addedPath added.length) k.cwd with
        | none => []
        | some prevLen =>
          [(addedPath, copied prevLen), (addedPath + prevLen, 1),
            (addedPath + prevLen + 1, copied added.length),
            (addedPath + prevLen + 1 + added.length, 1)]
  else []

theorem cdStores_eq (userEsp : ℕ) :
    cdStores k userEsp = bufferStores k (k.word userEsp 1) (k.word userEsp 2) :=
  rfl

end Stores

def Covered (ranges : List Range) (a : ℕ) : Prop :=
  ∃ r ∈ ranges, ∃ i < r.2, a % 2 ^ 32 = (r.1 + i) % 2 ^ 32

variable {k : Caller} {separator addedPath pathChecked a : ℕ} {mem mem' : Buffer}

theorem not_covered_cons {r : Range} {ranges : List Range} : ¬ Covered (r :: ranges) a ↔
    (∀ i < r.2, a % 2 ^ 32 ≠ (r.1 + i) % 2 ^ 32) ∧ ¬ Covered ranges a := by
  simp [Covered]

theorem byteAt_setByte_of_notMem {str : ℕ} (c : UInt8)
    (h : ∀ i < 1, a % 2 ^ 32 ≠ (str + i) % 2 ^ 32) :
    byteAt (setByte mem str c) a = byteAt mem a :=
  byteAt_setByte_of_ne (h 0 Nat.one_pos) c

theorem byteAt_stringStores {dest src n : ℕ} (h : ¬ Covered (stringStores dest n) a) :
    byteAt (setByte (memcpy mem dest src n) (dest + n) 0) a = byteAt mem a := by
  rw [stringStores, not_covered_cons, not_covered_cons] at h
  rw [byteAt_setByte_of_notMem 0 h.2.1, byteAt_memcpy_of_notMem h.1]

theorem setCwd_frame (hset : k.setCwd addedPath = some mem') {length : ℕ}
    (hlength : strlen k.mem addedPath = some length)
    (h : ¬ Covered (stringStores k.cwd length) a) : byteAt mem' a = byteAt k.mem a := by
  rw [Caller.setCwd, hlength, Option.bind_eq_bind, Option.bind_some] at hset
  obtain rfl := Option.some.inj hset
  exact byteAt_stringStores h

theorem cdParent_frame (hcd : k.cdParent addedPath = some mem')
    (h : ¬ Covered (parentStores k addedPath) a) : byteAt mem' a = byteAt k.mem a := by
  obtain ⟨size, hsize, hcd⟩ := Option.bind_eq_some_iff.mp hcd
  obtain ⟨index, hindex, hcd⟩ := Option.bind_eq_some_iff.mp hcd
  obtain rfl := Option.some.inj hcd
  rw [parentStores, hsize, Option.bind_some, hindex] at h
  by_cases hzero : index ≠ 0
  · rw [if_pos hzero]
    simp only [if_pos hzero, not_covered_cons] at h
    exact byteAt_memcpy_of_notMem h.1
  · rw [if_neg hzero]

theorem cdChild_frame {length prevLen : ℕ}
    (hcd : k.cdChild separator addedPath length = some mem')
    (hprev : strlen (k.addition addedPath length) k.cwd = some prevLen)
    (hliteral : ¬ Covered (stringStores k.literal length) a)
    (hbuffer : ¬ Covered [(addedPath, copied prevLen), (addedPath + prevLen, 1),
      (addedPath + prevLen + 1, copied length), (addedPath + prevLen + 1 + length, 1)] a) :
    byteAt mem' a = byteAt k.mem a := by
  rw [Caller.cdChild, hprev, Option.bind_eq_bind, Option.bind_some] at hcd
  obtain rfl := Option.some.inj hcd
  simp only [not_covered_cons] at hbuffer
  obtain ⟨hpath, hslash, hadded, hzero, -⟩ := hbuffer
  have hslash : ∀ i < copied 1, a % 2 ^ 32 ≠ (addedPath + prevLen + i) % 2 ^ 32 := hslash
  rw [byteAt_setByte_of_notMem 0 hzero, byteAt_memcpy_of_notMem hadded,
    byteAt_memcpy_of_notMem hslash, byteAt_memcpy_of_notMem hpath]
  exact byteAt_stringStores hliteral

theorem cd_frame (hcd : k.cd separator addedPath pathChecked = some mem')
    (hkernel : ¬ Covered ((kernelStores k addedPath pathChecked).map Prod.snd) a)
    (hbuffer : ¬ Covered (bufferStores k addedPath pathChecked) a) :
    byteAt mem' a = byteAt k.mem a := by
  unfold Caller.cd at hcd
  unfold kernelStores at hkernel
  unfold bufferStores at hbuffer
  by_cases hzero : pathChecked = 0
  · rw [if_pos hzero] at hcd hkernel hbuffer
    obtain ⟨added, hadded, hcd⟩ := Option.bind_eq_some_iff.mp hcd
    simp only [hadded] at hkernel hbuffer
    by_cases hparent : added = [46, 46]
    · rw [if_pos hparent] at hcd hbuffer
      exact cdParent_frame hcd hbuffer
    rw [if_neg hparent] at hcd hkernel hbuffer
    by_cases hself : added = [46]
    · rw [if_pos hself] at hcd
      obtain rfl := Option.some.inj hcd
      rfl
    rw [if_neg hself] at hcd hkernel hbuffer
    obtain ⟨prevLen, hprev, -⟩ := Option.bind_eq_some_iff.mp hcd
    simp only [hprev] at hbuffer
    exact cdChild_frame hcd hprev (by simpa using hkernel) hbuffer
  · rw [if_neg hzero] at hcd hkernel
    obtain ⟨length, hlength, -⟩ := Option.bind_eq_some_iff.mp hcd
    simp only [hlength] at hkernel
    exact setCwd_frame hcd hlength (by simpa using hkernel)

/-! ## Stores inside their objects -/

def Inside (object r : Range) : Prop :=
  ∀ i < r.2, ∃ j < object.2, (r.1 + i) % 2 ^ 32 = (object.1 + j) % 2 ^ 32

/-- Every byte that `cd` stores for an object of the kernel lies inside of it. -/
def StoresInside (k : Caller) (addedPath pathChecked : ℕ) : Prop :=
  ∀ s ∈ kernelStores k addedPath pathChecked, Inside (s.1.object k) s.2

/-- The argument has room: `path_checked` is 0 and there is nothing to keep, or the path has at most
15 characters. -/
def Fits (k : Caller) (addedPath pathChecked : ℕ) : Prop :=
  (pathChecked = 0 → ∀ added, cstring k.mem addedPath = some added →
    added = [] ∨ added = [46] ∨ added = [46, 46]) ∧
  (pathChecked ≠ 0 → ∀ length, strlen k.mem addedPath = some length → length ≤ 15)

theorem stringStores_inside_iff {dest n size : ℕ} (hn : n < 2 ^ 32) (hsize : size < 2 ^ 31) :
    (∀ r ∈ stringStores dest n, Inside (dest, size) r) ↔ n < size := by
  rw [stringStores, List.forall_mem_cons, List.forall_mem_singleton]
  constructor
  · rintro ⟨-, hzero⟩
    obtain ⟨j, hj, heq⟩ := hzero 0 Nat.one_pos
    simp only [Nat.add_zero] at heq hj
    omega
  · intro hlt
    refine ⟨fun i hi => ⟨i, ?_, rfl⟩, fun i hi => ⟨n, hlt, ?_⟩⟩
    · simp only [copied] at hi
      split at hi <;> simp only <;> omega
    · simp only [Nat.lt_one_iff] at hi
      simp only [hi, Nat.add_zero]

theorem storesInside_iff :
    StoresInside k addedPath pathChecked ↔ Fits k addedPath pathChecked := by
  unfold StoresInside kernelStores Fits
  by_cases hzero : pathChecked = 0
  · rw [if_pos hzero]
    simp only [hzero, forall_const, ne_eq, not_true_eq_false, false_implies, and_true]
    cases hadded : cstring k.mem addedPath with
    | none => simp
    | some added =>
      obtain ⟨hlt, -⟩ := cstring_eq_some_iff.mp hadded
      by_cases hparent : added = [46, 46]
      · simp [hparent]
      by_cases hself : added = [46]
      · simp [hself]
      dsimp only
      rw [if_neg hparent, if_neg hself]
      simp only [Option.some.injEq, forall_eq', hparent, hself, or_false, List.forall_mem_map,
        Target.object]
      rw [stringStores_inside_iff hlt (by decide), Nat.lt_one_iff, List.length_eq_zero_iff]
  · rw [if_neg hzero]
    simp only [hzero, false_implies, true_and, ne_eq, not_false_eq_true, forall_const]
    cases hlength : strlen k.mem addedPath with
    | none => simp
    | some length =>
      obtain ⟨hlt, -⟩ := strlen_eq_some_iff.mp hlength
      simp only [Option.some.injEq, forall_eq', List.forall_mem_map, Target.object]
      rw [stringStores_inside_iff hlt (by decide), Nat.lt_succ_iff]

theorem not_covered_of_inside (hinside : StoresInside k addedPath pathChecked)
    (ha : ¬ Covered [Target.storedAddition.object k, Target.cwd.object k] a) :
    ¬ Covered ((kernelStores k addedPath pathChecked).map Prod.snd) a := by
  rintro ⟨r, hr, i, hi, heq⟩
  obtain ⟨s, hs, rfl⟩ := List.mem_map.mp hr
  obtain ⟨j, hj, heq'⟩ := hinside s hs i hi
  refine ha ⟨s.1.object k, ?_, j, hj, heq.trans heq'⟩
  cases s.1 <;> simp

/-! ## Runs of calls -/

structure CdCall where
  caller : Caller
  addedPath : ℕ
  pathChecked : ℕ

/-- A call by some program, whose memory is behind the kernel's half. One that is in a loop for ever
has stored nothing. -/
structure CdStep (k : Caller) (separator : ℕ) (mem : Buffer) (e : CdCall) (mem' : Buffer) :
    Prop where
  cwd : e.caller.cwd = k.cwd
  literal : e.caller.literal = k.literal
  kernel : ∀ a < 2 ^ 31, e.caller.mem a = mem a
  returns : mem' = (e.caller.cd separator e.addedPath e.pathChecked).getD e.caller.mem

def CdRun (k : Caller) (separator : ℕ) : List CdCall → Buffer → Prop :=
  Runs.Trace (fun mem => mem = k.mem) (CdStep k separator)

theorem CdStep.frame {e : CdCall} (hstep : CdStep k separator mem e mem')
    (hfits : Fits e.caller e.addedPath e.pathChecked) (ha : a < 2 ^ 31)
    (hobjects : ¬ Covered [Target.storedAddition.object k, Target.cwd.object k] a)
    (hbuffer : ¬ Covered (bufferStores e.caller e.addedPath e.pathChecked) a) :
    byteAt mem' a = byteAt mem a := by
  have hkernel : byteAt e.caller.mem a = byteAt mem a := by
    rw [byteAt_eq (by omega), byteAt_eq (by omega), hstep.kernel a ha]
  rw [hstep.returns, ← hkernel]
  cases hcd : e.caller.cd separator e.addedPath e.pathChecked with
  | none => rfl
  | some mem'' =>
    refine cd_frame hcd (not_covered_of_inside (storesInside_iff.mpr hfits) ?_) hbuffer
    simpa only [Target.object, hstep.cwd, hstep.literal] using hobjects

/-- The stores of a run are all inside their objects if and only if every argument has room; then
the kernel's memory outside of the two objects is what it was, unless a caller passed it as a
buffer. -/
theorem cd_storage_iff (k : Caller) (separator : ℕ) {es : List CdCall} {mem : Buffer}
    (hrun : CdRun k separator es mem) :
    ((∀ e ∈ es, StoresInside e.caller e.addedPath e.pathChecked) ↔
      ∀ e ∈ es, Fits e.caller e.addedPath e.pathChecked) ∧
    ((∀ e ∈ es, Fits e.caller e.addedPath e.pathChecked) → ∀ a < 2 ^ 31,
      ¬ Covered [Target.storedAddition.object k, Target.cwd.object k] a →
      (∀ e ∈ es, ¬ Covered (bufferStores e.caller e.addedPath e.pathChecked) a) →
      byteAt mem a = byteAt k.mem a) := by
  refine ⟨forall₂_congr fun e _ => storesInside_iff, fun hfits a ha hobjects hbuffers => ?_⟩
  induction hrun with
  | start h => rw [h]
  | step _ hstep ih =>
    have hlast := hstep.frame (hfits _ (by simp)) ha hobjects (hbuffers _ (by simp))
    rw [hlast]
    exact ih (fun e he => hfits e (List.mem_append_left _ he))
      fun e he => hbuffers e (List.mem_append_left _ he)

def testfolderCall (path : List UInt8) (pathChecked : ℕ) : CdCall where
  caller := { inTestfolder 0 with
    mem := Store.apply (inTestfolder 0).mem ⟨0x90000000, path ++ [0]⟩ }
  addedPath := 0x90000000
  pathChecked := pathChecked

theorem testfolderCall_mem (path : List UInt8) (pathChecked : ℕ) :
    (testfolderCall path pathChecked).caller.mem =
      Store.apply (inTestfolder 0).mem ⟨0x90000000, path ++ [0]⟩ := rfl

theorem testfolderCall_run (path : List UInt8) (pathChecked : ℕ) : ∃ mem,
    CdRun (testfolderCall path pathChecked).caller 0x200010 [testfolderCall path pathChecked] mem := by
  have hstart : CdRun (testfolderCall path pathChecked).caller 0x200010 []
      (testfolderCall path pathChecked).caller.mem := .start rfl
  exact ⟨_, Runs.Trace.step hstart ⟨rfl, rfl, fun _ _ => rfl, rfl⟩⟩

def keepParent : CdCall where
  caller := { inTestfolder 0 with
    mem := ((testfolderCall [46, 46] 0).caller.cd 0x200010 0x90000000 0).getD
      (testfolderCall [46, 46] 0).caller.mem }
  addedPath := 0x90000000
  pathChecked := 1

/-- `cd ..` and keeping the path `sbin`: both calls store inside, and a byte behind the two objects
is as it was. -/
theorem sbin_inside : ∃ mem,
    CdRun (inTestfolder 0) 0x200010 [testfolderCall [46, 46] 0, keepParent] mem ∧
    StoresInside (testfolderCall [46, 46] 0).caller 0x90000000 0 ∧
    StoresInside keepParent.caller 0x90000000 1 ∧
    byteAt mem 0x100010 = byteAt (inTestfolder 0).mem 0x100010 := by
  have hkernel : ∀ a < 2 ^ 31, (testfolderCall [46, 46] 0).caller.mem a = (inTestfolder 0).mem a := by
    intro a ha
    rw [testfolderCall_mem]
    refine Store.apply_of_not_touches (by omega) ?_
    rintro ⟨i, hi, heq⟩
    have hi : i < 3 := hi
    simp only at heq
    omega
  have hstart : CdRun (inTestfolder 0) 0x200010 [] (inTestfolder 0).mem := .start rfl
  have hparent : CdRun (inTestfolder 0) 0x200010 [testfolderCall [46, 46] 0] _ :=
    hstart.step ⟨rfl, rfl, hkernel, rfl⟩
  have hrun : CdRun (inTestfolder 0) 0x200010 [testfolderCall [46, 46] 0, keepParent] _ :=
    hparent.step ⟨rfl, rfl, fun _ _ => rfl, rfl⟩
  have hfits : ∀ e ∈ [testfolderCall [46, 46] 0, keepParent],
      Fits e.caller e.addedPath e.pathChecked := by
    have hname : cstring (testfolderCall [46, 46] 0).caller.mem 0x90000000 = some [46, 46] := by
      decide +kernel
    have hlength : strlen keepParent.caller.mem 0x90000000 = some 4 := by decide +kernel
    intro e he
    simp only [List.mem_cons, List.not_mem_nil, or_false] at he
    rcases he with rfl | rfl
    · refine ⟨fun _ added h => ?_, fun h => absurd rfl h⟩
      obtain rfl := Option.some.inj (hname.symm.trans h)
      exact .inr (.inr rfl)
    · refine ⟨fun h => absurd h Nat.one_ne_zero, fun _ length h => ?_⟩
      obtain rfl := Option.some.inj (hlength.symm.trans h)
      decide
  obtain ⟨hinside, hframe⟩ := cd_storage_iff _ _ hrun
  have hall := hinside.mpr hfits
  refine ⟨_, hrun, hall _ List.mem_cons_self, hall _ (by simp), hframe hfits _ (by decide) ?_ ?_⟩
  · rintro ⟨r, hr, i, hi, heq⟩
    simp only [List.mem_cons, List.not_mem_nil, or_false] at hr
    rcases hr with rfl | rfl
    · have hi : i < 1 := hi
      change 0x100010 % 2 ^ 32 = (0x200000 + i) % 2 ^ 32 at heq
      omega
    · have hi : i < 16 := hi
      change 0x100010 % 2 ^ 32 = (0x100000 + i) % 2 ^ 32 at heq
      omega
  · intro e he
    simp only [List.mem_cons, List.not_mem_nil, or_false] at he
    rcases he with rfl | rfl
    · have hbuffer : bufferStores (testfolderCall [46, 46] 0).caller 0x90000000 0 =
          [(0x90000000, 4)] := by decide +kernel
      change ¬ Covered (bufferStores (testfolderCall [46, 46] 0).caller 0x90000000 0) _
      rw [hbuffer]
      rintro ⟨r, hr, i, hi, heq⟩
      obtain rfl := List.mem_singleton.mp hr
      simp only at hi heq
      omega
    · rintro ⟨r, hr, -⟩
      exact absurd hr List.not_mem_nil

def testfolderBob : List UInt8 := joined (testfolder ++ [bob])

/-- `cd bob` keeps four bytes at a literal of one byte, and `sbin/testfolder/bob` needs 20 of the 16
bytes of the current directory. -/
theorem bob_outside :
    (∃ mem, CdRun (testfolderCall bob 0).caller 0x200010 [testfolderCall bob 0] mem) ∧
    ¬ StoresInside (testfolderCall bob 0).caller 0x90000000 0 ∧
    (∃ mem, CdRun (testfolderCall testfolderBob 1).caller 0x200010 [testfolderCall testfolderBob 1] mem) ∧
    ¬ StoresInside (testfolderCall testfolderBob 1).caller 0x90000000 1 := by
  have hname : cstring (testfolderCall bob 0).caller.mem 0x90000000 = some bob := by decide +kernel
  have hpath : strlen (testfolderCall testfolderBob 1).caller.mem 0x90000000 = some 19 := by
    decide +kernel
  refine ⟨testfolderCall_run _ _, fun h => ?_, testfolderCall_run _ _, fun h => ?_⟩
  · exact absurd ((storesInside_iff.mp h).1 rfl _ hname) (by decide)
  · exact absurd ((storesInside_iff.mp h).2 Nat.one_ne_zero _ hpath) (by decide)

end OsShell.Sys
