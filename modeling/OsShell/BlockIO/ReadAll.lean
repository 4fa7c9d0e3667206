import OsShell.BlockIO.Code

/-!
# What `read_all` reads

`io.Holds content` says that the device has the bytes `content` in its blocks.
One `read` then copies the rest of a block, and the loop, by induction on the
number of bytes still wanted, the whole range up to the end of the device.
-/

namespace OsShell.BlockIO

open Bytes Stopping

variable {io : BlockIO} {content junk buffer : Buffer} {offset n p : ℕ}

def Reads (io : BlockIO) (content : Buffer) (b : ℕ) : Prop :=
  ∀ p buffer, io.readBlock b p buffer =
    .ok (put p io.blockSize (fun i => content (b * io.blockSize + i)) buffer)

def Fails (io : BlockIO) (b : ℕ) : Prop :=
  ∀ p buffer, ∃ e, io.readBlock b p buffer = .error e

def Meets (io : BlockIO) (offset n b : ℕ) : Prop :=
  ∃ i < n, (offset + i) / io.blockSize = b

structure Holds (io : BlockIO) (content : Buffer) : Prop where
  pos : 0 < io.blockSize
  size_lt : io.sizeInBytes < 2 ^ 32
  block : ∀ b, b * io.blockSize < io.sizeInBytes → ∀ p buffer, io.readBlock b p buffer =
    .ok (put p io.blockSize (fun i => content (b * io.blockSize + i)) buffer)

def step (io : BlockIO) (offset n : ℕ) : ℕ :=
  min (io.blockSize - offset % io.blockSize) (min n (io.sizeInBytes - offset))

theorem step_le (io : BlockIO) (offset n : ℕ) : io.step offset n ≤ min n (io.sizeInBytes - offset) :=
  min_le_right _ _

theorem read_end : io.read junk io.sizeInBytes n p buffer = .ok (0, buffer) := by
  simp [read]

theorem read_beyond (hoff : io.sizeInBytes < offset) :
    io.read junk offset n p buffer = .ok (-1, buffer) := by
  simp [read, hoff]

/-- The path of `read` through a temporary block. -/
def throughTemp (io : BlockIO) (junk : Buffer) (b offsetInBlock n p : ℕ) (buffer : Buffer) :
    Except Halt Buffer := do
  let temp ← io.readBlock b 0 junk
  return put p n (fun i => temp (offsetInBlock + i)) buffer

section Blocks

variable (hpos : 0 < io.blockSize)
include hpos

theorem step_pos (hoff : offset < io.sizeInBytes) (hn : 0 < n) : 0 < io.step offset n := by
  have := Nat.mod_lt offset hpos
  unfold step
  omega

theorem meets_iff (hoff : offset < io.sizeInBytes) (hn : 0 < n) {b : ℕ} :
    io.Meets offset (min n (io.sizeInBytes - offset)) b ↔ offset / io.blockSize = b ∨
      io.Meets (offset + io.step offset n)
        (min (n - io.step offset n) (io.sizeInBytes - (offset + io.step offset n))) b := by
  have hmod := Nat.mod_lt offset hpos
  have hdiv := Nat.div_add_mod' offset io.blockSize
  have hle := io.step_le offset n
  constructor
  · rintro ⟨i, hi, rfl⟩
    by_cases hfirst : i < io.step offset n
    · left
      symm
      apply Nat.div_eq_of_lt_le
      · omega
      · unfold step at hfirst
        rw [Nat.succ_mul]
        omega
    · refine Or.inr ⟨i - io.step offset n, by omega, ?_⟩
      rw [show offset + io.step offset n + (i - io.step offset n) = offset + i by omega]
  · rintro (rfl | ⟨i, hi, rfl⟩)
    · exact ⟨0, by omega, by rw [Nat.add_zero]⟩
    · exact ⟨io.step offset n + i, by omega, by rw [Nat.add_assoc]⟩

theorem read_eq_throughTemp (hblock : io.Reads content (offset / io.blockSize))
    (hoff : offset < io.sizeInBytes) :
    io.read junk offset n p buffer = (io.throughTemp junk (offset / io.blockSize)
      (offset % io.blockSize) (io.step offset n) p buffer).map fun b => ((io.step offset n : ℤ), b) := by
  have hle := io.step_le offset n
  have hmod := Nat.mod_lt offset hpos
  have hfit : offset % io.blockSize + io.step offset n ≤ io.blockSize := by
    unfold step
    omega
  have hnowrap : (offset + io.step offset n) % 2 ^ 32 ≤ io.sizeInBytes :=
    (Nat.mod_le _ _).trans (by omega)
  unfold read
  simp only [if_neg hoff.not_gt, if_neg hoff.ne]
  rw [show min (io.blockSize - offset % io.blockSize) (min n (io.sizeInBytes - offset))
    = io.step offset n from rfl, assert_true hle, assert_true hnowrap]
  simp only [ok_bind, throughTemp]
  split
  · rename_i hwhole
    have hzero : offset % io.blockSize = 0 := by omega
    rw [assert_true hzero, hblock, hblock, hwhole, hzero]
    refine congrArg (fun b => Except.ok ((io.blockSize : ℤ), b)) (put_congr _ fun i hi => ?_)
    rw [Nat.zero_add, ← Nat.zero_add i, put_of_mem _ _ hi, Nat.zero_add]
  · have hlow : (offset % io.blockSize + io.step offset n) % 2 ^ 32 ≤ io.blockSize :=
      (Nat.mod_le _ _).trans hfit
    rw [assert_true hlow, hblock]
    rfl

theorem read_of_reads (hblock : io.Reads content (offset / io.blockSize))
    (hoff : offset < io.sizeInBytes) : io.read junk offset n p buffer =
      .ok ((io.step offset n : ℕ), put p (io.step offset n) (fun i => content (offset + i)) buffer) := by
  have hmod := Nat.mod_lt offset hpos
  have hdiv := Nat.div_add_mod' offset io.blockSize
  rw [read_eq_throughTemp hpos hblock hoff, throughTemp, hblock]
  refine congrArg (fun b => Except.ok ((io.step offset n : ℤ), b)) (put_congr _ fun i hi => ?_)
  have hin : offset % io.blockSize + i < io.blockSize := by
    unfold step at hi
    omega
  have htemp := put_of_mem (p := 0)
    (fun i => content (offset / io.blockSize * io.blockSize + i)) junk hin
  rw [Nat.zero_add] at htemp
  rw [htemp, ← Nat.add_assoc, hdiv]

theorem read_of_fails (hblock : io.Fails (offset / io.blockSize)) (hoff : offset < io.sizeInBytes) :
    ∃ e, io.read junk offset n p buffer = .error e := by
  have hle := io.step_le offset n
  have hmod := Nat.mod_lt offset hpos
  have hfit : offset % io.blockSize + io.step offset n ≤ io.blockSize := by
    unfold step
    omega
  have hnowrap : (offset + io.step offset n) % 2 ^ 32 ≤ io.sizeInBytes :=
    (Nat.mod_le _ _).trans (by omega)
  unfold read
  simp only [if_neg hoff.not_gt, if_neg hoff.ne]
  rw [show min (io.blockSize - offset % io.blockSize) (min n (io.sizeInBytes - offset))
    = io.step offset n from rfl, assert_true hle, assert_true hnowrap]
  simp only [ok_bind]
  split
  · rename_i hwhole
    have hzero : offset % io.blockSize = 0 := by omega
    obtain ⟨e, he⟩ := hblock p buffer
    exact ⟨e, by rw [assert_true hzero, ok_bind, he, error_bind]⟩
  · have hlow : (offset % io.blockSize + io.step offset n) % 2 ^ 32 ≤ io.blockSize :=
      (Nat.mod_le _ _).trans hfit
    obtain ⟨e, he⟩ := hblock 0 junk
    exact ⟨e, by rw [assert_true hlow, ok_bind, he, error_bind]⟩

theorem readLoop_of_reads (hsize : io.sizeInBytes < 2 ^ 32) (total : ℤ) (hoff : offset ≤ io.sizeInBytes)
    (hblocks : ∀ b, io.Meets offset (min n (io.sizeInBytes - offset)) b → io.Reads content b) :
    io.readLoop junk total offset n p buffer =
      .ok (total + (min n (io.sizeInBytes - offset) : ℕ),
        put p (min n (io.sizeInBytes - offset)) (fun i => content (offset + i)) buffer) := by
  induction n using Nat.strong_induction_on generalizing total offset p buffer with
  | _ n ih =>
    rw [readLoop]
    by_cases hn : n = 0
    · simp [hn]
    by_cases hend : offset = io.sizeInBytes
    · simp [hn, hend, read_end]
    have hlt : offset < io.sizeInBytes := by omega
    have hstep := step_pos hpos hlt (show 0 < n by omega)
    have hle := io.step_le offset n
    have hfirst := hblocks _ ((meets_iff hpos hlt (by omega)).mpr (Or.inl rfl))
    have hothers := fun b hb => hblocks b ((meets_iff hpos hlt (by omega)).mpr (Or.inr hb))
    rw [dif_neg hn, read_of_reads hpos hfirst hlt]
    generalize io.step offset n = k at hstep hle hothers ⊢
    have hnext : (offset + k) % 2 ^ 32 = offset + k := Nat.mod_eq_of_lt (by omega)
    simp only [dif_neg (show ¬ (k : ℤ) < 0 by omega), dif_neg (show ¬ (k : ℤ) = 0 by omega),
      Int.toNat_natCast, hnext]
    rw [ih (n - k) (by omega) _ (by omega) hothers]
    have hrest : min n (io.sizeInBytes - offset)
        = k + min (n - k) (io.sizeInBytes - (offset + k)) := by omega
    have hput := put_put p k (min (n - k) (io.sizeInBytes - (offset + k)))
      (fun i => content (offset + i)) buffer
    simp only [← Nat.add_assoc] at hput
    rw [hput, ← hrest]
    congr 2
    omega

theorem readLoop_of_fails (hsize : io.sizeInBytes < 2 ^ 32) (total : ℤ) (hoff : offset ≤ io.sizeInBytes)
    (hblocks : ∀ b, io.Meets offset (min n (io.sizeInBytes - offset)) b →
      io.Reads content b ∨ io.Fails b)
    (hfails : ∃ b, io.Meets offset (min n (io.sizeInBytes - offset)) b ∧ io.Fails b) :
    ∃ e, io.readLoop junk total offset n p buffer = .error e := by
  obtain ⟨b, hb, hfails⟩ := hfails
  induction n using Nat.strong_induction_on generalizing total offset p buffer with
  | _ n ih =>
    have hrange : 0 < min n (io.sizeInBytes - offset) := by
      obtain ⟨i, hi, -⟩ := hb
      omega
    have hlt : offset < io.sizeInBytes := by omega
    have hstep := step_pos hpos hlt (show 0 < n by omega)
    have hle := io.step_le offset n
    have hfirst := hblocks _ ((meets_iff hpos hlt (by omega)).mpr (Or.inl rfl))
    have hothers := fun b hb => hblocks b ((meets_iff hpos hlt (by omega)).mpr (Or.inr hb))
    rw [readLoop, dif_neg (by omega)]
    by_cases hstops : io.Fails (offset / io.blockSize)
    · obtain ⟨e, he⟩ : ∃ e, io.read junk offset n p buffer = .error e :=
        read_of_fails hpos hstops hlt
      exact ⟨e, by rw [he]⟩
    have hb := ((meets_iff hpos hlt (by omega)).mp hb).resolve_left fun heq => hstops (heq ▸ hfails)
    rw [read_of_reads hpos (hfirst.resolve_right hstops) hlt]
    generalize io.step offset n = k at hstep hle hothers hb ⊢
    have hnext : (offset + k) % 2 ^ 32 = offset + k := Nat.mod_eq_of_lt (by omega)
    simp only [dif_neg (show ¬ (k : ℤ) < 0 by omega), dif_neg (show ¬ (k : ℤ) = 0 by omega),
      Int.toNat_natCast, hnext]
    exact ih (n - k) (by omega) _ (by omega) hothers hb

theorem readAll_of_reads (hsize : io.sizeInBytes < 2 ^ 32) (hfit : offset + n ≤ io.sizeInBytes)
    (hblocks : ∀ i < n, io.Reads content ((offset + i) / io.blockSize)) :
    io.readAll junk offset n p buffer =
      .ok ((n : ℕ), put p n (fun i => content (offset + i)) buffer) := by
  have hmin : min n (io.sizeInBytes - offset) = n := by omega
  have hmeets : ∀ b, io.Meets offset (min n (io.sizeInBytes - offset)) b → io.Reads content b := by
    rintro _ ⟨i, hi, rfl⟩
    exact hblocks i (by omega)
  rw [readAll, readLoop_of_reads hpos hsize 0 (by omega) hmeets, hmin, zero_add]

theorem readAll_of_fails (hsize : io.sizeInBytes < 2 ^ 32) (hfit : offset + n ≤ io.sizeInBytes)
    (hblocks : ∀ i < n, io.Reads content ((offset + i) / io.blockSize) ∨
      io.Fails ((offset + i) / io.blockSize)) {i : ℕ} (hi : i < n)
    (hfails : io.Fails ((offset + i) / io.blockSize)) :
    ∃ e, io.readAll junk offset n p buffer = .error e := by
  have hmeets : ∀ b, io.Meets offset (min n (io.sizeInBytes - offset)) b →
      io.Reads content b ∨ io.Fails b := by
    rintro _ ⟨j, hj, rfl⟩
    exact hblocks j (by omega)
  exact readLoop_of_fails hpos hsize 0 (by omega) hmeets ⟨_, ⟨i, by omega, rfl⟩, hfails⟩

end Blocks

theorem Holds.reads (h : io.Holds content) (b : ℕ)
    (hb : io.Meets offset (min n (io.sizeInBytes - offset)) b) : io.Reads content b := by
  obtain ⟨i, hi, rfl⟩ := hb
  have hle := Nat.div_mul_le_self (offset + i) io.blockSize
  exact h.block _ (by omega)

theorem readAll_spec (h : io.Holds content) (hoff : offset ≤ io.sizeInBytes) :
    io.readAll junk offset n p buffer = .ok ((min n (io.sizeInBytes - offset) : ℕ),
      put p (min n (io.sizeInBytes - offset)) (fun i => content (offset + i)) buffer) := by
  rw [readAll, readLoop_of_reads h.pos h.size_lt 0 hoff h.reads, zero_add]

theorem readThing_spec (h : io.Holds content) {size : ℕ} (hfit : offset + size ≤ io.sizeInBytes) :
    io.readThing junk offset size = .ok (put 0 size (fun i => content (offset + i)) junk) := by
  have hmin : min size (io.sizeInBytes - offset) = size := by omega
  rw [readThing, readAll_spec h (by omega), hmin]
  simp only [ok_bind, assert_true]
  rfl

def blocks (io : BlockIO) : ℕ :=
  (io.sizeInBytes + io.blockSize - 1) / io.blockSize

/-- A call requests blocks below `k` only: what the device does with other numbers makes no
difference. -/
def RequestsBelow {α : Type} (io : BlockIO) (k : ℕ) (call : BlockIO → Except Halt α) : Prop :=
  ∀ readBlock : ℕ → ℕ → Buffer → Except Halt Buffer, (∀ b < k, readBlock b = io.readBlock b) →
    call { io with readBlock := readBlock } = call io

theorem lt_blocks (hpos : 0 < io.blockSize) {b : ℕ} :
    b < io.blocks ↔ b * io.blockSize < io.sizeInBytes := by
  rw [blocks, Nat.lt_iff_add_one_le, Nat.le_div_iff_mul_le hpos, Nat.succ_mul]
  omega

theorem Holds.with_readBlock (h : io.Holds content) {readBlock : ℕ → ℕ → Buffer → Except Halt Buffer}
    (hsame : ∀ b < io.blocks, readBlock b = io.readBlock b) :
    BlockIO.Holds { io with readBlock := readBlock } content where
  pos := h.pos
  size_lt := h.size_lt
  block b hb p buffer := by
    change readBlock b p buffer = _
    rw [hsame b ((lt_blocks h.pos).mpr hb)]
    exact h.block b hb p buffer

theorem readAll_beyond (hoff : io.sizeInBytes < offset) (hn : 0 < n) :
    io.readAll junk offset n p buffer = .ok (-1, buffer) := by
  rw [readAll, readLoop, dif_neg (by omega), read_beyond hoff]
  rfl

/-- `read_all` keeps its promise, for every device, offset and length. -/
theorem readAll_correct (h : io.Holds content) (junk buffer : Buffer) (offset n p : ℕ) (hn : 0 < n) :
    (io.sizeInBytes < offset → io.readAll junk offset n p buffer = .ok (-1, buffer)) ∧
    (offset ≤ io.sizeInBytes → io.readAll junk offset n p buffer =
      .ok ((min n (io.sizeInBytes - offset) : ℕ),
        put p (min n (io.sizeInBytes - offset)) (fun i => content (offset + i)) buffer)) ∧
    io.RequestsBelow io.blocks (fun io => io.readAll junk offset n p buffer) ∧
    (offset < io.sizeInBytes → io.read junk offset n p buffer =
      (io.throughTemp junk (offset / io.blockSize) (offset % io.blockSize) (io.step offset n) p
        buffer).map fun buffer => ((io.step offset n : ℤ), buffer)) := by
  refine ⟨fun hoff => readAll_beyond hoff hn, fun hoff => readAll_spec h hoff,
    fun readBlock hsame => ?_, fun hoff => ?_⟩
  · have h' := h.with_readBlock hsame
    by_cases hoff : offset ≤ io.sizeInBytes
    · exact (readAll_spec h' hoff).trans (readAll_spec h hoff).symm
    · have hbeyond : io.sizeInBytes < offset := by omega
      change BlockIO.readAll _ junk offset n p buffer = io.readAll junk offset n p buffer
      rw [readAll_beyond hbeyond hn]
      exact readAll_beyond hbeyond hn
  · have hle := Nat.div_mul_le_self offset io.blockSize
    have hblock : io.Reads content (offset / io.blockSize) := h.block _ (by omega)
    exact read_eq_throughTemp h.pos hblock hoff

def tenBytes : BlockIO where
  blockSize := 4
  sizeInBytes := 10
  readBlock b p buffer :=
    if b < 3 then .ok (put p 4 (fun i => .ofNat (b * 4 + i)) buffer) else .error (.panic "no such block")

theorem tenBytes_readAll : tenBytes.readAll (fun _ => 7) 3 20 0 (fun _ => 0) =
    .ok (7, put 0 7 (fun i => .ofNat (3 + i)) fun _ => 0) := by
  have hholds : tenBytes.Holds fun i => .ofNat i := by
    refine ⟨by decide, by decide, fun b hb p buffer => if_pos ?_⟩
    change b * 4 < 10 at hb
    omega
  exact (readAll_correct hholds (fun _ => 7) (fun _ => 0) 3 20 0 (by decide)).2.1 (by decide)

end OsShell.BlockIO
