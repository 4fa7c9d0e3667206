import OsShell.Exec.Code

/-!
# What a read of a file delivers

A range is read byte by byte as far as its blocks can be read. Where they all can, and
are read as the file has them, its bytes are delivered; where one of them cannot, the
call does not return, and what is in front of that block has been delivered.
-/

namespace OsShell.Exec

open Bytes Stopping

namespace File

variable (f : File)

def Readable (i : ℕ) : Prop := (f.readBlock (i / f.blockSize)).isOk

instance (i : ℕ) : Decidable (f.Readable i) := inferInstanceAs (Decidable (_ = true))

def ReadsBack (i : ℕ) : Prop :=
  ∃ block, f.readBlock (i / f.blockSize) = .ok block ∧ block (i % f.blockSize) = f.bytes.getD i 0

def Truthful : Prop := ∀ i < f.bytes.length, f.Readable i → f.ReadsBack i

def view (offset size : ℕ) : Buffer :=
  fun i => ((f.bytes.drop offset).take size).getD i 0

variable {f} {offset n size : ℕ}

theorem readable_iff {i : ℕ} :
    f.Readable i ↔ ∃ block, f.readBlock (i / f.blockSize) = .ok block := by
  unfold Readable
  cases f.readBlock (i / f.blockSize) <;> simp [Except.isOk, Except.toBool]

theorem ReadsBack.readable {i : ℕ} (h : f.ReadsBack i) : f.Readable i := by
  obtain ⟨block, hblock, -⟩ := h
  exact readable_iff.mpr ⟨block, hblock⟩

/-! ## The bytes one by one -/

theorem length_readBytes (offset n : ℕ) : (f.readBytes offset n).1.length =
    ((List.range n).takeWhile fun i => f.Readable (offset + i)).length := by
  induction n generalizing offset with
  | zero => rfl
  | succ n ih =>
    have hnext : (fun i => decide (f.Readable (offset + i))) ∘ Nat.succ =
        fun i => decide (f.Readable (offset + 1 + i)) :=
      funext fun i => congrArg (fun j => decide (f.Readable j)) (Nat.add_right_comm offset i 1)
    rw [readBytes, List.range_succ_eq_map, List.takeWhile_cons, List.takeWhile_map, hnext]
    cases hblock : f.readBlock (offset / f.blockSize) with
    | error e =>
      have hnot : ¬ f.Readable offset := by simp [Readable, hblock, Except.isOk, Except.toBool]
      simp [hnot]
    | ok block =>
      have hcan : f.Readable offset := readable_iff.mpr ⟨block, hblock⟩
      simp [hcan, ih]

theorem readBytes_ok_iff : (f.readBytes offset n).2 = .ok () ↔ ∀ i < n, f.Readable (offset + i) := by
  induction n generalizing offset with
  | zero => exact iff_of_true rfl fun i hi => absurd hi (Nat.not_lt_zero i)
  | succ n ih =>
    rw [readBytes]
    cases hblock : f.readBlock (offset / f.blockSize) with
    | error e =>
      have hnot : ¬ f.Readable offset := by simp [Readable, hblock, Except.isOk, Except.toBool]
      exact iff_of_false nofun fun h => hnot (h 0 (Nat.succ_pos n))
    | ok block =>
      have hcan : f.Readable offset := readable_iff.mpr ⟨block, hblock⟩
      refine ih.trans ⟨fun h i hi => ?_, fun h i hi => ?_⟩
      · cases i with
        | zero => exact hcan
        | succ i => exact Nat.add_right_comm offset 1 i ▸ h i (by omega)
      · have := h (i + 1) (by omega)
        rwa [← Nat.add_assoc, Nat.add_right_comm] at this

theorem readBytes_of_content (content : Buffer) (h : ∀ i < n, ∃ block,
    f.readBlock ((offset + i) / f.blockSize) = .ok block ∧
      block ((offset + i) % f.blockSize) = content (offset + i)) :
    f.readBytes offset n = ((List.range n).map fun i => content (offset + i), .ok ()) := by
  induction n generalizing offset with
  | zero => rfl
  | succ n ih =>
    obtain ⟨block, hblock, hbyte⟩ := h 0 (Nat.succ_pos n)
    have hrest : f.readBytes (offset + 1) n = _ := ih fun i hi => by
      have := h (i + 1) (by omega)
      rwa [← Nat.add_assoc, Nat.add_right_comm] at this
    have hnext : (fun i => content (offset + i)) ∘ Nat.succ = fun i => content (offset + 1 + i) :=
      funext fun i => congrArg content (Nat.add_right_comm offset i 1)
    rw [Nat.add_zero] at hblock hbyte
    rw [readBytes, hblock, List.range_succ_eq_map, List.map_cons, List.map_map, hnext]
    simp only [hrest, hbyte, Nat.add_zero]

theorem readBytes_of_readsBack (hfit : offset + n ≤ f.bytes.length)
    (h : ∀ i < n, f.ReadsBack (offset + i)) :
    f.readBytes offset n = ((f.bytes.drop offset).take n, .ok ()) := by
  rw [readBytes_of_content (fun i => f.bytes.getD i 0) h]
  refine congrArg (·, _) (List.ext_getElem (by simp; omega) fun i hi hi' => ?_)
  rw [List.getElem_map, List.getElem_range, List.getElem_take, List.getElem_drop,
    List.getD_eq_getElem]

/-! ## Ranges -/

def CanRead (f : File) (offset n : ℕ) : Prop :=
  ∀ i < min n (f.bytes.length - offset), f.Readable (offset + i)

instance (f : File) (offset n : ℕ) : Decidable (f.CanRead offset n) :=
  inferInstanceAs (Decidable (∀ i < _, _))

def Back (f : File) (offset n : ℕ) : Prop := ∀ i < n, f.ReadsBack (offset + i)

theorem readAll_ok_iff : (∃ cnt, (f.readAll offset n).2 = .ok cnt) ↔ f.CanRead offset n := by
  unfold readAll CanRead
  by_cases hn : n = 0
  · exact iff_of_true ⟨0, by rw [if_pos hn]⟩ fun i hi => by omega
  by_cases hoff : offset > f.bytes.length
  · exact iff_of_true ⟨-1, by rw [if_neg hn, if_pos hoff]⟩ fun i hi => by omega
  · rw [if_neg hn, if_neg hoff, ← readBytes_ok_iff]
    generalize f.readBytes offset (min n (f.bytes.length - offset)) = r
    obtain ⟨bytes, e | ⟨⟩⟩ := r
    · exact iff_of_false (fun ⟨_, h⟩ => nomatch h) nofun
    · exact iff_of_true ⟨_, rfl⟩ rfl

theorem length_readAll (offset n : ℕ) : (f.readAll offset n).1.length =
    ((List.range (min n (f.bytes.length - offset))).takeWhile
      fun i => f.Readable (offset + i)).length := by
  unfold readAll
  by_cases hn : n = 0
  · rw [if_pos hn, hn, Nat.zero_min]
    rfl
  by_cases hoff : offset > f.bytes.length
  · rw [if_neg hn, if_pos hoff, Nat.sub_eq_zero_of_le (by omega), Nat.min_zero]
    rfl
  · rw [if_neg hn, if_neg hoff]
    exact length_readBytes _ _

theorem readAll_of_back (hfit : n = 0 ∨ offset + n ≤ f.bytes.length) (h : f.Back offset n) :
    f.readAll offset n = ((f.bytes.drop offset).take n, .ok n) := by
  unfold readAll
  by_cases hn : n = 0
  · rw [if_pos hn, hn]
    rfl
  · have hmin : min n (f.bytes.length - offset) = n := by omega
    rw [if_neg hn, if_neg (by omega), hmin, readBytes_of_readsBack (by omega) h]
    simp only [List.length_take, List.length_drop, hmin]
    rfl

theorem readThing_of_back (hfit : offset + size ≤ f.bytes.length) (h : f.Back offset size) :
    f.readThing offset size = .ok (f.view offset size) := by
  rw [readThing, readAll_of_back (.inr hfit) h]
  simp only [ok_bind, assert_true]
  rfl

theorem of_readThing (hsize : 0 < size) {bits : Buffer} (h : f.readThing offset size = .ok bits) :
    offset + size ≤ f.bytes.length ∧ f.CanRead offset size := by
  obtain ⟨bytes, result, hr⟩ : ∃ bytes result, f.readAll offset size = (bytes, result) := ⟨_, _, rfl⟩
  rw [readThing, hr] at h
  simp only at h
  obtain ⟨cnt, rfl, hrest⟩ := bind_eq_ok.mp h
  obtain ⟨⟨⟩, hassert, -⟩ := bind_eq_ok.mp hrest
  have hcount : cnt = size := by
    by_contra hne
    simp [assert, hne] at hassert
  refine ⟨?_, readAll_ok_iff.mp ⟨cnt, by rw [hr]⟩⟩
  have hlen := length_readAll (f := f) offset size
  have hle := ((List.range (min size (f.bytes.length - offset))).takeWhile_sublist
    fun i => f.Readable (offset + i)).length_le
  rw [List.length_range, ← hlen, hr] at hle
  simp only at hle
  unfold readAll at hr
  rw [if_neg hsize.ne'] at hr
  split_ifs at hr with hoff
  · have : (-1 : ℤ) = cnt := Except.ok.inj (Prod.mk.inj hr).2
    omega
  · generalize f.readBytes offset _ = r at hr
    obtain ⟨bytes', e | u⟩ := r
    · cases (Prod.mk.inj hr).2
    · obtain ⟨rfl, hcnt⟩ := Prod.mk.inj hr
      have hcnt : (bytes'.length : ℤ) = cnt := Except.ok.inj hcnt
      omega

theorem Truthful.back (h : f.Truthful) (hfit : n = 0 ∨ offset + n ≤ f.bytes.length)
    (hcan : f.CanRead offset n) : f.Back offset n := fun i hi =>
  h _ (by omega) (hcan i (by omega))

def stored (type blockSize : ℕ) (bytes : List UInt8) (hpos : 0 < blockSize)
    (hlt : bytes.length < 2 ^ 32) : File where
  type := type
  bytes := bytes
  size_lt := hlt
  blockSize := blockSize
  blockSize_pos := hpos
  readBlock b := .ok fun i => bytes.getD (b * blockSize + i) 0

theorem stored_readsBack {type blockSize : ℕ} {bytes : List UInt8} {hpos : 0 < blockSize}
    {hlt : bytes.length < 2 ^ 32} (i : ℕ) : (stored type blockSize bytes hpos hlt).ReadsBack i := by
  refine ⟨_, rfl, ?_⟩
  change bytes.getD (i / blockSize * blockSize + i % blockSize) 0 = bytes.getD i 0
  rw [Nat.div_add_mod']

end File

end OsShell.Exec
