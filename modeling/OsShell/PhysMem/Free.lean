import OsShell.PhysMem.Pool

/-!
# The free frames

What `allocFrame` can still return, in that order: first the frames on the free
list, then those that were never used. Who holds the others can be read off it.
-/

namespace OsShell.PhysMem

open Stopping

/-- At most `n` links from `p` on. -/
def links (mem : ℕ → ℕ) : ℕ → ℕ → List ℕ
  | 0, _ => []
  | n + 1, p => if p = 0 then [] else p :: links mem n (mem p)

/-- No pool has more than `2 ^ 20` frames. -/
def available (m : Machine) : List ℕ :=
  links m.mem (2 ^ 20) m.firstFree ++
    (List.range ((m.limit + 2 ^ 32 - m.avail) % 2 ^ 32 / frameSize)).map fun i =>
      m.avail + frameSize * i

theorem FreeList.links {mem : ℕ → ℕ} {p n : ℕ} {fl : List ℕ} (h : FreeList mem p fl)
    (hn : fl.length ≤ n) : links mem n p = fl := by
  induction fl generalizing p n with
  | nil =>
    obtain rfl : p = 0 := h
    cases n with
    | zero => rfl
    | succ n => rfl
  | cons f fl ih =>
    obtain ⟨rfl, hp, hfl⟩ := h
    obtain ⟨n, rfl⟩ : ∃ k, n = k + 1 := ⟨n - 1, by simp only [List.length_cons] at hn; omega⟩
    rw [PhysMem.links, if_neg hp, ih hfl (by simpa using hn)]

theorem Pool.count_lt (r : Pool) : r.count < 2 ^ 20 := by
  have h₁ := r.fits
  have h₂ := r.start_pos
  simp only [frameSize] at h₁
  omega

def Pool.rest (r : Pool) (k : ℕ) : List ℕ := (List.range (r.count - k)).map fun i => r.frame (k + i)

theorem Pool.mem_rest {r : Pool} {k f : ℕ} : f ∈ r.rest k ↔ ∃ i, k ≤ i ∧ i < r.count ∧ r.frame i = f := by
  simp only [rest, List.mem_map, List.mem_range]
  constructor
  · rintro ⟨i, hi, rfl⟩
    exact ⟨k + i, by omega, by omega, rfl⟩
  · rintro ⟨i, hk, hi, rfl⟩
    exact ⟨i - k, by omega, by rw [Nat.add_sub_cancel' hk]⟩

section

variable {r : Pool} {m : Machine} {A B fl : List ℕ} {k f : ℕ}

theorem Holds.available (h : Holds r m A fl k) : available m = fl ++ r.rest k := by
  have hlen := h.length
  have hle := h.le
  have hcount := r.count_lt
  have hfits := r.fits
  have hstart := r.start_pos
  have hsize : (m.limit + 2 ^ 32 - m.avail) % 2 ^ 32 / frameSize = r.count - k := by
    rw [h.limit, h.avail]
    simp only [Pool.frame, frameSize] at *
    omega
  rw [PhysMem.available, h.list.links (by omega), hsize, Pool.rest, h.avail]
  refine congrArg (fl ++ ·) (List.map_congr_left fun i hi => ?_)
  rw [List.mem_range] at hi
  simp only [Pool.frame, frameSize] at *
  omega

theorem Owned.mem_available (h : Owned r m A) :
    f ∈ available m ↔ f ∈ r.frames r.count ∧ f ∉ A := by
  obtain ⟨fl, k, h⟩ := h
  obtain ⟨-, -, hdis⟩ := List.nodup_append.mp h.nodup
  have hused : f ∈ r.frames k ↔ f ∈ A ∨ f ∈ fl := by rw [← h.perm.mem_iff, List.mem_append]
  rw [h.available, List.mem_append, Pool.mem_rest]
  rw [Pool.mem_frames] at hused ⊢
  constructor
  · rintro (hf | ⟨i, hk, hi, rfl⟩)
    · obtain ⟨i, hi, rfl⟩ := hused.mpr (Or.inr hf)
      exact ⟨⟨i, hi.trans_le h.le, rfl⟩, fun hA => hdis _ hA _ hf rfl⟩
    · refine ⟨⟨i, hi, rfl⟩, fun hA => ?_⟩
      obtain ⟨j, hj, heq⟩ := hused.mpr (Or.inl hA)
      simp only [Pool.frame, frameSize] at heq
      omega
  · rintro ⟨⟨i, hi, rfl⟩, hA⟩
    by_cases hk : i < k
    · exact Or.inl ((hused.mp ⟨i, hk, rfl⟩).resolve_left hA)
    · exact Or.inr ⟨i, by omega, hi, rfl⟩

theorem Owned.length_available (h : Owned r m A) : (available m).length + A.length = r.count := by
  obtain ⟨fl, k, h⟩ := h
  have hlen := h.length
  have hle := h.le
  rw [h.available, List.length_append, Pool.rest, List.length_map, List.length_range]
  omega

theorem Owned.mem_frames (h : Owned r m A) (hf : f ∈ A) : f ∈ r.frames r.count := by
  obtain ⟨fl, k, h⟩ := h
  obtain ⟨i, hi, rfl⟩ := Pool.mem_frames.mp (h.perm.mem_iff.mp (List.mem_append_left fl hf))
  exact Pool.mem_frames.mpr ⟨i, hi.trans_le h.le, rfl⟩

theorem Owned.unique (hA : Owned r m A) (hB : Owned r m B) : A.Perm B := by
  rw [List.perm_ext_iff_of_nodup hA.nodup hB.nodup]
  intro f
  by_cases hf : f ∈ r.frames r.count
  · have h₁ := hA.mem_available (f := f)
    rw [hB.mem_available] at h₁
    simp only [hf, true_and] at h₁
    exact not_iff_not.mp h₁.symm
  · exact ⟨fun h => absurd (hA.mem_frames h) hf, fun h => absurd (hB.mem_frames h) hf⟩

theorem Owned.perm (h : Owned r m A) (hAB : A.Perm B) : Owned r m B := by
  obtain ⟨fl, k, h⟩ := h
  exact ⟨fl, k, { h with perm := (hAB.symm.append_right fl).trans h.perm }⟩

theorem Owned.nodup_available (h : Owned r m A) : (available m).Nodup := by
  obtain ⟨fl, k, h⟩ := h
  rw [h.available]
  refine List.nodup_append.mpr ⟨(List.nodup_append.mp h.nodup).2.1,
    List.nodup_range.map fun i j hij => ?_, fun f hf g hg heq => ?_⟩
  · simp only [Pool.frame, frameSize] at hij
    omega
  · obtain ⟨i, hi, rfl⟩ := Pool.mem_frames.mp (h.perm.mem_iff.mp (List.mem_append_right A hf))
    obtain ⟨j, hj, -, rfl⟩ := Pool.mem_rest.mp hg
    simp only [Pool.frame, frameSize] at heq
    omega

end

/-- The frames that were available and are not any more: what a call that frees none was given. -/
def taken (m m' : Machine) : List ℕ := (available m).filter (· ∉ available m')

theorem taken_perm {r : Pool} {m m' : Machine} {A A' : List ℕ} (h : Owned r m A)
    (h' : Owned r m' A') (hsub : ∀ f ∈ A, f ∈ A') : A'.Perm (A ++ taken m m') := by
  have hmem : ∀ f, f ∈ taken m m' ↔ f ∈ A' ∧ f ∉ A := by
    intro f
    simp only [taken, List.mem_filter, decide_eq_true_eq, h.mem_available, h'.mem_available]
    have := h'.mem_frames (f := f)
    tauto
  have hnodup : (A ++ taken m m').Nodup := List.nodup_append.mpr ⟨h.nodup,
    h.nodup_available.filter _, fun f hf g hg heq => ((hmem g).mp hg).2 (heq ▸ hf)⟩
  refine (List.perm_ext_iff_of_nodup h'.nodup hnodup).mpr fun f => ?_
  rw [List.mem_append, hmem]
  have := hsub f
  tauto

end OsShell.PhysMem
