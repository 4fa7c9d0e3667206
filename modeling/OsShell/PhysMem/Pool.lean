import OsShell.Library.Outcome
import OsShell.PhysMem.Code

/-!
# The pool of frames

A pool is the range of frames `init` is given. Frame 0 is not in it: its
address is the null pointer that ends the free list. Every frame that was ever
handed out is either held by a client or on the free list, and what the clients
hold is named in the invariant, so that each operation says who owns what.
-/

namespace OsShell.PhysMem

open Stopping

structure Pool where
  start : ℕ
  count : ℕ
  start_pos : 0 < start
  aligned : frameSize ∣ start
  fits : start + frameSize * count ≤ 2 ^ 32

namespace Pool

def frame (r : Pool) (i : ℕ) : ℕ := r.start + frameSize * i

def frames (r : Pool) (k : ℕ) : List ℕ := (List.range k).map r.frame

variable {r : Pool}

theorem mem_frames {k f : ℕ} : f ∈ r.frames k ↔ ∃ i < k, r.frame i = f := by
  simp only [frames, List.mem_map, List.mem_range]

theorem nodup_frames (k : ℕ) : (r.frames k).Nodup := by
  refine List.nodup_range.map fun i j h => ?_
  simp only [frame, frameSize] at h
  omega

theorem frames_succ (k : ℕ) : r.frames (k + 1) = r.frames k ++ [r.frame k] := by
  simp only [frames, List.range_succ, List.map_append, List.map_singleton]

theorem mem_bounds {k f : ℕ} (hk : k ≤ r.count) (hf : f ∈ r.frames k) :
    frameSize ∣ f ∧ r.start ≤ f ∧ f + frameSize ≤ r.start + frameSize * r.count := by
  obtain ⟨i, hi, rfl⟩ := mem_frames.mp hf
  refine ⟨r.aligned.add (Dvd.intro i rfl), Nat.le_add_right _ _, ?_⟩
  have : frameSize * (i + 1) ≤ frameSize * r.count := Nat.mul_le_mul_left _ (by omega)
  simp only [frame]
  rw [Nat.mul_add_one] at this
  omega

end Pool

def FreeList (mem : ℕ → ℕ) : ℕ → List ℕ → Prop
  | p, [] => p = 0
  | p, f :: fl => p = f ∧ f ≠ 0 ∧ FreeList mem (mem f) fl

theorem FreeList.frame {mem mem' : ℕ → ℕ} {p : ℕ} {fl : List ℕ} (h : FreeList mem p fl)
    (heq : ∀ f ∈ fl, mem' f = mem f) : FreeList mem' p fl := by
  induction fl generalizing p with
  | nil => exact h
  | cons f fl ih =>
    obtain ⟨hp, hf, hfl⟩ := h
    refine ⟨hp, hf, ?_⟩
    rw [heq f List.mem_cons_self]
    exact ih hfl fun g hg => heq g (List.mem_cons_of_mem f hg)

theorem FreeList.unique {mem : ℕ → ℕ} {p : ℕ} {fl fl' : List ℕ} (h : FreeList mem p fl)
    (h' : FreeList mem p fl') : fl = fl' := by
  induction fl generalizing p fl' with
  | nil =>
    cases fl' with
    | nil => rfl
    | cons f fl' => exact absurd (h'.1.symm.trans h) h'.2.1
  | cons f fl ih =>
    cases fl' with
    | nil => exact absurd (h.1.symm.trans h') h.2.1
    | cons g fl' =>
      obtain rfl : f = g := h.1.symm.trans h'.1
      rw [ih h.2.2 h'.2.2]

/-- The clients hold the frames of `A`, the free list is `fl`, and `k` frames were used so far. -/
structure Holds (r : Pool) (m : Machine) (A fl : List ℕ) (k : ℕ) : Prop where
  list : FreeList m.mem m.firstFree fl
  le : k ≤ r.count
  avail : m.avail = r.frame k % 2 ^ 32
  limit : m.limit = r.frame r.count % 2 ^ 32
  perm : (A ++ fl).Perm (r.frames k)

namespace Holds

variable {r : Pool} {m : Machine} {A fl : List ℕ} {k : ℕ}

theorem nodup (h : Holds r m A fl k) : (A ++ fl).Nodup :=
  h.perm.nodup_iff.mpr (Pool.nodup_frames k)

theorem length (h : Holds r m A fl k) : A.length + fl.length = k := by
  have := h.perm.length_eq
  rwa [List.length_append, Pool.frames, List.length_map, List.length_range] at this

theorem mem_bounds (h : Holds r m A fl k) {f : ℕ} (hf : f ∈ A ++ fl) :
    frameSize ∣ f ∧ r.start ≤ f ∧ f + frameSize ≤ r.start + frameSize * r.count :=
  Pool.mem_bounds h.le (h.perm.mem_iff.mp hf)

theorem words_apart (h : Holds r m A fl k) {f g a : ℕ} (hf : f ∈ A ++ fl) (hg : g ∈ A ++ fl)
    (hfa : f ≤ a) (haf : a < f + frameSize) (hga : g ≤ a) (hag : a < g + frameSize) : f = g := by
  obtain ⟨⟨i, rfl⟩, -⟩ := h.mem_bounds hf
  obtain ⟨⟨j, rfl⟩, -⟩ := h.mem_bounds hg
  simp only [frameSize] at *
  omega

theorem write (h : Holds r m A fl k) {mem' : ℕ → ℕ}
    (heq : ∀ f ∈ fl, mem' f = m.mem f) : Holds r { m with mem := mem' } A fl k :=
  { h with list := h.list.frame heq }

theorem store (h : Holds r m A fl k) {p a : ℕ} (hp : p ∈ A) (hpa : p ≤ a)
    (hap : a < p + frameSize) (v : ℕ) : Holds r (m.store a v) A fl k := by
  refine h.write fun f hf => Function.update_of_ne ?_ _ _
  rintro rfl
  have heq := h.words_apart (List.mem_append_left _ hp) (List.mem_append_right _ hf) hpa hap
    le_rfl (Nat.lt_add_of_pos_right (by simp [frameSize]))
  exact (List.nodup_append.mp h.nodup).2.2 p hp f hf heq

end Holds

structure Fresh (r : Pool) (m : Machine) (A : List ℕ) (p : ℕ) (m' : Machine) : Prop where
  fresh : p ∉ A
  zero : ∀ a, p ≤ a → a < p + frameSize → m'.mem a = 0
  frame : ∀ a, a < p ∨ p + frameSize ≤ a → m'.mem a = m.mem a

theorem bzero_inside {mem : ℕ → ℕ} {p n a : ℕ} (h₁ : p ≤ a) (h₂ : a < p + n) :
    bzero mem p n a = 0 :=
  if_pos ⟨h₁, h₂⟩

theorem bzero_outside {mem : ℕ → ℕ} {p n a : ℕ} (h : a < p ∨ p + n ≤ a) :
    bzero mem p n a = mem a :=
  if_neg (by omega)

namespace Holds

variable {r : Pool} {m : Machine} {A fl : List ℕ} {k : ℕ}

theorem aligned (h : Holds r m A fl k) {f : ℕ} (hf : f ∈ A ++ fl) : offset f = 0 := by
  rw [offset_eq]
  exact Nat.mod_eq_zero_of_dvd (h.mem_bounds hf).1

theorem alloc_listed (h : Holds r m A fl k) {p : ℕ} {fl' : List ℕ} (hfl : fl = p :: fl') :
    ∃ m', allocFrame m = .ok (p, m') ∧ Holds r m' (p :: A) fl' k ∧ Fresh r m A p m' := by
  subst hfl
  obtain ⟨hfirst, hp, hrest⟩ := h.list
  have hA : p ∉ A := fun hpA =>
    (List.nodup_append.mp h.nodup).2.2 p hpA p List.mem_cons_self rfl
  have hmem : p ∈ A ++ p :: fl' := List.mem_append_right _ List.mem_cons_self
  refine ⟨{ m with mem := bzero m.mem p frameSize, firstFree := m.mem p }, ?_, ?_, hA,
    fun a => bzero_inside, fun a => bzero_outside⟩
  · simp only [allocFrame, hfirst, ne_eq, hp, not_false_eq_true, if_true, ok_bind,
      assert_true (h.aligned hmem), pure, Except.pure]
  · refine ⟨hrest.frame fun f hf => bzero_outside ?_, h.le, h.avail, h.limit,
      List.perm_middle.symm.trans h.perm⟩
    have hne : p ≠ f := fun heq =>
      (List.nodup_cons.mp (List.nodup_append.mp h.nodup).2.1).1 (heq ▸ hf)
    by_contra hlt
    refine hne (h.words_apart hmem (List.mem_append_right _ (List.mem_cons_of_mem _ hf))
      (a := f) (by omega) (by omega) le_rfl (by simp [frameSize]))

theorem alloc_unused (h : Holds r m A [] k) (hk : k < r.count) :
    ∃ m', allocFrame m = .ok (r.frame k, m') ∧ Holds r m' (r.frame k :: A) [] (k + 1) ∧
      Fresh r m A (r.frame k) m' := by
  have hfirst : m.firstFree = 0 := h.list
  have hfits := r.fits
  have hle : frameSize * (k + 1) ≤ frameSize * r.count := Nat.mul_le_mul_left _ hk
  have hlast : r.frame k < r.frame r.count := by
    simp only [Pool.frame, frameSize] at *
    omega
  have hlt : r.frame k < 2 ^ 32 := lt_of_lt_of_le hlast hfits
  have havail : m.avail = r.frame k := by rw [h.avail, Nat.mod_eq_of_lt hlt]
  have hne : m.avail ≠ m.limit := by
    have hpos := r.start_pos
    rw [havail, h.limit]
    simp only [Pool.frame, frameSize] at *
    omega
  have hmem : r.frame k ∈ r.frames (k + 1) := Pool.mem_frames.mpr ⟨k, Nat.lt_succ_self k, rfl⟩
  have hoff : offset (r.frame k) = 0 := by
    rw [offset_eq]
    exact Nat.mod_eq_zero_of_dvd (Pool.mem_bounds (k := k + 1) hk hmem).1
  have hA : r.frame k ∉ A := fun hkA => by
    obtain ⟨i, hi, heq⟩ := Pool.mem_frames.mp (h.perm.mem_iff.mp (List.mem_append_left _ hkA))
    simp only [Pool.frame, frameSize] at heq
    omega
  refine ⟨{ m with
    mem := bzero m.mem (r.frame k) frameSize, avail := (m.avail + frameSize) % 2 ^ 32 }, ?_, ?_, hA,
    fun a => bzero_inside, fun a => bzero_outside⟩
  · rw [havail] at hne
    simp only [allocFrame, hfirst, havail, ne_eq, not_true_eq_false, if_false, hne, ok_bind,
      assert_true hoff, pure, Except.pure]
  · refine ⟨hfirst, hk, ?_, h.limit, ?_⟩
    · rw [havail, Pool.frame, Pool.frame, Nat.mul_add_one, Nat.add_assoc]
    · rw [Pool.frames_succ]
      exact ((h.perm.append_right _).symm.trans (by simp)).symm

theorem alloc_none (h : Holds r m A [] r.count) :
    allocFrame m = .error (.panic "no more frames") := by
  have hfirst : m.firstFree = 0 := h.list
  simp only [allocFrame, hfirst, h.avail, h.limit, ne_eq, not_true_eq_false, if_false, if_true,
    error_bind]

theorem dealloc (h : Holds r m A fl k) {p : ℕ} (hp : p ∈ A) :
    ∃ m', deallocFrame m p = .ok m' ∧ Holds r m' (A.erase p) (p :: fl) k ∧
      ∀ a, a ≠ p → m'.mem a = m.mem a := by
  have hmem : p ∈ A ++ fl := List.mem_append_left _ hp
  have hpos : p ≠ 0 := by
    have := (h.mem_bounds hmem).2.1
    have := r.start_pos
    omega
  refine ⟨{ m.store p m.firstFree with firstFree := p }, ?_, ⟨⟨rfl, hpos, ?_⟩, h.le, h.avail,
    h.limit, ?_⟩, fun a ha => Function.update_of_ne ha _ _⟩
  · simp only [deallocFrame, assert_true (h.aligned hmem), ok_bind, pure, Except.pure]
  · simp only [store_mem, Function.update_self]
    refine h.list.frame fun f hf => Function.update_of_ne ?_ _ _
    rintro rfl
    exact (List.nodup_append.mp h.nodup).2.2 f hp f hf rfl
  · exact (List.perm_middle.trans ((List.perm_cons_erase hp).append_right fl).symm).trans h.perm

theorem alloc (h : Holds r m A fl k) :
    (A.length = r.count ∧ allocFrame m = .error (.panic "no more frames")) ∨
      (A.length < r.count ∧ ∃ p m' fl' k', allocFrame m = .ok (p, m') ∧
        Holds r m' (p :: A) fl' k' ∧ Fresh r m A p m' ∧
        (fl = p :: fl' ∧ k' = k ∨ p = r.frame k ∧ k' = k + 1)) := by
  have hlen := h.length
  have hle := h.le
  cases fl with
  | nil =>
    rw [List.length_nil, Nat.add_zero] at hlen
    rcases Nat.lt_or_eq_of_le hle with hk | rfl
    · obtain ⟨m', hm, hH, hF⟩ := h.alloc_unused hk
      exact Or.inr ⟨by omega, _, m', [], k + 1, hm, hH, hF, Or.inr ⟨rfl, rfl⟩⟩
    · exact Or.inl ⟨hlen, h.alloc_none⟩
  | cons p fl =>
    rw [List.length_cons] at hlen
    obtain ⟨m', hm, hH, hF⟩ := h.alloc_listed rfl
    exact Or.inr ⟨by omega, p, m', fl, k, hm, hH, hF, Or.inl ⟨rfl, rfl⟩⟩

end Holds

def Owned (r : Pool) (m : Machine) (A : List ℕ) : Prop := ∃ fl k, Holds r m A fl k

namespace Owned

variable {r : Pool} {m : Machine} {A : List ℕ}

theorem nodup (h : Owned r m A) : A.Nodup := by
  obtain ⟨fl, k, h⟩ := h
  exact (List.nodup_append.mp h.nodup).1

theorem mem_bounds (h : Owned r m A) {f : ℕ} (hf : f ∈ A) :
    frameSize ∣ f ∧ r.start ≤ f ∧ f + frameSize ≤ r.start + frameSize * r.count := by
  obtain ⟨fl, k, h⟩ := h
  exact h.mem_bounds (List.mem_append_left _ hf)

theorem freeList (h : Owned r m A) :
    ∃ fl, FreeList m.mem m.firstFree fl ∧ ∀ f ∈ A, f ∉ fl := by
  obtain ⟨fl, k, h⟩ := h
  exact ⟨fl, h.list, fun f hf hfl => (List.nodup_append.mp h.nodup).2.2 f hf f hfl rfl⟩

theorem store (h : Owned r m A) {p a : ℕ} (hp : p ∈ A) (hpa : p ≤ a) (hap : a < p + frameSize)
    (v : ℕ) : Owned r (m.store a v) A := by
  obtain ⟨fl, k, h⟩ := h
  exact ⟨fl, k, h.store hp hpa hap v⟩

theorem alloc (h : Owned r m A) :
    Outcome (allocFrame m) (fun q => Owned r q.2 (q.1 :: A) ∧ Fresh r m A q.1 q.2)
      fun _ => A.length = r.count := by
  obtain ⟨fl, k, h⟩ := h
  rcases h.alloc with ⟨hlen, hm⟩ | ⟨-, p, m', fl', k', hm, hH, hF, -⟩
  · rw [hm]
    exact .error hlen
  · rw [hm]
    exact .ok ⟨⟨fl', k', hH⟩, hF⟩

theorem dealloc (h : Owned r m A) {p : ℕ} (hp : p ∈ A) {E : Halt → Prop} :
    Outcome (deallocFrame m p)
      (fun m' => Owned r m' (A.erase p) ∧ ∀ a, a ≠ p → m'.mem a = m.mem a) E := by
  obtain ⟨fl, k, h⟩ := h
  obtain ⟨m', hm, hH, hF⟩ := h.dealloc hp
  rw [hm]
  exact .ok ⟨⟨p :: fl, k, hH⟩, hF⟩

end Owned

end OsShell.PhysMem
