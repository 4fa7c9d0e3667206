import OsShell.Library.Runs
import OsShell.PhysMem.Pool

/-!
# Runs of the frame allocator

A run starts where `init` returns and is any sequence of `allocFrame`,
`deallocFrame` of a frame that is allocated and writes into allocated frames.
`used` remembers every frame that was ever returned.
-/

namespace OsShell.PhysMem

open Runs

structure State where
  machine : Machine
  allocated : List ℕ
  used : List ℕ

inductive Init (start size : ℕ) : State → Prop
  | init {mem : ℕ → ℕ} {m : Machine} (hword : start < 2 ^ 32)
      (hinit : init mem start size = .ok m) : Init start size ⟨m, [], []⟩

inductive Step : State → State → Prop
  | alloc {s : State} {p : ℕ} {m : Machine} (hcall : allocFrame s.machine = .ok (p, m)) :
      Step s ⟨m, p :: s.allocated, p :: s.used⟩
  | dealloc {s : State} {m : Machine} (p : ℕ) (hp : p ∈ s.allocated)
      (hcall : deallocFrame s.machine p = .ok m) : Step s ⟨m, s.allocated.erase p, s.used⟩
  | write {s : State} (p : ℕ) (hp : p ∈ s.allocated) (a v : ℕ) (hpa : p ≤ a)
      (hap : a < p + frameSize) : Step s ⟨s.machine.store a v, s.allocated, s.used⟩

def neverUsed (start size : ℕ) (s : State) : List ℕ :=
  ((List.range (size / frameSize)).map fun i => start + frameSize * i).filter (· ∉ s.used)

structure Inv (r : Pool) (s : State) (fl : List ℕ) (k : ℕ) : Prop where
  holds : Holds r s.machine s.allocated fl k
  used : ∀ f, f ∈ s.used ↔ f ∈ r.frames k

namespace Inv

variable {r : Pool} {s t : State} {fl : List ℕ} {k : ℕ}

theorem step (I : Inv r s fl k) (h : Step s t) : ∃ fl' k', Inv r t fl' k' := by
  cases h with
  | @alloc p m hcall =>
    rcases I.holds.alloc with ⟨-, hm⟩ | ⟨-, p', m', fl', k', hm, hH, -, hcase⟩
    · rw [hm] at hcall
      cases hcall
    · rw [hm] at hcall
      cases hcall
      refine ⟨fl', k', hH, fun f => ?_⟩
      rw [List.mem_cons, I.used]
      rcases hcase with ⟨rfl, rfl⟩ | ⟨rfl, rfl⟩
      · have hp : p ∈ r.frames k' := I.holds.perm.mem_iff.mp (by simp)
        constructor
        · rintro (rfl | hf)
          · exact hp
          · exact hf
        · exact Or.inr
      · rw [Pool.frames_succ, List.mem_append, List.mem_singleton, or_comm]
  | @dealloc m p hp hcall =>
    obtain ⟨m', hm, hH, -⟩ := I.holds.dealloc hp
    rw [hm] at hcall
    cases hcall
    exact ⟨p :: fl, k, hH, I.used⟩
  | write p hp a v hpa hap => exact ⟨fl, k, I.holds.store hp hpa hap v, I.used⟩

theorem neverUsed_length (I : Inv r s fl k) :
    (neverUsed r.start (frameSize * r.count) s).length = r.count - k := by
  have hle := I.holds.le
  have hiff : ∀ i, r.frame i ∉ s.used ↔ k ≤ i := by
    intro i
    rw [I.used, Pool.mem_frames]
    constructor
    · intro h
      by_contra hlt
      exact h ⟨i, by omega, rfl⟩
    · rintro hk ⟨j, hj, heq⟩
      simp only [Pool.frame, frameSize] at heq
      omega
  have hsize : frameSize * r.count / frameSize = r.count :=
    Nat.mul_div_cancel_left _ (by simp [frameSize])
  have hcount : ∀ n, ((List.range n).filter fun i => decide (k ≤ i)).length = n - k := by
    intro n
    induction n with
    | zero => simp
    | succ n ih =>
      rw [List.range_succ, List.filter_append, List.length_append, ih]
      by_cases hn : k ≤ n
      · simp [hn]
        omega
      · simp [hn]
        omega
  calc (neverUsed r.start (frameSize * r.count) s).length
      = ((List.range r.count).filter fun i => decide (r.frame i ∉ s.used)).length := by
        rw [neverUsed, hsize, List.filter_map, List.length_map]
        rfl
    _ = ((List.range r.count).filter fun i => decide (k ≤ i)).length := by simp only [hiff]
    _ = r.count - k := hcount r.count

end Inv

theorem init_holds {mem : ℕ → ℕ} {start size : ℕ} {m : Machine} (hpos : 0 < start)
    (hword : start < 2 ^ 32) (hfits : start + size ≤ 2 ^ 32) (h : init mem start size = .ok m) :
    ∃ r : Pool, r.start = start ∧ frameSize * r.count = size ∧ Holds r m [] [] 0 := by
  simp only [init, assert, pure, Except.pure] at h
  split at h
  case isFalse => cases h
  case isTrue hstart =>
    simp only [Stopping.ok_bind] at h
    split at h
    case isFalse => cases h
    case isTrue hsize =>
      rw [offset_eq] at hstart hsize
      cases h
      have hcount : frameSize * (size / frameSize) = size :=
        Nat.mul_div_cancel' (Nat.dvd_of_mod_eq_zero hsize)
      refine ⟨⟨start, size / frameSize, hpos, Nat.dvd_of_mod_eq_zero hstart, by rwa [hcount]⟩, rfl,
        hcount, ⟨rfl, Nat.zero_le _, ?_, ?_, by simp [Pool.frames]⟩⟩
      · simp only [Pool.frame, Nat.mul_zero, Nat.add_zero]
        exact (Nat.mod_eq_of_lt hword).symm
      · simp only [Pool.frame, hcount]

theorem inv_of_reachable {start size : ℕ} (hpos : 0 < start) (hfits : start + size ≤ 2 ^ 32)
    {s : State} (h : Reachable (Init start size) Step s) :
    ∃ r : Pool, r.start = start ∧ frameSize * r.count = size ∧ ∃ fl k, Inv r s fl k := by
  refine h.invariant (I := fun s => ∃ r : Pool, r.start = start ∧ frameSize * r.count = size ∧
    ∃ fl k, Inv r s fl k) ?_ ?_
  · rintro s ⟨hword, hinit⟩
    obtain ⟨r, hs, hc, hH⟩ := init_holds hpos hword hfits hinit
    exact ⟨r, hs, hc, [], 0, hH, by simp [Pool.frames]⟩
  · rintro s t ⟨r, hs, hc, fl, k, I⟩ hst
    obtain ⟨fl', k', I'⟩ := I.step hst
    exact ⟨r, hs, hc, fl', k', I'⟩

/-- What one call of `allocFrame` does when `allocated` frames of the range are in use: it panics
exactly if these are all of them, and else returns a zeroed frame of the range that is not in use. -/
structure Allocates (start size : ℕ) (s : State) : Prop where
  panics : allocFrame s.machine = .error (.panic "no more frames") ↔
    s.allocated.length = size / frameSize
  stops : ∀ e, allocFrame s.machine = .error e → e = .panic "no more frames"
  returns : ∀ p m, allocFrame s.machine = .ok (p, m) → p % frameSize = 0 ∧ start ≤ p ∧
    p < start + size ∧ p ∉ s.allocated ∧ ∀ a, p ≤ a → a < p + frameSize → m.mem a = 0

theorem Inv.allocates {r : Pool} {s : State} {fl : List ℕ} {k : ℕ} (I : Inv r s fl k) :
    Allocates r.start (frameSize * r.count) s := by
  have hsize : frameSize * r.count / frameSize = r.count :=
    Nat.mul_div_cancel_left _ (by simp [frameSize])
  rcases I.holds.alloc with ⟨hlen, hm⟩ | ⟨hlen, p, m', fl', k', hm, hH, hF, -⟩
  · refine ⟨by simp [hm, hsize, hlen], fun e he => ?_, fun p m h => ?_⟩
    · rw [hm] at he
      cases he
      rfl
    · rw [hm] at h
      cases h
  · refine ⟨?_, fun e he => ?_, fun q m h => ?_⟩
    · rw [hm, hsize]
      exact iff_of_false (by simp) hlen.ne
    · rw [hm] at he
      cases he
    · rw [hm] at h
      cases h
      obtain ⟨hdvd, hlo, hhi⟩ := hH.mem_bounds (f := p) (by simp)
      have : 0 < frameSize := by simp [frameSize]
      exact ⟨Nat.mod_eq_zero_of_dvd hdvd, hlo, by omega, hF.fresh, hF.zero⟩

/-- In every state of every run the frames are conserved, and `allocFrame` and `deallocFrame` do
what they are for. -/
theorem reachable_conserves {start size : ℕ} (hpos : 0 < start) (hfits : start + size ≤ 2 ^ 32)
    {s : State} (h : Reachable (Init start size) Step s) :
    (∃ fl, FreeList s.machine.mem s.machine.firstFree fl ∧ fl.Nodup ∧
      (∀ f ∈ fl, f ∉ s.allocated) ∧ s.allocated.Nodup ∧
      s.allocated.length + fl.length + (neverUsed start size s).length = size / frameSize) ∧
    Allocates start size s ∧
    ∀ p ∈ s.allocated, ∃ m, deallocFrame s.machine p = .ok m := by
  obtain ⟨r, rfl, rfl, fl, k, I⟩ := inv_of_reachable hpos hfits h
  obtain ⟨hA, hfl, hdis⟩ := List.nodup_append.mp I.holds.nodup
  refine ⟨⟨fl, I.holds.list, hfl, fun f hf hfA => hdis f hfA f hf rfl, hA, ?_⟩, I.allocates,
    fun p hp => ?_⟩
  · have hlen := I.holds.length
    have hle := I.holds.le
    have hsize : frameSize * r.count / frameSize = r.count :=
      Nat.mul_div_cancel_left _ (by simp [frameSize])
    rw [I.neverUsed_length, hsize]
    omega
  · obtain ⟨m, hm, -⟩ := I.holds.dealloc hp
    exact ⟨m, hm⟩

/-- Two frames from 6 MB on, one of them handed out. -/
theorem two_frames_conserved : ∃ s, s.allocated = [0x600000] ∧
    (∃ fl, FreeList s.machine.mem s.machine.firstFree fl ∧ fl.Nodup ∧
      (∀ f ∈ fl, f ∉ s.allocated) ∧ s.allocated.Nodup ∧
      s.allocated.length + fl.length + (neverUsed 0x600000 0x2000 s).length =
        0x2000 / frameSize) ∧
    Allocates 0x600000 0x2000 s ∧ ∀ p ∈ s.allocated, ∃ m, deallocFrame s.machine p = .ok m := by
  have h₀ : init (fun _ => 0) 0x600000 0x2000 = .ok ⟨fun _ => 0, 0, 0x600000, 0x602000⟩ := rfl
  have h₁ : allocFrame ⟨fun _ => 0, 0, 0x600000, 0x602000⟩ =
      .ok (0x600000, ⟨bzero (fun _ => 0) 0x600000 frameSize, 0, 0x601000, 0x602000⟩) := rfl
  exact ⟨_, rfl, reachable_conserves (by norm_num) (by norm_num)
    ((Reachable.init (.init (by norm_num) h₀)).step (.alloc h₁))⟩

/-- A pool that starts at address 0 loses its first frame: on the free list it is the end mark. -/
theorem frame_zero_lost : ∃ s, Reachable (Init 0 0x1000) Step s ∧ s.allocated = [] ∧
    allocFrame s.machine = .error (.panic "no more frames") ∧ ¬ Allocates 0 0x1000 s := by
  have h₀ : init (fun _ => 0) 0 0x1000 = .ok ⟨fun _ => 0, 0, 0, 0x1000⟩ := rfl
  have h₁ : allocFrame ⟨fun _ => 0, 0, 0, 0x1000⟩ =
      .ok (0, ⟨bzero (fun _ => 0) 0 frameSize, 0, 0x1000, 0x1000⟩) := rfl
  have h₂ : deallocFrame ⟨bzero (fun _ => 0) 0 frameSize, 0, 0x1000, 0x1000⟩ 0 = .ok
      ⟨Function.update (bzero (fun _ => 0) 0 frameSize) 0 0, 0, 0x1000, 0x1000⟩ := rfl
  have h₃ : allocFrame ⟨Function.update (bzero (fun _ => 0) 0 frameSize) 0 0, 0, 0x1000, 0x1000⟩ =
      .error (.panic "no more frames") := rfl
  refine ⟨_, ((Reachable.init (.init (by norm_num) h₀)).step (.alloc h₁)).step
    (.dealloc 0 (by simp) h₂), by simp, h₃, fun hA => ?_⟩
  have := hA.panics.mp h₃
  simp [frameSize] at this

end OsShell.PhysMem
