import Mathlib

/-!
# Trees of frames in memory

Some frames of a memory are held by roles. The frame in role `x` is named by a
word of the frame in the role above `x`, so a memory that is read from the
roots determines who holds what. The structure `Tree` says that it does, that
no frame is held twice and that every frame held is allocated; the operations
are those of a program that builds and takes down such trees one word at a
time.
-/

namespace OsShell.FrameTree

variable {ρ : Type*}

structure Shape (ρ : Type*) where
  /-- The role above `x`, and which of its words names the frame in role `x`. -/
  parent : ρ → Option (ρ × ℕ)
  /-- What this word may be when the frame in role `x` is the given one, if any. -/
  entry : ρ → ℕ → Option ℕ → Prop
  Frame : ℕ → Prop
  cell : ℕ → ℕ → ℕ
  parent_inj : ∀ x y p, parent x = some p → parent y = some p → x = y
  parent_ne : ∀ x i, parent x ≠ some (x, i)
  cell_inj : ∀ x y x' y' f g i j, parent x = some (x', i) → parent y = some (y', j) → Frame f →
    Frame g → cell f i = cell g j → f = g ∧ i = j

structure Tree (S : Shape ρ) (mem : ℕ → ℕ) (A : Set ℕ) (occ : ρ → Option ℕ) : Prop where
  frames : ∀ f ∈ A, S.Frame f
  held : ∀ x f, occ x = some f → f ∈ A
  inj : ∀ x y f, occ x = some f → occ y = some f → x = y
  entry : ∀ x y i f, S.parent x = some (y, i) → occ y = some f →
    S.entry x (mem (S.cell f i)) (occ x)

def Loose (A : Set ℕ) (occ : ρ → Option ℕ) (p : ℕ) : Prop := p ∈ A ∧ ∀ x, occ x ≠ some p

theorem Loose.ne {A : Set ℕ} {occ : ρ → Option ℕ} {x : ρ} {p f : ℕ}
    (hp : Loose A occ p) (hx : occ x = some f) : f ≠ p :=
  fun heq => hp.2 x (heq ▸ hx)

def Tidy (A : List ℕ) (occ : ρ → Option ℕ) : Prop := ∀ f ∈ A, ∃ x, occ x = some f

theorem Tidy.cons [DecidableEq ρ] {A : List ℕ} {occ : ρ → Option ℕ} {x : ρ} {p : ℕ}
    (h : Tidy A occ) (hx : occ x = none) : Tidy (p :: A) (Function.update occ x (some p)) := by
  intro f hf
  rcases List.mem_cons.mp hf with rfl | hf
  · exact ⟨x, Function.update_self ..⟩
  · obtain ⟨y, hy⟩ := h f hf
    have hyx : y ≠ x := by
      rintro rfl
      rw [hx] at hy
      cases hy
    exact ⟨y, by rw [Function.update_of_ne hyx, hy]⟩

def Erases (S : Set ρ) (occ occ' : ρ → Option ℕ) : Prop :=
  ∀ x, (x ∈ S → occ' x = none) ∧ (x ∉ S → occ' x = occ x)

namespace Erases

variable {S T : Set ρ} {occ occ₁ occ₂ : ρ → Option ℕ}

theorem refl (occ : ρ → Option ℕ) : Erases ∅ occ occ := fun _ => ⟨nofun, fun _ => rfl⟩

theorem union (h₁ : Erases S occ occ₁) (h₂ : Erases T occ₁ occ₂) : Erases (S ∪ T) occ occ₂ := by
  intro x
  by_cases hT : x ∈ T
  · exact ⟨fun _ => (h₂ x).1 hT, fun hx => absurd (Or.inr hT) hx⟩
  · rw [(h₂ x).2 hT]
    exact ⟨fun hx => (h₁ x).1 (hx.resolve_right hT), fun hx => (h₁ x).2 fun hS => hx (Or.inl hS)⟩

theorem single [DecidableEq ρ] (occ : ρ → Option ℕ) (x : ρ) :
    Erases {x} occ (Function.update occ x none) :=
  fun y => ⟨fun hy => by rw [Set.mem_singleton_iff.mp hy, Function.update_self],
    fun hy => Function.update_of_ne hy _ _⟩

theorem vacant (hS : ∀ x ∈ S, occ x = none) : Erases S occ occ :=
  fun x => ⟨hS x, fun _ => rfl⟩

theorem some_of_some (h : Erases S occ occ₁) {x : ρ} {f : ℕ} (hx : occ₁ x = some f) :
    occ x = some f := by
  by_cases hS : x ∈ S
  · rw [(h x).1 hS] at hx
    cases hx
  · rwa [← (h x).2 hS]

theorem none_of_none (h : Erases S occ occ₁) {x : ρ} (hx : occ x = none) : occ₁ x = none := by
  by_cases hS : x ∈ S
  · exact (h x).1 hS
  · rw [(h x).2 hS, hx]

end Erases

namespace Tree

variable {S : Shape ρ} {mem mem' : ℕ → ℕ} {A : Set ℕ} {occ : ρ → Option ℕ}

theorem agree (h : Tree S mem A occ)
    (heq : ∀ x y i f, S.parent x = some (y, i) → occ y = some f →
      mem' (S.cell f i) = mem (S.cell f i)) : Tree S mem' A occ :=
  { h with entry := fun x y i f hx hy => heq x y i f hx hy ▸ h.entry x y i f hx hy }

theorem grow (h : Tree S mem A occ) {p : ℕ} (hp : S.Frame p) : Tree S mem (insert p A) occ :=
  { h with
    frames := fun f hf => hf.elim (fun heq => heq ▸ hp) (h.frames f)
    held := fun x f hx => Or.inr (h.held x f hx) }

theorem shrink (h : Tree S mem A occ) {p : ℕ} (hp : ∀ x, occ x ≠ some p) :
    Tree S mem (A \ {p}) occ :=
  { h with
    frames := fun f hf => h.frames f hf.1
    held := fun x f hx => ⟨h.held x f hx, fun heq => hp x (heq ▸ hx)⟩ }

theorem cell_ne (h : Tree S mem A occ) {x y z w : ρ} {i j f g : ℕ}
    (hx : S.parent x = some (y, i)) (hy : occ y = some f) (hz : S.parent z = some (w, j))
    (hw : occ w = some g) (hne : z ≠ x) : S.cell g j ≠ S.cell f i := by
  intro heq
  obtain ⟨rfl, rfl⟩ := S.cell_inj z x w y g f j i hz hx (h.frames g (h.held w g hw))
    (h.frames f (h.held y f hy)) heq
  obtain rfl := h.inj w y g hw hy
  exact hne (S.parent_inj z x (w, j) hz hx)

variable [DecidableEq ρ]

theorem assign (h : Tree S mem A occ) {x : ρ} {o : Option ℕ} (ho : ∀ p, o = some p → Loose A occ p)
    (hself : ∀ y i f, S.parent x = some (y, i) → occ y = some f →
      S.entry x (mem' (S.cell f i)) o)
    (hkids : ∀ z j p, S.parent z = some (x, j) → o = some p →
      S.entry z (mem' (S.cell p j)) (occ z))
    (hframe : ∀ z y i f, z ≠ x → S.parent z = some (y, i) → occ y = some f →
      mem' (S.cell f i) = mem (S.cell f i)) :
    Tree S mem' A (Function.update occ x o) := by
  refine ⟨h.frames, fun y f hy => ?_, fun y z f hy hz => ?_, fun z y i f hz hy => ?_⟩
  · by_cases hyx : y = x
    · rw [hyx, Function.update_self] at hy
      exact (ho f hy).1
    · rw [Function.update_of_ne hyx] at hy
      exact h.held y f hy
  · by_cases hyx : y = x
    · by_cases hzx : z = x
      · rw [hyx, hzx]
      · rw [hyx, Function.update_self] at hy
        rw [Function.update_of_ne hzx] at hz
        exact absurd hz ((ho f hy).2 z)
    · rw [Function.update_of_ne hyx] at hy
      by_cases hzx : z = x
      · rw [hzx, Function.update_self] at hz
        exact absurd hy ((ho f hz).2 y)
      · rw [Function.update_of_ne hzx] at hz
        exact h.inj y z f hy hz
  · by_cases hyx : y = x
    · subst hyx
      have hzy : z ≠ y := fun heq => S.parent_ne y i (heq ▸ hz)
      rw [Function.update_self] at hy
      rw [Function.update_of_ne hzy]
      exact hkids z i f hz hy
    · rw [Function.update_of_ne hyx] at hy
      by_cases hzx : z = x
      · subst hzx
        rw [Function.update_self]
        exact hself y i f hz hy
      · rw [Function.update_of_ne hzx, hframe z y i f hzx hz hy]
        exact h.entry z y i f hz hy

theorem link (h : Tree S mem A occ) {x y : ρ} {i f p v : ℕ} (hx : S.parent x = some (y, i))
    (hy : occ y = some f) (hp : Loose A occ p) (he : S.entry x v (some p))
    (hkids : ∀ z j, S.parent z = some (x, j) → S.entry z (mem (S.cell p j)) (occ z)) :
    Tree S (Function.update mem (S.cell f i) v) A (Function.update occ x (some p)) := by
  refine h.assign (fun q hq => ?_) (fun y' i' f' hx' hy' => ?_) (fun z j q hz hq => ?_)
    fun z w j g hne hz hw => Function.update_of_ne (h.cell_ne hx hy hz hw hne) _ _
  · cases hq
    exact hp
  · rw [hx] at hx'
    cases hx'
    rw [hy] at hy'
    cases hy'
    rwa [Function.update_self]
  · cases hq
    have hne : S.cell p j ≠ S.cell f i := fun heq =>
      hp.ne hy (S.cell_inj z x x y p f j i hz hx (h.frames p hp.1)
        (h.frames f (h.held y f hy)) heq).1.symm
    rw [Function.update_of_ne hne]
    exact hkids z j hz

theorem clear (h : Tree S mem A occ) {x y : ρ} {i f v : ℕ} (hx : S.parent x = some (y, i))
    (hy : occ y = some f) (he : S.entry x v none) :
    Tree S (Function.update mem (S.cell f i) v) A (Function.update occ x none) := by
  refine h.assign nofun (fun y' i' f' hx' hy' => ?_) nofun
    fun z w j g hne hz hw => Function.update_of_ne (h.cell_ne hx hy hz hw hne) _ _
  rw [hx] at hx'
  cases hx'
  rw [hy] at hy'
  cases hy'
  rwa [Function.update_self]

/-- A role above which there is none can be given up with its words left as they are. -/
theorem forget (h : Tree S mem A occ) {x : ρ}
    (hx : ∀ y i, S.parent x = some (y, i) → occ y = none) :
    Tree S mem A (Function.update occ x none) := by
  refine h.assign nofun (fun y i f hxy hy => ?_) nofun fun _ _ _ _ _ _ _ => rfl
  rw [hx y i hxy] at hy
  cases hy

theorem plant (h : Tree S mem A occ) {x : ρ} {p : ℕ} (hx : S.parent x = none)
    (hp : Loose A occ p)
    (hkids : ∀ z j, S.parent z = some (x, j) → S.entry z (mem (S.cell p j)) (occ z)) :
    Tree S mem A (Function.update occ x (some p)) := by
  refine h.assign (fun q hq => ?_) (fun y i f hxy _ => ?_) (fun z j q hz hq => ?_)
    fun _ _ _ _ _ _ _ => rfl
  · cases hq
    exact hp
  · rw [hx] at hxy
    cases hxy
  · cases hq
    exact hkids z j hz

end Tree

end OsShell.FrameTree
