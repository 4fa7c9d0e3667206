import Mathlib

/-!
# Tilings of an integer interval by consecutive blocks

`Tiles i bs e` says that the blocks `bs` follow one another without gaps from
`i` up to `e`. Blocks of a tiling are pairwise apart, every block has its two
neighbours, and a run of blocks can be replaced by another tiling of the same
interval. Nothing here knows what a block is used for.
-/

namespace OsShell.Tiling

structure Block where
  start : ℤ
  size : ℤ
  free : Bool
  deriving DecidableEq

def Block.stop (b : Block) : ℤ := b.start + b.size

def Block.Apart (b c : Block) : Prop := b.stop ≤ c.start ∨ c.stop ≤ b.start

def Tiles : ℤ → List Block → ℤ → Prop
  | i, [], e => i = e
  | i, b :: bs, e => b.start = i ∧ 0 < b.size ∧ Tiles b.stop bs e

theorem tiles_append {i e : ℤ} {xs ys : List Block} :
    Tiles i (xs ++ ys) e ↔ ∃ m, Tiles i xs m ∧ Tiles m ys e := by
  induction xs generalizing i with
  | nil => simp [Tiles]
  | cons b xs ih =>
    simp only [List.cons_append, Tiles, ih]
    constructor
    · rintro ⟨h₁, h₂, m, h₃, h₄⟩
      exact ⟨m, ⟨h₁, h₂, h₃⟩, h₄⟩
    · rintro ⟨m, ⟨h₁, h₂, h₃⟩, h₄⟩
      exact ⟨h₁, h₂, m, h₃, h₄⟩

theorem Tiles.le {i e : ℤ} {bs : List Block} (h : Tiles i bs e) : i ≤ e := by
  induction bs generalizing i with
  | nil => exact le_of_eq h
  | cons b bs ih =>
    obtain ⟨hs, hz, ht⟩ := h
    have hb := ih ht
    unfold Block.stop at hb
    omega

theorem Tiles.uncons {i e : ℤ} {bs : List Block} (h : Tiles i bs e) (hi : i < e) :
    ∃ b bs', bs = b :: bs' ∧ b.start = i ∧ Tiles b.stop bs' e := by
  cases bs with
  | nil => exact absurd h (by simp only [Tiles]; omega)
  | cons b bs => exact ⟨b, bs, rfl, h.1, h.2.2⟩

theorem Tiles.eq_nil {e : ℤ} {bs : List Block} (h : Tiles e bs e) : bs = [] := by
  cases bs with
  | nil => rfl
  | cons b bs =>
    obtain ⟨hs, hz, ht⟩ := h
    have := ht.le
    simp only [Block.stop] at this
    omega

theorem Tiles.bounds {i e : ℤ} {bs : List Block} (h : Tiles i bs e) {b : Block} (hb : b ∈ bs) :
    i ≤ b.start ∧ 0 < b.size ∧ b.stop ≤ e := by
  induction bs generalizing i with
  | nil => cases hb
  | cons c bs ih =>
    obtain ⟨hs, hz, ht⟩ := h
    rcases List.mem_cons.mp hb with rfl | hb
    · exact ⟨hs.ge, hz, ht.le⟩
    · obtain ⟨h₁, h₂, h₃⟩ := ih ht hb
      unfold Block.stop at h₁
      exact ⟨by omega, h₂, h₃⟩

theorem Tiles.apart {i e : ℤ} {bs : List Block} (h : Tiles i bs e) {b c : Block}
    (hb : b ∈ bs) (hc : c ∈ bs) : b = c ∨ b.Apart c := by
  induction bs generalizing i with
  | nil => cases hb
  | cons d bs ih =>
    obtain ⟨hs, hz, ht⟩ := h
    rcases List.mem_cons.mp hb with hbd | hbs <;> rcases List.mem_cons.mp hc with hcd | hcs
    · exact Or.inl (hbd.trans hcd.symm)
    · exact Or.inr (Or.inl (hbd ▸ (ht.bounds hcs).1))
    · exact Or.inr (Or.inr (hcd ▸ (ht.bounds hbs).1))
    · exact ih ht hbs hcs

theorem Tiles.eq_of_start {i e : ℤ} {bs : List Block} (h : Tiles i bs e) {b c : Block}
    (hb : b ∈ bs) (hc : c ∈ bs) (hbc : b.start = c.start) : b = c := by
  have h₁ := (h.bounds hb).2.1
  have h₂ := (h.bounds hc).2.1
  rcases h.apart hb hc with heq | hap
  · exact heq
  · simp only [Block.Apart, Block.stop] at hap
    omega

theorem Tiles.exists_start {i e : ℤ} {bs : List Block} (h : Tiles i bs e) (hi : i < e) :
    ∃ b ∈ bs, b.start = i := by
  obtain ⟨b, bs', rfl, hb, -⟩ := h.uncons hi
  exact ⟨b, by simp, hb⟩

theorem Tiles.exists_stop {i e : ℤ} {bs : List Block} (h : Tiles i bs e) (hi : i < e) :
    ∃ b ∈ bs, b.stop = e := by
  induction bs generalizing i with
  | nil => exact absurd h (by simp only [Tiles]; omega)
  | cons b bs ih =>
    obtain ⟨-, -, ht⟩ := h
    by_cases hb : b.stop = e
    · exact ⟨b, by simp, hb⟩
    · obtain ⟨c, hc, hce⟩ := ih ht (lt_of_le_of_ne ht.le hb)
      exact ⟨c, by simp [hc], hce⟩

def Boundary (bs : List Block) (e x : ℤ) : Prop := x = e ∨ ∃ b ∈ bs, b.start = x

theorem Tiles.cut {i e x : ℤ} {bs : List Block} (h : Tiles i bs e) (hx : Boundary bs e x) :
    ∃ pre post, bs = pre ++ post ∧ Tiles i pre x ∧ Tiles x post e := by
  rcases hx with rfl | ⟨b, hb, rfl⟩
  · exact ⟨bs, [], by simp, h, rfl⟩
  · obtain ⟨pre, post, rfl⟩ := List.append_of_mem hb
    obtain ⟨m, h₁, h₂⟩ := tiles_append.mp h
    obtain rfl : b.start = m := h₂.1
    exact ⟨pre, b :: post, rfl, h₁, h₂⟩

theorem Tiles.boundary_stop {i e : ℤ} {bs : List Block} (h : Tiles i bs e) {b : Block}
    (hb : b ∈ bs) : Boundary bs e b.stop := by
  obtain ⟨pre, post, rfl⟩ := List.append_of_mem hb
  obtain ⟨m, -, -, -, hp⟩ := tiles_append.mp h
  by_cases he : b.stop = e
  · exact Or.inl he
  · obtain ⟨c, hc, hcs⟩ := hp.exists_start (lt_of_le_of_ne hp.le he)
    exact Or.inr ⟨c, by simp [hc], hcs⟩

theorem Tiles.boundary_sep {i e x : ℤ} {bs : List Block} (h : Tiles i bs e)
    (hx : Boundary bs e x) {b : Block} (hb : b ∈ bs) : b.stop ≤ x ∨ x ≤ b.start := by
  obtain ⟨pre, post, rfl, hpre, hpost⟩ := h.cut hx
  exact (List.mem_append.mp hb).imp (fun hb => (hpre.bounds hb).2.2) fun hb => (hpost.bounds hb).1

theorem Tiles.eq_of_stop {i e : ℤ} {bs : List Block} (h : Tiles i bs e) {b c : Block}
    (hb : b ∈ bs) (hc : c ∈ bs) (hbc : b.stop = c.stop) : b = c := by
  have h₁ := (h.bounds hb).2.1
  have h₂ := (h.bounds hc).2.1
  rcases h.apart hb hc with heq | hap
  · exact heq
  · simp only [Block.Apart, Block.stop] at hap hbc
    omega

theorem Tiles.right_neighbour {i e : ℤ} {bs : List Block} (h : Tiles i bs e) {b : Block}
    (hb : b ∈ bs) (he : b.stop < e) : ∃ c ∈ bs, c.start = b.stop :=
  (h.boundary_stop hb).resolve_left he.ne

theorem Tiles.left_neighbour {i e : ℤ} {bs : List Block} (h : Tiles i bs e) {b : Block}
    (hb : b ∈ bs) (hi : i < b.start) : ∃ c ∈ bs, c.stop = b.start := by
  obtain ⟨pre, post, rfl, h₁, -⟩ := h.cut (Or.inr ⟨b, hb, rfl⟩)
  obtain ⟨c, hc, hcs⟩ := h₁.exists_stop hi
  exact ⟨c, by simp [hc], hcs⟩

/-- The blocks of `[lo, hi)` are replaced by another tiling of `[lo, hi)`. -/
theorem Tiles.retile {i e lo hi : ℤ} {bs : List Block} (h : Tiles i bs e) (new : List Block)
    (hlo : Boundary bs e lo) (hhi : Boundary bs e hi) (hle : lo ≤ hi) (hnew : Tiles lo new hi) :
    ∃ bs', Tiles i bs' e ∧
      ∀ c, c ∈ bs' ↔ c ∈ new ∨ (c ∈ bs ∧ (c.stop ≤ lo ∨ hi ≤ c.start)) := by
  obtain ⟨pre, rest, rfl, hpre, hrest⟩ := h.cut hlo
  have hcut : Boundary rest e hi := by
    rcases hhi with rfl | ⟨b, hb, rfl⟩
    · exact Or.inl rfl
    · rcases List.mem_append.mp hb with hb | hb
      · have := hpre.bounds hb
        simp only [Block.stop] at this
        omega
      · exact Or.inr ⟨b, hb, rfl⟩
  obtain ⟨mid, post, rfl, hmid, hpost⟩ := hrest.cut hcut
  refine ⟨pre ++ (new ++ post), tiles_append.mpr ⟨lo, hpre, tiles_append.mpr ⟨hi, hnew, hpost⟩⟩,
    fun c => ?_⟩
  simp only [List.mem_append]
  constructor
  · rintro (hc | hc | hc)
    · exact Or.inr ⟨Or.inl hc, Or.inl (hpre.bounds hc).2.2⟩
    · exact Or.inl hc
    · exact Or.inr ⟨Or.inr (Or.inr hc), Or.inr (hpost.bounds hc).1⟩
  · rintro (hc | ⟨hc | hc | hc, hout⟩)
    · exact Or.inr (Or.inl hc)
    · exact Or.inl hc
    · -- a block strictly inside `[lo, hi)` is not outside of it
      have := hmid.bounds hc
      simp only [Block.stop] at this hout
      omega
    · exact Or.inr (Or.inr hc)

end OsShell.Tiling
