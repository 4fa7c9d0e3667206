import OsShell.Vmm.Deletion

/-!
# The copy that `Process::fork` makes

Every page of the parent that the child has not got yet is copied into a new
frame. The loops carry what is done so far: which slots and pages were visited,
and that nothing else has changed since the copy began.
-/

namespace OsShell.Vmm

open PhysMem Stopping FrameTree

/-- The page at entry `j` of slot `i` of `q` after the copy from `p`: what it was, or a new frame
with what the page of `p` held. -/
def Copied (c : Config) (p q : ℕ) (m : Machine) (A : List ℕ) (occ : Role → Option ℕ) (m' : Machine)
    (occ' : Role → Option ℕ) (i j : ℕ) : Prop :=
  if isSpecial c (pageVa i j) ∨ occ (.data q i j) ≠ none ∨ occ (.data p i j) = none then
    occ' (.data q i j) = occ (.data q i j)
  else
    ∃ f g, occ (.data p i j) = some g ∧ occ' (.data q i j) = some f ∧ f ∉ A ∧
      ∀ o < frameSize, m'.mem (f + o) = m.mem (g + o)

/-- The copy from `p` to `q`, begun in the layout of `m`, has visited these slots and pages. -/
structure Copying (c : Config) (r : Pool) (low : ℕ → ℕ) (shared p q : ℕ) (m : Machine) (A : List ℕ)
    (occ : Role → Option ℕ) (slots : Set ℕ) (pages : Set (ℕ × ℕ)) (m' : Machine) (A' : List ℕ)
    (occ' : Role → Option ℕ) : Prop where
  layout : Layout c r low ∅ shared m' A' occ'
  others : ∀ x, (∀ i, x ≠ .table q i) → (∀ i j, x ≠ .data q i j) → occ' x = occ x
  slotDone : ∀ i ∈ slots, (occ' (.table q i) = none ↔
    occ (.table q i) = none ∧ occ (.table p i) = none)
  slotKept : ∀ i t, occ (.table q i) = some t → occ' (.table q i) = some t
  slotTodo : ∀ i, i ∉ slots → occ' (.table q i) = occ (.table q i)
  slotNew : ∀ i t, occ (.table q i) = none → occ' (.table q i) = some t → t ∉ A
  pageDone : ∀ i j, (i, j) ∈ pages → Copied c p q m A occ m' occ' i j
  pageTodo : ∀ i j, (i, j) ∉ pages → occ' (.data q i j) = occ (.data q i j)
  subset : ∀ f ∈ A, f ∈ A'
  kept : ∀ f ∈ A, f ≠ q → (∀ i, occ (.table q i) ≠ some f) → Kept m m' [f]
  outside : KeptOutside r m m'

variable {c : Config} {r : Pool} {low : ℕ → ℕ} {shared p q : ℕ} {m m₁ : Machine}
  {A A₁ : List ℕ} {occ occ₁ : Role → Option ℕ} {slots : Set ℕ} {pages : Set (ℕ × ℕ)} {i j t : ℕ}

theorem Layout.read_special (h : Layout c r low ∅ shared m A occ) (ht : occ (.table q i) = some t)
    (hj : j < 1024) (hs : isSpecial c (pageVa i j)) (hva : frameSize ∣ pageVa i j) :
    m.mem (t + 4 * j) &&& 1 = 1 := by
  have he := h.tree.entry (.data q i j) (.table q i) j t (if_pos hj) ht
  rcases he with ⟨he, hp⟩ | ⟨-, -, he⟩
  · have heq : m.mem (t + 4 * j) = word (kernelFlags c (pageVa i j)) (occ (.data q i j)) := he
    rw [heq]
    rcases word_present (kernelFlags_cases c _) fun f hf => h.aligned hf with ⟨hn, -⟩ | ⟨f, -, h1, -⟩
    · exact absurd (hp hn hs) (Set.notMem_empty _)
    · exact h1
  · have heq : m.mem (t + 4 * j) = pageVa i j ||| 3 := he
    rw [heq]
    exact or_flags_present hva (Or.inl rfl)

theorem pageVa_aligned (i : ℕ) {j : ℕ} (hj : j < 1024) : frameSize ∣ pageVa i j := by
  rw [pageVa_eq hj]
  simp only [frameSize]
  omega

namespace Copying

theorem skip (K : Copying c r low shared p q m A occ slots pages m₁ A₁ occ₁)
    (hnew : (i, j) ∉ pages)
    (hnone : isSpecial c (pageVa i j) ∨ occ (.data q i j) ≠ none ∨ occ (.data p i j) = none) :
    Copying c r low shared p q m A occ slots (insert (i, j) pages) m₁ A₁ occ₁ := by
  refine { K with
    pageDone := fun k l hkl => ?_
    pageTodo := fun k l hkl => K.pageTodo k l fun hmem => hkl (Or.inr hmem) }
  rcases hkl with hkl | hkl
  · cases hkl
    rw [Copied, if_pos hnone]
    exact K.pageTodo i j hnew
  · exact K.pageDone k l hkl

theorem copied_of_kept (K : Copying c r low shared p q m A occ slots pages m₁ A₁ occ₁)
    {m₂ : Machine} {occ₂ : Role → Option ℕ} {k l : ℕ} (hkl : (k, l) ∈ pages)
    (hocc : occ₂ (.data q k l) = occ₁ (.data q k l))
    (hkept : ∀ f, occ₁ (.data q k l) = some f → Kept m₁ m₂ [f]) :
    Copied c p q m A occ m₂ occ₂ k l := by
  have hdone := K.pageDone k l hkl
  simp only [Copied] at hdone ⊢
  split
  case isTrue hif =>
    rw [if_pos hif] at hdone
    rw [hocc, hdone]
  case isFalse hif =>
    rw [if_neg hif] at hdone
    obtain ⟨f, g, hg, hf, hfA, hcont⟩ := hdone
    refine ⟨f, g, hg, hocc.trans hf, hfA, fun o ho => ?_⟩
    rw [hkept f hf f (List.mem_singleton_self f) (f + o) ⟨by omega, by omega⟩]
    exact hcont o ho

theorem kept_other (K : Copying c r low shared p q m A occ slots pages m₁ A₁ occ₁)
    (h : Layout c r low ∅ shared m A occ) (hq : occ (.dir q) = some q) {x : Role} {f : ℕ}
    (hx : occ x = some f) (howner : x.owner ≠ some q) : Kept m m₁ [f] := by
  refine K.kept f (h.tree.held x f hx) ?_ fun i hi => ?_
  · rintro rfl
    exact howner (by rw [h.tree.inj x (.dir f) f hx hq]; rfl)
  · exact howner (by rw [h.tree.inj x (.table q i) f hx hi]; rfl)

theorem kept_of_frame (K : Copying c r low shared p q m A occ slots pages m₁ A₁ occ₁)
    {f : ℕ} (ht : occ₁ (.table q i) = some t) (hf : frameSize ∣ f) (hfA : f ∉ A₁) {m₂ : Machine}
    (hframe : ∀ a, ¬ Within f a → ¬ Within t a → m₂.mem a = m₁.mem a) :
    (∀ g ∈ A, g ≠ q → (∀ i, occ (.table q i) ≠ some g) → Kept m m₂ [g]) ∧
      ∀ k l g, occ₁ (.data q k l) = some g → Kept m₁ m₂ [g] := by
  have hta := (K.layout.aligned ht).1
  have hstep : ∀ g ∈ A₁, g ≠ t → Kept m₁ m₂ [g] := by
    intro g hg hgt g' hg' a ha
    obtain rfl := List.mem_singleton.mp hg'
    have hga := (K.layout.tree.frames g' hg).1
    exact hframe a (fun hfa => hfA (within_unique hf hga hfa ha ▸ hg))
      fun hta' => hgt (within_unique hga hta ha hta')
  refine ⟨fun g hg hgq hgt => (K.kept g hg hgq hgt).trans (hstep g (K.subset g hg) ?_),
    fun k l g hg => hstep g (K.layout.tree.held _ g hg) ?_⟩
  · rintro rfl
    cases ho : occ (.table q i) with
    | none => exact K.slotNew i g ho ht hg
    | some t' =>
      have := K.slotKept i t' ho
      rw [ht] at this
      cases this
      exact hgt i ho
  · rintro rfl
    exact absurd (K.layout.tree.inj _ _ g hg ht) (by simp)

end Copying

def pageCost (c : Config) (p q : ℕ) (occ : Role → Option ℕ) (i j : ℕ) : ℕ :=
  if isSpecial c (pageVa i j) ∨ occ (.data q i j) ≠ none ∨ occ (.data p i j) = none then 0 else 1

theorem copyFrame_spec (h : Layout c r low ∅ shared m A occ) (hq : occ (.dir q) = some q)
    (K : Copying c r low shared p q m A occ slots pages m₁ A₁ occ₁) (hpq : p ≠ q) {g : ℕ}
    (hnew : (i, j) ∉ pages) (hj : j < 1024)
    (hcase : ¬ (isSpecial c (pageVa i j) ∨ occ (.data q i j) ≠ none ∨ occ (.data p i j) = none))
    (ht : occ₁ (.table q i) = some t) (hg : occ (.data p i j) = some g) :
    Outcome (allocFrame m₁) (fun s => ∃ A' occ', Copying c r low shared p q m A occ slots
      (insert (i, j) pages) ({ s.2 with mem := memcpy s.2.mem s.1 g frameSize }.store (t + 4 * j)
        (s.1 ||| 7)) A' occ' ∧ occ' (.table q i) = some t ∧ A'.length = A₁.length + 1 ∧
      (Tidy A₁ occ₁ → Tidy A' occ'))
      fun _ => A₁.length = r.count := by
  refine K.layout.alloc.mono fun ⟨f, m₂⟩ ⟨hL, hloose, hF⟩ => ?_
  have hs : ¬ isSpecial c (pageVa i j) := fun hs => hcase (Or.inl hs)
  have hfa := (hL.tree.frames f List.mem_cons_self).1
  have hgA : g ∈ A₁ := K.subset g (h.tree.held _ g hg)
  have hga := (h.aligned hg).1
  have hft : f ≠ t := fun heq => hloose.2 _ (heq ▸ ht)
  have hcell : ∀ a, Within f a → a ≠ t + 4 * j := fun a ha heq =>
    hft (within_unique hfa (hL.aligned ht).1 ha (heq ▸ within_cell t hj))
  have hout : ∀ a, ¬ Within f a → memcpy m₂.mem f g frameSize a = m₁.mem a := fun a ha => by
    simp only [Within] at ha
    rw [memcpy, if_neg ha, hF.frame a (by omega)]
  have hin : ∀ o < frameSize, memcpy m₂.mem f g frameSize (f + o) = m.mem (g + o) := by
    intro o ho
    have hgo : ¬ Within f (g + o) := fun hfo =>
      hF.fresh (within_unique hfa hga hfo ⟨by omega, by omega⟩ ▸ hgA)
    rw [memcpy, if_pos (by omega), Nat.add_sub_cancel_left,
      hF.frame _ (by simp only [Within] at hgo; omega)]
    exact K.kept_other h hq hg (by simp [Role.owner, hpq]) g (List.mem_singleton_self g) _
      ⟨by omega, by omega⟩
  have hwrite : Layout c r low ∅ shared { m₂ with mem := memcpy m₂.mem f g frameSize } (f :: A₁)
      occ₁ := by
    refine hL.write List.mem_cons_self (fun x hx => absurd hx (hloose.2 x)) fun a ha => if_neg ?_
    omega
  have hlink := hwrite.link (x := .data q i j) (v := f ||| 7) (if_pos hj) trivial ht hloose
    (Or.inl ⟨by rw [kernelFlags_eq, if_neg hs]; rfl, by simp⟩) fun z k hz => by
      cases z <;> simp [Role.parent] at hz
  have hframe : ∀ a, ¬ Within f a → ¬ Within t a →
      ({ m₂ with mem := memcpy m₂.mem f g frameSize }.store (t + 4 * j) (f ||| 7) : Machine).mem a =
        m₁.mem a := fun a hfa' hta => by
    have hne : a ≠ t + 4 * j := by
      rintro rfl
      exact hta (within_cell t hj)
    rw [store_mem, Function.update_of_ne hne]
    exact hout a hfa'
  obtain ⟨hkept, hpagesKept⟩ := K.kept_of_frame ht hfa hF.fresh hframe
  refine ⟨f :: A₁, Function.update occ₁ (.data q i j) (some f), ⟨hlink, fun x hx hx' => ?_,
    fun k hk => ?_, fun k u hu => ?_, fun k hk => ?_, fun k u hn hu => ?_, fun k l hkl => ?_,
    fun k l hkl => ?_, fun a ha => List.mem_cons_of_mem f (K.subset a ha), hkept,
    K.outside.trans fun a ha => hframe a (hL.not_within List.mem_cons_self ha)
      (K.layout.not_within (K.layout.tree.held _ t ht) ha)⟩, ?_, rfl, fun hT => ?_⟩
  · rw [Function.update_of_ne (hx' i j)]
    exact K.others x hx hx'
  · rw [Function.update_of_ne (by simp)]
    exact K.slotDone k hk
  · rw [Function.update_of_ne (by simp)]
    exact K.slotKept k u hu
  · rw [Function.update_of_ne (by simp)]
    exact K.slotTodo k hk
  · rw [Function.update_of_ne (by simp)] at hu
    exact K.slotNew k u hn hu
  · by_cases hsame : (k, l) = (i, j)
    · cases hsame
      rw [Copied, if_neg hcase]
      refine ⟨f, g, hg, Function.update_self .., fun hfA => hF.fresh (K.subset f hfA), fun o ho => ?_⟩
      rw [store_mem, Function.update_of_ne (hcell _ ⟨by omega, by omega⟩)]
      exact hin o ho
    · exact K.copied_of_kept (hkl.resolve_left hsame) (Function.update_of_ne (by simpa using hsame) _ _)
        fun g' hg' => hpagesKept k l g' hg'
  · have hsame : (k, l) ≠ (i, j) := fun heq => hkl (Or.inl heq)
    rw [Function.update_of_ne (by simpa using hsame)]
    exact K.pageTodo k l fun hmem => hkl (Or.inr hmem)
  · rw [Function.update_of_ne (by simp)]
    exact ht
  · refine hT.cons ?_
    rw [K.pageTodo i j hnew]
    by_contra hne
    exact hcase (Or.inr (Or.inl hne))

theorem copyPage_spec (h : Layout c r low ∅ shared m A occ) (hq : occ (.dir q) = some q)
    (K : Copying c r low shared p q m A occ slots pages m₁ A₁ occ₁) (hpq : p ≠ q)
    (hnew : (i, j) ∉ pages) (hj : j < 1024) {tp : ℕ}
    (htp : occ (.table p i) = some tp) (ht : occ₁ (.table q i) = some t) :
    Outcome (copyPage tp t j m₁) (fun m' => ∃ A' occ', Copying c r low shared p q m A occ slots
      (insert (i, j) pages) m' A' occ' ∧ occ' (.table q i) = some t ∧
      A'.length = A₁.length + pageCost c p q occ i j ∧ (Tidy A₁ occ₁ → Tidy A' occ'))
      fun _ => r.count < A₁.length + pageCost c p q occ i j := by
  have htodo := K.pageTodo i j hnew
  have hparent : m₁.mem (tp + 4 * j) = m.mem (tp + 4 * j) :=
    K.kept_other h hq htp (by simp [Role.owner, hpq]) tp (List.mem_singleton_self tp) _
      (within_cell tp hj)
  by_cases hcase : isSpecial c (pageVa i j) ∨ occ (.data q i j) ≠ none ∨ occ (.data p i j) = none
  · have hskip : copyPage tp t j m₁ = .ok m₁ := by
      simp only [copyPage, hparent]
      by_cases hs : isSpecial c (pageVa i j)
      · rw [if_pos (K.layout.read_special ht hj hs (pageVa_aligned i hj))]
      · rcases K.layout.read_page ht hj hs with ⟨ho, hpte⟩ | ⟨f, ho, hpte, -⟩
        · rw [htodo] at ho
          have hnone := (hcase.resolve_left hs).resolve_left (not_not.mpr ho)
          rcases h.read_page htp hj hs with ⟨-, hpte'⟩ | ⟨g, hg, -, -⟩
          · rw [if_neg (by simp [hpte]), if_pos hpte']
          · rw [hnone] at hg
            cases hg
        · rw [if_pos hpte]
    rw [hskip, pageCost, if_pos hcase]
    exact .ok ⟨A₁, occ₁, K.skip hnew hcase, ht, rfl, id⟩
  · have hs : ¬ isSpecial c (pageVa i j) := fun hs => hcase (Or.inl hs)
    have hcase' := hcase
    rw [not_or, not_or, not_not] at hcase'
    rw [pageCost, if_neg hcase]
    rcases K.layout.read_page ht hj hs with ⟨-, hpte⟩ | ⟨f, ho, -, -⟩
    · rcases h.read_page htp hj hs with ⟨hg, -⟩ | ⟨g, hg, hpte', hframe⟩
      · exact absurd hg hcase'.2.2
      · simp only [copyPage, hparent]
        rw [if_neg (by simp [hpte]), if_neg (by simp [hpte']), hframe]
        exact .bind ((copyFrame_spec h hq K hpq hnew hj hcase ht hg).weaken (fun _ hs => .ok hs)
          fun _ he => by omega)
    · rw [htodo, hcase'.2.1] at ho
      cases ho

def slotCost (c : Config) (p q : ℕ) (occ : Role → Option ℕ) (i : ℕ) : ℕ :=
  (if occ (.table q i) ≠ none ∨ occ (.table p i) = none then 0 else 1) +
    ∑ j ∈ Finset.range 1024, pageCost c p q occ i j

theorem copyPages_spec (h : Layout c r low ∅ shared m A occ) (hq : occ (.dir q) = some q)
    (K : Copying c r low shared p q m A occ slots pages m₁ A₁ occ₁) (hpq : p ≠ q)
    (hnew : ∀ j, (i, j) ∉ pages) {tp : ℕ} (htp : occ (.table p i) = some tp)
    (ht : occ₁ (.table q i) = some t) :
    Outcome (forRange 0 1024 (copyPage tp t) m₁) (fun m' => ∃ A' occ',
      Copying c r low shared p q m A occ slots (pages ∪ {i} ×ˢ Set.Iio 1024) m' A' occ' ∧
      A'.length = A₁.length + ∑ j ∈ Finset.range 1024, pageCost c p q occ i j ∧
      (Tidy A₁ occ₁ → Tidy A' occ'))
      fun _ => r.count < A₁.length + ∑ j ∈ Finset.range 1024, pageCost c p q occ i j := by
  refine (Outcome.forRange (fun k m' => ∃ A' occ',
    Copying c r low shared p q m A occ slots (pages ∪ {i} ×ˢ Set.Iio k) m' A' occ' ∧
    occ' (.table q i) = some t ∧
    A'.length = A₁.length + ∑ j ∈ Finset.range k, pageCost c p q occ i j ∧
    (Tidy A₁ occ₁ → Tidy A' occ')) ?_ ?_).mono ?_
  · refine ⟨A₁, occ₁, ?_, ht, by simp, id⟩
    rwa [show Set.Iio 0 = (∅ : Set ℕ) by ext k; simp, Set.prod_empty, Set.union_empty]
  · rintro j m₂ - hj ⟨A₂, occ₂, hK, ht₂, hlen, htidy⟩
    rw [Nat.zero_add] at hj
    have hmem : (i, j) ∉ pages ∪ {i} ×ˢ Set.Iio j := by
      rintro (hm | hm)
      · exact hnew j hm
      · exact absurd hm.2 (lt_irrefl j)
    have hset : insert (i, j) (pages ∪ {i} ×ˢ Set.Iio j) = pages ∪ {i} ×ˢ Set.Iio (j + 1) := by
      ext ⟨k, l⟩
      simp only [Set.mem_insert_iff, Prod.mk.injEq, Set.mem_union, Set.mem_prod,
        Set.mem_singleton_iff, Set.mem_Iio, Nat.lt_succ_iff_lt_or_eq]
      tauto
    have hsum : ∑ j ∈ Finset.range (j + 1), pageCost c p q occ i j ≤
        ∑ j ∈ Finset.range 1024, pageCost c p q occ i j :=
      Finset.sum_le_sum_of_subset (Finset.range_subset_range.mpr (by omega))
    rw [Finset.sum_range_succ] at hsum
    refine (copyPage_spec h hq hK hpq hmem hj htp ht₂).weaken ?_ fun _ he => by omega
    rintro m₃ ⟨A₃, occ₃, hK₃, ht₃, hlen₃, htidy₃⟩
    rw [hset] at hK₃
    refine ⟨A₃, occ₃, hK₃, ht₃, ?_, htidy₃ ∘ htidy⟩
    rw [Finset.sum_range_succ]
    omega
  · rintro m' ⟨A', occ', hK, -, hlen, htidy⟩
    exact ⟨A', occ', hK, hlen, htidy⟩

namespace Copying

theorem visit (K : Copying c r low shared p q m A occ slots pages m₁ A₁ occ₁) (hi : i ∉ slots)
    (hcase : occ (.table q i) ≠ none ∨ occ (.table p i) = none) :
    Copying c r low shared p q m A occ (insert i slots) pages m₁ A₁ occ₁ := by
  refine { K with
    slotDone := fun k hk => ?_
    slotTodo := fun k hk => K.slotTodo k fun hmem => hk (Or.inr hmem) }
  rcases hk with rfl | hk
  · rw [K.slotTodo k hi]
    rcases hcase with hcase | hcase
    · simp [hcase]
    · simp [hcase]
  · exact K.slotDone k hk

theorem skipPages (K : Copying c r low shared p q m A occ slots pages m₁ A₁ occ₁)
    (hnew : ∀ j, (i, j) ∉ pages) (hnone : ∀ j, occ (.data p i j) = none) :
    Copying c r low shared p q m A occ slots (pages ∪ {i} ×ˢ Set.Iio 1024) m₁ A₁ occ₁ := by
  refine { K with
    pageDone := fun k l hkl => ?_
    pageTodo := fun k l hkl => K.pageTodo k l fun hmem => hkl (Or.inl hmem) }
  rcases hkl with hkl | ⟨hk, -⟩
  · exact K.pageDone k l hkl
  · obtain rfl : k = i := hk
    rw [Copied, if_pos (Or.inr (Or.inr (hnone l)))]
    exact K.pageTodo k l (hnew l)

end Copying

theorem copySlot_spec (C : Closed c occ) (hp : occ (.dir q) = some q)
    (K : Copying c r low shared p q m A occ slots pages m₁ A₁ occ₁) (hi : 512 ≤ i ∧ i < 1024)
    (hslot : i ∉ slots) (hnew : ∀ j, (i, j) ∉ pages) (hnone : occ (.table q i) = none)
    (hsome : occ (.table p i) ≠ none) :
    Outcome (allocFrame m₁) (fun s => ∃ A' occ', Copying c r low shared p q m A occ (insert i slots)
      pages (s.2.store (q + 4 * i) (s.1 ||| 7)) A' occ' ∧ occ' (.table q i) = some s.1 ∧
      A'.length = A₁.length + 1 ∧ (Tidy A₁ occ₁ → Tidy A' occ')) fun _ => A₁.length = r.count := by
  have hnoapic : ¬ apicSlot c i := fun hs => C.apics q i (by simp [hp]) hs hnone
  have hq₁ : occ₁ (.dir q) = some q := by rw [K.others _ (by simp) (by simp), hp]
  have hflags : tableFlags c i = 7 := if_neg hnoapic
  have hnewT := newTable_spec K.layout hq₁ hi (by rw [K.slotTodo i hslot, hnone])
    (fun j => by rw [K.pageTodo i j (hnew j)]; exact C.pages q i j hnone)
    fun j hj hs => absurd (apicSlot_of_special hi.1 hj hs) hnoapic
  rw [hflags] at hnewT
  refine hnewT.mono ?_
  rintro ⟨t, m₂⟩ ⟨hL, htA, hF⟩
  have hta := (hL.tree.frames t List.mem_cons_self).1
  have hqa := (K.layout.aligned hq₁).1
  have hkept : ∀ f ∈ A₁, f ≠ q → Kept m₁ (m₂.store (q + 4 * i) (t ||| 7)) [f] := by
    intro f hf hfq g hg a ha
    obtain rfl := List.mem_singleton.mp hg
    have hga := (K.layout.tree.frames g hf).1
    have hne : a ≠ q + 4 * i := by
      rintro rfl
      exact hfq (within_unique hga hqa ha (within_cell q hi.2))
    rw [store_mem, Function.update_of_ne hne]
    exact hF a fun hta' => htA (within_unique hta hga hta' ha ▸ hf)
  refine ⟨t :: A₁, _, ⟨hL, fun x hx hx' => ?_, fun k hk => ?_, fun k u hu => ?_, fun k hk => ?_,
    fun k u hn hu => ?_, fun k l hkl => ?_, fun k l hkl => ?_,
    fun f hf => List.mem_cons_of_mem t (K.subset f hf), fun f hf hfq hft =>
      (K.kept f hf hfq hft).trans (hkept f (K.subset f hf) hfq), K.outside.trans fun a ha => ?_⟩,
    Function.update_self .., rfl, fun hT => hT.cons (by rw [K.slotTodo i hslot, hnone])⟩
  · rw [Function.update_of_ne (hx i)]
    exact K.others x hx hx'
  · rcases hk with rfl | hk
    · rw [Function.update_self]
      simp [hsome]
    · have hne : k ≠ i := fun heq => hslot (heq ▸ hk)
      rw [Function.update_of_ne (by simpa using hne)]
      exact K.slotDone k hk
  · have hne : k ≠ i := by
      rintro rfl
      rw [hnone] at hu
      cases hu
    rw [Function.update_of_ne (by simpa using hne)]
    exact K.slotKept k u hu
  · have hne : k ≠ i := fun heq => hk (Or.inl heq)
    rw [Function.update_of_ne (by simpa using hne)]
    exact K.slotTodo k fun hmem => hk (Or.inr hmem)
  · by_cases hne : k = i
    · rw [hne, Function.update_self] at hu
      cases hu
      exact fun htA' => htA (K.subset t htA')
    · rw [Function.update_of_ne (by simpa using hne)] at hu
      exact K.slotNew k u hn hu
  · refine K.copied_of_kept hkl (Function.update_of_ne (by simp) _ _) fun f hf =>
      hkept f (K.layout.tree.held _ f hf) ?_
    rintro rfl
    exact absurd (K.layout.tree.inj _ _ f hf hq₁) (by simp)
  · rw [Function.update_of_ne (by simp)]
    exact K.pageTodo k l hkl
  · have hne : a ≠ q + 4 * i := by
      rintro rfl
      exact K.layout.not_within (K.layout.tree.held _ q hq₁) ha (within_cell q hi.2)
    rw [store_mem, Function.update_of_ne hne]
    exact hF a (hL.not_within List.mem_cons_self ha)

theorem copyTable_spec (h : Layout c r low ∅ shared m A occ) (C : Closed c occ)
    (hp : occ (.dir p) = some p) (hq : occ (.dir q) = some q)
    (K : Copying c r low shared p q m A occ slots pages m₁ A₁ occ₁) (hpq : p ≠ q)
    (hi : 512 ≤ i ∧ i < 1024) (hslot : i ∉ slots) (hnew : ∀ j, (i, j) ∉ pages) :
    Outcome (copyTable p q i m₁) (fun m' => ∃ A' occ',
      Copying c r low shared p q m A occ (insert i slots) (pages ∪ {i} ×ˢ Set.Iio 1024) m' A' occ' ∧
      A'.length = A₁.length + slotCost c p q occ i ∧ (Tidy A₁ occ₁ → Tidy A' occ'))
      fun _ => r.count < A₁.length + slotCost c p q occ i := by
  have hparent : m₁.mem (p + 4 * i) = m.mem (p + 4 * i) :=
    K.kept_other h hq hp (by simp [Role.owner, hpq]) p (List.mem_singleton_self p) _
      (within_cell p hi.2)
  have hq₁ : occ₁ (.dir q) = some q := by rw [K.others _ (by simp) (by simp), hq]
  simp only [copyTable, hparent]
  rcases h.read_slot hp hi with ⟨hnone, hpde⟩ | ⟨tp, htp, hpde, hframe⟩
  · have hdata := fun j => C.pages p i j hnone
    rw [if_pos hpde]
    refine .ok ⟨A₁, occ₁, (K.visit hslot (Or.inr hnone)).skipPages hnew hdata, ?_, id⟩
    simp [slotCost, pageCost, hnone, hdata]
  · rw [if_neg (by simp [hpde]), hframe]
    rcases K.layout.read_slot hq₁ hi with ⟨hnone, hpde'⟩ | ⟨tq, htq, hpde', hframe'⟩
    · rw [K.slotTodo i hslot] at hnone
      have hcost : slotCost c p q occ i = 1 + ∑ j ∈ Finset.range 1024, pageCost c p q occ i j := by
        simp [slotCost, hnone, htp]
      rw [if_pos hpde', hcost]
      refine .bind ((copySlot_spec C hq K hi hslot hnew hnone (by simp [htp])).weaken ?_
        fun _ he => by omega)
      rintro ⟨t, m₂⟩ ⟨A₂, occ₂, hK₂, ht₂, hlen₂, htidy₂⟩
      simp only [ok_bind]
      refine (copyPages_spec h hq hK₂ hpq hnew htp ht₂).weaken ?_ fun _ he => by omega
      rintro m₃ ⟨A₃, occ₃, hK₃, hlen₃, htidy₃⟩
      exact ⟨A₃, occ₃, hK₃, by omega, htidy₃ ∘ htidy₂⟩
    · have htq' : occ (.table q i) = some tq := by rw [← K.slotTodo i hslot, htq]
      have hcost : slotCost c p q occ i = ∑ j ∈ Finset.range 1024, pageCost c p q occ i j := by
        simp [slotCost, htq']
      rw [if_neg (by simp [hpde']), hframe', hcost]
      simp only [ok_bind]
      exact copyPages_spec h hq (K.visit hslot (Or.inl (by simp [htq']))) hpq hnew htp htq

def copyCost (c : Config) (p q : ℕ) (occ : Role → Option ℕ) : ℕ :=
  ∑ i ∈ Finset.Ico 512 1024, slotCost c p q occ i

theorem copyPrivate_spec (h : Layout c r low ∅ shared m A occ) (C : Closed c occ)
    (hp : occ (.dir p) = some p) (hq : occ (.dir q) = some q) (hpq : p ≠ q) :
    Outcome (copyPrivate p q m) (fun m' => ∃ A' occ',
      Copying c r low shared p q m A occ (Set.Ico 512 1024) (Set.Ico 512 1024 ×ˢ Set.Iio 1024)
        m' A' occ' ∧ A'.length = A.length + copyCost c p q occ ∧ (Tidy A occ → Tidy A' occ'))
      fun _ => r.count < A.length + copyCost c p q occ := by
  refine Outcome.forRange (fun k m' => ∃ A' occ',
    Copying c r low shared p q m A occ (Set.Ico 512 k) (Set.Ico 512 k ×ˢ Set.Iio 1024) m' A' occ' ∧
    A'.length = A.length + ∑ i ∈ Finset.Ico 512 k, slotCost c p q occ i ∧
    (Tidy A occ → Tidy A' occ')) ?_ ?_
  · refine ⟨A, occ, ⟨h, fun _ _ _ => rfl, by simp, fun _ _ ht => ht, fun _ _ => rfl,
      fun i t hn ht => ?_, by simp, fun _ _ _ => rfl, fun _ hf => hf, fun _ _ _ _ _ _ _ _ => rfl, fun _ _ => rfl⟩,
      by simp, id⟩
    rw [hn] at ht
    cases ht
  · rintro i m₁ hlo hhi ⟨A₁, occ₁, K, hlen, htidy⟩
    have hsum : ∑ i ∈ Finset.Ico 512 (i + 1), slotCost c p q occ i ≤ copyCost c p q occ :=
      Finset.sum_le_sum_of_subset (Finset.Ico_subset_Ico_right (by omega))
    rw [Finset.sum_Ico_succ_top hlo] at hsum ⊢
    have hslots : insert i (Set.Ico 512 i) = Set.Ico 512 (i + 1) := by
      ext k
      simp only [Set.mem_insert_iff, Set.mem_Ico]
      omega
    have hpages : Set.Ico 512 i ×ˢ Set.Iio 1024 ∪ {i} ×ˢ Set.Iio 1024 =
        Set.Ico 512 (i + 1) ×ˢ Set.Iio 1024 := by
      rw [← Set.union_prod, Set.union_singleton, hslots]
    refine (copyTable_spec h C hp hq K hpq ⟨hlo, by omega⟩ (by simp) (by simp)).weaken ?_
      fun _ he => by omega
    rintro m₂ ⟨A₂, occ₂, hK₂, hlen₂, htidy₂⟩
    rw [hslots, hpages] at hK₂
    exact ⟨A₂, occ₂, hK₂, by omega, htidy₂ ∘ htidy⟩

theorem Copying.closed {m' : Machine} {A' : List ℕ} {occ' : Role → Option ℕ}
    (h : Layout c r low ∅ shared m A occ) (C : Closed c occ) (hq : occ (.dir q) = some q)
    (K : Copying c r low shared p q m A occ (Set.Ico 512 1024) (Set.Ico 512 1024 ×ˢ Set.Iio 1024)
      m' A' occ') : Closed c occ' := by
  have hdir : ∀ x, occ' (.dir x) = occ (.dir x) := fun x => K.others _ (by simp) (by simp)
  refine ⟨fun x i hx => ?_, fun x i j hx => ?_, fun x i hx hi => ?_⟩
  · rw [hdir] at hx
    rw [K.others _ (fun k hk => ?_) (by simp)]
    · exact C.tables x i hx
    · cases hk
      rw [hq] at hx
      cases hx
  · by_cases hxq : x = q
    · subst hxq
      have hnone : occ (.table x i) = none := by
        cases ht : occ (.table x i) with
        | none => rfl
        | some t => rw [K.slotKept i t ht] at hx; cases hx
      have hdata := C.pages x i j hnone
      rcases K.layout.ranged (.data x i j) with hj | hj
      · rcases h.ranged (.table p i) with hi | hi
        · have htable := (K.slotDone i hi).mp hx
          have hdone := K.pageDone i j ⟨hi, hj⟩
          rw [Copied, if_pos (Or.inr (Or.inr (C.pages p i j htable.2)))] at hdone
          rw [hdone, hdata]
        · by_cases hi' : i ∈ Set.Ico 512 1024
          · have hdone := K.pageDone i j ⟨hi', hj⟩
            rw [Copied, if_pos (Or.inr (Or.inr (C.pages p i j hi)))] at hdone
            rw [hdone, hdata]
          · rw [K.pageTodo i j fun hmem => hi' hmem.1, hdata]
      · exact hj
    · rw [K.others _ (by simpa using fun h => absurd h hxq) (by simp)] at hx
      rw [K.others _ (by simp) (by simpa using fun h => absurd h hxq)]
      exact C.pages x i j hx
  · rw [hdir] at hx
    intro hn
    obtain ⟨t, ht⟩ := Option.ne_none_iff_exists'.mp (C.apics x i hx hi)
    by_cases hxq : x = q
    · subst hxq
      rw [K.slotKept i t ht] at hn
      cases hn
    · rw [K.others _ (by simpa using fun h => absurd h hxq) (by simp), ht] at hn
      cases hn

end OsShell.Vmm
