import OsShell.Library.FrameTree
import OsShell.Library.Words
import OsShell.PhysMem.Pool
import OsShell.Vmm.Code

/-!
# Who holds which frame

Every frame that the address spaces use is in one role. The roles form a tree
of frames: the words of the shared directory name the shared tables, those of a
process's directory its tables, and those of a table its pages. The first 512
words of a directory repeat those of the shared directory.
-/

namespace OsShell.Vmm

open PhysMem Stopping FrameTree

inductive Role
  | sharedDir
  | sharedTable (pdi : ℕ)
  | dir (pd : ℕ)
  | alias (pd pdi : ℕ)
  | table (pd pdi : ℕ)
  | data (pd pdi pti : ℕ)
deriving DecidableEq

def Role.parent : Role → Option (Role × ℕ)
  | .sharedDir => none
  | .sharedTable i => if i < 1024 then some (.sharedDir, i) else none
  | .dir _ => none
  | .alias pd i => if i < 512 then some (.dir pd, i) else none
  | .table pd i => if 512 ≤ i ∧ i < 1024 then some (.dir pd, i) else none
  | .data pd i j => if j < 1024 then some (.table pd i, j) else none

def Role.InRange : Role → Prop
  | .sharedTable i => i < 1024
  | .alias _ i => i < 512
  | .table _ i => 512 ≤ i ∧ i < 1024
  | .data _ _ j => j < 1024
  | _ => True

def Role.isPrivate : Role → Prop
  | .sharedDir => False
  | .sharedTable _ => False
  | _ => True

def word (flags : ℕ) : Option ℕ → ℕ
  | none => 0
  | some f => f ||| flags

def apicSlot (c : Config) (i : ℕ) : Prop := c.ioAPIC >>> 22 = i ∨ c.localAPIC >>> 22 = i

instance (c : Config) (i : ℕ) : Decidable (apicSlot c i) :=
  inferInstanceAs (Decidable (_ ∨ _))

def tableFlags (c : Config) (i : ℕ) : ℕ := if apicSlot c i then 3 else 7

/-- What the word of a role may be. A page of an APIC is mapped to itself unless a fault replaced
it; `pending` holds the directories and pages where `makePd` has yet to do so. -/
def entry (c : Config) (low : ℕ → ℕ) (pending : Set (ℕ × ℕ)) : Role → ℕ → Option ℕ → Prop
  | .sharedTable _, e, o => e = word 3 o
  | .alias _ i, e, _ => e = low i
  | .table _ i, e, o => e = word (tableFlags c i) o
  | .data pd i j, e, o =>
    e = word (kernelFlags c (pageVa i j)) o ∧
        (o = none → isSpecial c (pageVa i j) → (pd, pageVa i j) ∈ pending) ∨
      o = none ∧ isSpecial c (pageVa i j) ∧ e = pageVa i j ||| 3
  | _, _, _ => True

theorem Role.inRange_of_parent {x y : Role} {i : ℕ} (h : x.parent = some (y, i)) : x.InRange := by
  cases x <;> simp only [Role.parent, Option.ite_none_right_eq_some, Option.some.injEq,
    Prod.mk.injEq, reduceCtorEq] at h <;> first | exact trivial | exact h.1

theorem Role.parent_lt {x y : Role} {i : ℕ} (h : x.parent = some (y, i)) : i < 1024 := by
  cases x <;> simp only [Role.parent, Option.ite_none_right_eq_some, Option.some.injEq,
    Prod.mk.injEq, reduceCtorEq] at h <;> omega

def shape (c : Config) (low : ℕ → ℕ) (pending : Set (ℕ × ℕ)) : Shape Role where
  parent := Role.parent
  entry := entry c low pending
  Frame f := frameSize ∣ f ∧ f < 2 ^ 32
  cell f i := f + 4 * i
  parent_inj x y p hx hy := by
    obtain ⟨z, k⟩ := p
    cases x <;> cases y <;> simp only [Role.parent, Option.ite_none_right_eq_some,
      Option.some.injEq, Prod.mk.injEq, reduceCtorEq] at hx hy <;> grind
  parent_ne x i hx := by
    cases x <;> simp [Role.parent] at hx
  cell_inj x y x' y' f g i j hx hy hf hg heq := by
    have hi := Role.parent_lt hx
    have hj := Role.parent_lt hy
    obtain ⟨⟨a, rfl⟩, -⟩ := hf
    obtain ⟨⟨b, rfl⟩, -⟩ := hg
    simp only [frameSize] at heq ⊢
    omega

/-! ## Words and addresses -/

theorem kernelFlags_eq (c : Config) (va : ℕ) :
    kernelFlags c va = if isSpecial c va then 3 else 7 := by
  refine if_congr ?_ rfl rfl
  simp only [isSpecial]
  tauto

theorem kernelFlags_cases (c : Config) (va : ℕ) : kernelFlags c va = 3 ∨ kernelFlags c va = 7 := by
  rw [kernelFlags_eq]
  split <;> simp

theorem tableFlags_cases (c : Config) (i : ℕ) : tableFlags c i = 3 ∨ tableFlags c i = 7 := by
  rw [tableFlags]
  split <;> simp

theorem or_flags_frame {f flags : ℕ} (hf : frameSize ∣ f) (hlt : f < 2 ^ 32)
    (hflags : flags = 3 ∨ flags = 7) : (f ||| flags) &&& 0xFFFFF000 = f :=
  Words.and_high_or (k := 12) (n := 20) hf (by omega) hlt

theorem or_flags_present {f flags : ℕ} (hf : frameSize ∣ f) (hflags : flags = 3 ∨ flags = 7) :
    (f ||| flags) &&& 1 = 1 := by
  refine (Words.and_low_or (k := 12) (c := 1) hf (by omega) (by omega)).trans ?_
  rcases hflags with rfl | rfl <;> rfl

theorem pageVa_eq {i j : ℕ} (hj : j < 1024) : pageVa i j = 2 ^ 22 * i + 2 ^ 12 * j := by
  rw [pageVa, Nat.shiftLeft_eq, Nat.shiftLeft_eq, Words.or_eq_add (k := 22) (Dvd.intro_left i rfl)
    (by omega)]
  omega

theorem pageVa_split {va : ℕ} (hva : frameSize ∣ va) :
    pageVa (va >>> 22) ((va >>> 12) &&& 0x3FF) = va := by
  have hand : (va >>> 12) &&& 0x3FF = va / 2 ^ 12 % 2 ^ 10 := by
    rw [Nat.shiftRight_eq_div_pow]
    exact Nat.and_two_pow_sub_one_eq_mod _ 10
  obtain ⟨q, rfl⟩ := hva
  rw [hand, pageVa_eq (by omega), Nat.shiftRight_eq_div_pow]
  simp only [frameSize]
  omega

theorem slot_lt {va : ℕ} (hva : va < 2 ^ 32) : va >>> 22 < 1024 := by
  rw [Nat.shiftRight_eq_div_pow]
  omega

theorem index_lt (va : ℕ) : (va >>> 12) &&& 0x3FF < 1024 :=
  Nat.and_lt_two_pow _ (n := 10) (by norm_num)

theorem slot_private {va : ℕ} (hva : 0x80000000 ≤ va) : 512 ≤ va >>> 22 := by
  rw [Nat.shiftRight_eq_div_pow]
  omega

theorem pageVa_slot {i j : ℕ} (hj : j < 1024) : pageVa i j >>> 22 = i := by
  rw [pageVa_eq hj, Nat.shiftRight_eq_div_pow]
  omega

theorem pageVa_inj {i i' j j' : ℕ} (hj : j < 1024) (hj' : j' < 1024)
    (h : pageVa i j = pageVa i' j') : i = i' ∧ j = j' := by
  rw [pageVa_eq hj, pageVa_eq hj'] at h
  omega

theorem special_private {c : Config} {i j : ℕ} (hi : 512 ≤ i) (hj : j < 1024) :
    isSpecial c (pageVa i j) ↔ pageVa i j = c.ioAPIC ∨ pageVa i j = c.localAPIC := by
  have hlow : ¬ pageVa i j < 0x80000000 := by
    rw [pageVa_eq hj]
    omega
  simp only [isSpecial, hlow, false_or]

theorem apicSlot_of_special {c : Config} {i j : ℕ} (hi : 512 ≤ i) (hj : j < 1024)
    (h : isSpecial c (pageVa i j)) : apicSlot c i := by
  rcases (special_private hi hj).mp h with h | h
  · exact Or.inl (h ▸ pageVa_slot hj)
  · exact Or.inr (h ▸ pageVa_slot hj)

/-- What the boot code promises the memory manager. -/
structure Valid (c : Config) (r : Pool) : Prop where
  memSize : c.memSize ≤ 0x80000000
  poolEnd : r.start + frameSize * r.count ≤ 0x80000000
  ioAligned : frameSize ∣ c.ioAPIC
  ioPrivate : 0x80000000 ≤ c.ioAPIC
  ioWord : c.ioAPIC < 2 ^ 32
  localAligned : frameSize ∣ c.localAPIC
  localPrivate : 0x80000000 ≤ c.localAPIC
  localWord : c.localAPIC < 2 ^ 32

/-! ## The layout and the steps that change it -/

theorem alloc_tree {c : Config} {r : Pool} {low : ℕ → ℕ} {pending : Set (ℕ × ℕ)} {m : Machine}
    {A : List ℕ} {occ : Role → Option ℕ} (hO : Owned r m A)
    (hT : Tree (shape c low pending) m.mem {f | f ∈ A} occ) :
    Outcome (allocFrame m) (fun q => Owned r q.2 (q.1 :: A) ∧
      Tree (shape c low pending) q.2.mem {f | f ∈ q.1 :: A} occ ∧
      Loose {f | f ∈ q.1 :: A} occ q.1 ∧ Fresh r m A q.1 q.2) fun _ => A.length = r.count := by
  refine hO.alloc.mono fun ⟨p, m'⟩ ⟨hO', hF⟩ => ?_
  have hp := hO'.mem_bounds (List.mem_cons_self (a := p))
  have hfit := r.fits
  have hset : {f | f ∈ p :: A} = insert p {f | f ∈ A} := by
    ext f
    simp
  have htree : Tree (shape c low pending) m.mem {f | f ∈ p :: A} occ := by
    rw [hset]
    refine hT.grow ⟨hp.1, ?_⟩
    simp only [frameSize] at *
    omega
  have hloose : Loose {f | f ∈ p :: A} occ p :=
    ⟨by simp, fun x hx => hF.fresh (hT.held x p hx)⟩
  refine ⟨hO', htree.agree fun x y i f hx hy => hF.frame _ ?_, hloose, hF⟩
  have hi := Role.parent_lt hx
  have hne := hloose.ne hy
  obtain ⟨⟨a, rfl⟩, -⟩ := hp
  obtain ⟨⟨b, rfl⟩, -⟩ := hT.frames f (hT.held y f hy)
  simp only [shape, frameSize] at *
  omega

/-- The clients of the allocator hold `A`, and roles are as in `occ`. -/
structure Layout (c : Config) (r : Pool) (low : ℕ → ℕ) (pending : Set (ℕ × ℕ)) (shared : ℕ)
    (m : Machine) (A : List ℕ) (occ : Role → Option ℕ) : Prop where
  owned : Owned r m A
  tree : Tree (shape c low pending) m.mem {f | f ∈ A} occ
  sharedDir : occ .sharedDir = some shared
  dirs : ∀ pd f, occ (.dir pd) = some f → f = pd
  ranged : ∀ x, x.InRange ∨ occ x = none
  lows : ∀ i, low i = word 3 (occ (.sharedTable i))
  sharedHigh : ∀ i, sharedSlots c ≤ i → occ (.sharedTable i) = none

namespace Layout

variable {c : Config} {r : Pool} {low : ℕ → ℕ} {pending : Set (ℕ × ℕ)} {shared : ℕ}
  {m : Machine} {A : List ℕ} {occ : Role → Option ℕ}

theorem aligned (h : Layout c r low pending shared m A occ) {x : Role} {f : ℕ}
    (hx : occ x = some f) : frameSize ∣ f ∧ f < 2 ^ 32 :=
  h.tree.frames f (h.tree.held x f hx)

theorem agree (h : Layout c r low pending shared m A occ) {m' : Machine} (hO : Owned r m' A)
    (heq : ∀ x f i, (∀ pd i j, x ≠ .data pd i j) → occ x = some f → i < 1024 →
      m'.mem (f + 4 * i) = m.mem (f + 4 * i)) :
    Layout c r low pending shared m' A occ := by
  refine { h with owned := hO, tree := h.tree.agree fun x y i f hx hy => ?_ }
  refine heq y f i ?_ hy (Role.parent_lt hx)
  rintro pd i' j rfl
  cases x <;> simp [shape, Role.parent] at hx

theorem alloc (h : Layout c r low pending shared m A occ) :
    Outcome (allocFrame m) (fun q => Layout c r low pending shared q.2 (q.1 :: A) occ ∧
      Loose {f | f ∈ q.1 :: A} occ q.1 ∧ Fresh r m A q.1 q.2) fun _ => A.length = r.count :=
  (alloc_tree h.owned h.tree).mono fun _ ⟨hO, hT, hloose, hF⟩ =>
    ⟨{ h with owned := hO, tree := hT }, hloose, hF⟩

theorem dealloc (h : Layout c r low pending shared m A occ) {p : ℕ}
    (hp : Loose {f | f ∈ A} occ p) {E : Halt → Prop} :
    Outcome (deallocFrame m p) (fun m' => Layout c r low pending shared m' (A.erase p) occ ∧
      ∀ a, a ≠ p → m'.mem a = m.mem a) E := by
  refine (h.owned.dealloc hp.1).mono fun m' ⟨hO, hF⟩ => ?_
  have hset : {f | f ∈ A.erase p} = {f | f ∈ A} \ {p} := by
    ext f
    simp only [h.owned.nodup.mem_erase_iff, Set.mem_ofPred_eq, Set.mem_sdiff,
      Set.mem_singleton_iff, and_comm]
  have htree : Tree (shape c low pending) m.mem {f | f ∈ A.erase p} occ := by
    rw [hset]
    exact h.tree.shrink hp.2
  refine ⟨{ h with owned := hO, tree := htree.agree fun x y i f hx hy => hF _ ?_ }, hF⟩
  have hi := Role.parent_lt hx
  have hne := hp.ne hy
  obtain ⟨⟨a, rfl⟩, -⟩ := h.tree.frames p hp.1
  obtain ⟨⟨b, rfl⟩, -⟩ := h.aligned hy
  simp only [shape, frameSize] at *
  omega

theorem write (h : Layout c r low pending shared m A occ) {p : ℕ} (hp : p ∈ A)
    (hpage : ∀ x, occ x = some p → ∃ pd i j, x = .data pd i j) {mem' : ℕ → ℕ}
    (heq : ∀ a, a < p ∨ p + frameSize ≤ a → mem' a = m.mem a) :
    Layout c r low pending shared { m with mem := mem' } A occ := by
  have hword : ∀ f i, frameSize ∣ f → f ≠ p → i < 1024 → mem' (f + 4 * i) = m.mem (f + 4 * i) := by
    rintro f i ⟨b, rfl⟩ hne hi
    obtain ⟨⟨a, rfl⟩, -⟩ := h.tree.frames p hp
    refine heq _ ?_
    simp only [frameSize] at *
    omega
  refine h.agree ?_ fun x f i hx hf hi => hword f i (h.aligned hf).1 ?_ hi
  · obtain ⟨fl, k, hH⟩ := h.owned
    refine ⟨fl, k, hH.write fun f hf => ?_⟩
    have hne : f ≠ p := by
      rintro rfl
      exact (List.nodup_append.mp hH.nodup).2.2 f hp f hf rfl
    exact hword f 0 (hH.mem_bounds (List.mem_append_right _ hf)).1 hne (by norm_num)
  · rintro rfl
    obtain ⟨pd, i', j, rfl⟩ := hpage x hf
    exact hx pd i' j rfl

theorem reassign (h : Layout c r low pending shared m A occ) {m' : Machine} {x : Role}
    {o : Option ℕ} (hO : Owned r m' A)
    (htree : Tree (shape c low pending) m'.mem {f | f ∈ A} (Function.update occ x o))
    (hx : x.isPrivate) (hrange : x.InRange ∨ o = none)
    (hdir : ∀ pd f, x = .dir pd → o = some f → f = pd) :
    Layout c r low pending shared m' A (Function.update occ x o) := by
  have hsharedDir : Role.sharedDir ≠ x := by rintro rfl; exact hx
  have hsharedTable : ∀ i, Role.sharedTable i ≠ x := by rintro i rfl; exact hx
  refine ⟨hO, htree, ?_, fun pd f hf => ?_, fun y => ?_, fun i => ?_, fun i hi => ?_⟩
  · rw [Function.update_of_ne hsharedDir]
    exact h.sharedDir
  · by_cases hpd : .dir pd = x
    · rw [hpd, Function.update_self] at hf
      exact hdir pd f hpd.symm hf
    · rw [Function.update_of_ne hpd] at hf
      exact h.dirs pd f hf
  · by_cases hyx : y = x
    · rwa [hyx, Function.update_self]
    · rw [Function.update_of_ne hyx]
      exact h.ranged y
  · rw [Function.update_of_ne (hsharedTable i)]
    exact h.lows i
  · rw [Function.update_of_ne (hsharedTable i)]
    exact h.sharedHigh i hi

theorem store_owned (h : Layout c r low pending shared m A occ) {x y : Role} {i f : ℕ}
    (hx : x.parent = some (y, i)) (hy : occ y = some f) (v : ℕ) :
    Owned r (m.store (f + 4 * i) v) A := by
  have hi := Role.parent_lt hx
  refine h.owned.store (h.tree.held y f hy) (Nat.le_add_right _ _) ?_ v
  simp only [frameSize]
  omega

theorem link (h : Layout c r low pending shared m A occ) {x y : Role} {i f p v : ℕ}
    (hx : x.parent = some (y, i)) (hprivate : x.isPrivate) (hy : occ y = some f)
    (hp : Loose {f | f ∈ A} occ p) (he : entry c low pending x v (some p))
    (hkids : ∀ z j, z.parent = some (x, j) → entry c low pending z (m.mem (p + 4 * j)) (occ z)) :
    Layout c r low pending shared (m.store (f + 4 * i) v) A (Function.update occ x (some p)) := by
  refine h.reassign (h.store_owned hx hy v) (h.tree.link hx hy hp he hkids) hprivate
    (Or.inl (Role.inRange_of_parent hx)) ?_
  rintro pd g rfl
  cases hx

theorem clear (h : Layout c r low pending shared m A occ) {x y : Role} {i f v : ℕ}
    (hx : x.parent = some (y, i)) (hprivate : x.isPrivate) (hy : occ y = some f)
    (he : entry c low pending x v none) :
    Layout c r low pending shared (m.store (f + 4 * i) v) A (Function.update occ x none) :=
  h.reassign (h.store_owned hx hy v) (h.tree.clear hx hy he) hprivate (Or.inr rfl) nofun

theorem forget (h : Layout c r low pending shared m A occ) {x : Role} (hprivate : x.isPrivate)
    (hx : ∀ y i, x.parent = some (y, i) → occ y = none) :
    Layout c r low pending shared m A (Function.update occ x none) :=
  h.reassign h.owned (h.tree.forget hx) hprivate (Or.inr rfl) nofun

theorem plant (h : Layout c r low pending shared m A occ) {pd : ℕ} (hp : Loose {f | f ∈ A} occ pd)
    (hkids : ∀ z j, z.parent = some (.dir pd, j) →
      entry c low pending z (m.mem (pd + 4 * j)) (occ z)) :
    Layout c r low pending shared m A (Function.update occ (.dir pd) (some pd)) := by
  refine h.reassign h.owned (h.tree.plant rfl hp hkids) trivial (Or.inl trivial)
    fun q f hq hf => ?_
  cases hq
  cases hf
  rfl

end Layout

end OsShell.Vmm
