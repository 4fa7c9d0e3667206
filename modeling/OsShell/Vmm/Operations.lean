import OsShell.Vmm.Layout

/-!
# What the operations do to the layout

Each operation of the memory manager takes a layout to a layout. The loops
carry the layout as their invariant, together with what the slots and entries
before the counter hold already.
-/

namespace OsShell.Vmm

open PhysMem Stopping FrameTree

def Within (f a : ℕ) : Prop := f ≤ a ∧ a < f + frameSize

theorem within_cell (f : ℕ) {i : ℕ} (hi : i < 1024) : Within f (f + 4 * i) := by
  simp only [Within, frameSize]
  omega

theorem within_unique {f g a : ℕ} (hf : frameSize ∣ f) (hg : frameSize ∣ g) (hfa : Within f a)
    (hga : Within g a) : f = g := by
  obtain ⟨i, rfl⟩ := hf
  obtain ⟨j, rfl⟩ := hg
  simp only [Within, frameSize] at *
  omega

def Kept (m m' : Machine) (A : List ℕ) : Prop :=
  ∀ f ∈ A, ∀ a, Within f a → m'.mem a = m.mem a

theorem Kept.trans {m₁ m₂ m₃ : Machine} {A : List ℕ} (h₁ : Kept m₁ m₂ A) (h₂ : Kept m₂ m₃ A) :
    Kept m₁ m₃ A :=
  fun f hf a ha => (h₂ f hf a ha).trans (h₁ f hf a ha)

def KeptOutside (r : Pool) (m m' : Machine) : Prop :=
  ∀ a, r.start + frameSize * r.count ≤ a → m'.mem a = m.mem a

theorem KeptOutside.trans {r : Pool} {m₁ m₂ m₃ : Machine} (h₁ : KeptOutside r m₁ m₂)
    (h₂ : KeptOutside r m₂ m₃) : KeptOutside r m₁ m₃ :=
  fun a ha => (h₂ a ha).trans (h₁ a ha)

def Role.owner : Role → Option ℕ
  | .sharedDir => none
  | .sharedTable _ => none
  | .dir pd => some pd
  | .alias pd _ => some pd
  | .table pd _ => some pd
  | .data pd _ _ => some pd

/-- Between operations nothing hangs in the air, and every address space has its APIC tables. -/
structure Closed (c : Config) (occ : Role → Option ℕ) : Prop where
  tables : ∀ pd i, occ (.dir pd) = none → occ (.table pd i) = none
  pages : ∀ pd i j, occ (.table pd i) = none → occ (.data pd i j) = none
  apics : ∀ pd i, occ (.dir pd) ≠ none → apicSlot c i → occ (.table pd i) ≠ none

theorem word_present {flags : ℕ} {o : Option ℕ} (hflags : flags = 3 ∨ flags = 7)
    (ho : ∀ f, o = some f → frameSize ∣ f ∧ f < 2 ^ 32) :
    (o = none ∧ word flags o &&& 1 = 0) ∨
      ∃ f, o = some f ∧ word flags o &&& 1 = 1 ∧ word flags o &&& 0xFFFFF000 = f := by
  cases o with
  | none => exact Or.inl ⟨rfl, Nat.zero_and 1⟩
  | some f =>
    obtain ⟨hf, hlt⟩ := ho f rfl
    exact Or.inr ⟨f, rfl, or_flags_present hf hflags, or_flags_frame hf hlt hflags⟩

namespace Layout

variable {c : Config} {r : Pool} {low : ℕ → ℕ} {pending : Set (ℕ × ℕ)} {shared : ℕ}
  {m : Machine} {A : List ℕ} {occ : Role → Option ℕ} {pd i j t : ℕ}

theorem read_slot (h : Layout c r low pending shared m A occ) (hpd : occ (.dir pd) = some pd)
    (hi : 512 ≤ i ∧ i < 1024) :
    (occ (.table pd i) = none ∧ m.mem (pd + 4 * i) &&& 1 = 0) ∨
      ∃ t, occ (.table pd i) = some t ∧ m.mem (pd + 4 * i) &&& 1 = 1 ∧
        m.mem (pd + 4 * i) &&& 0xFFFFF000 = t := by
  have he : m.mem (pd + 4 * i) = word (tableFlags c i) (occ (.table pd i)) :=
    h.tree.entry (.table pd i) (.dir pd) i pd (if_pos hi) hpd
  rw [he]
  exact word_present (tableFlags_cases c i) fun f hf => h.aligned hf

theorem read_page (h : Layout c r low pending shared m A occ) (ht : occ (.table pd i) = some t)
    (hj : j < 1024) (hs : ¬ isSpecial c (pageVa i j)) :
    (occ (.data pd i j) = none ∧ m.mem (t + 4 * j) &&& 1 = 0) ∨
      ∃ f, occ (.data pd i j) = some f ∧ m.mem (t + 4 * j) &&& 1 = 1 ∧
        m.mem (t + 4 * j) &&& 0xFFFFF000 = f := by
  have he := h.tree.entry (.data pd i j) (.table pd i) j t (if_pos hj) ht
  rcases he with ⟨he, -⟩ | ⟨-, hs', -⟩
  · have heq : m.mem (t + 4 * j) = word (kernelFlags c (pageVa i j)) (occ (.data pd i j)) := he
    rw [heq]
    exact word_present (kernelFlags_cases c _) fun f hf => h.aligned hf
  · exact absurd hs' hs

theorem not_within (h : Layout c r low pending shared m A occ) {f a : ℕ} (hf : f ∈ A)
    (ha : r.start + frameSize * r.count ≤ a) : ¬ Within f a := by
  have hbounds := h.owned.mem_bounds hf
  simp only [Within]
  omega

theorem settle (h : Layout c r low pending shared m A occ) (hj : j < 1024)
    (ht : occ (.table pd i) = some t) (ho : occ (.data pd i j) = none)
    (hs : isSpecial c (pageVa i j)) (he : m.mem (t + 4 * j) = pageVa i j ||| 3) :
    Layout c r low (pending \ {(pd, pageVa i j)}) shared m A occ := by
  refine { h with tree := { h.tree with entry := fun x y k f hx hy => ?_ } }
  have hold := h.tree.entry x y k f hx hy
  cases x with
  | data q i' j' =>
    simp only [shape, Role.parent, Option.ite_none_right_eq_some, Option.some.injEq,
      Prod.mk.injEq] at hx
    obtain ⟨hj', rfl, rfl⟩ := hx
    by_cases hsame : q = pd ∧ pageVa i' j' = pageVa i j
    · obtain ⟨rfl, hva⟩ := hsame
      obtain ⟨rfl, rfl⟩ := pageVa_inj hj' hj hva
      rw [ht] at hy
      cases hy
      exact Or.inr ⟨ho, hs, he⟩
    · rcases hold with ⟨he', hp⟩ | hid
      · refine Or.inl ⟨he', fun ho' hs' => ⟨hp ho' hs', fun heq => hsame ?_⟩⟩
        simpa using heq
      · exact Or.inr hid
  | _ => exact hold

end Layout

/-- What `map` leaves behind: the table in slot `i` of `pd` is `t`, and entry `j` of it holds the
page `o`. -/
structure Mapped (c : Config) (r : Pool) (low : ℕ → ℕ) (pending : Set (ℕ × ℕ)) (shared : ℕ)
    (m : Machine) (A : List ℕ) (occ : Role → Option ℕ) (pd i j v : ℕ) (o : Option ℕ)
    (m' : Machine) (A' : List ℕ) (occ' : Role → Option ℕ) (t : ℕ) : Prop where
  layout : Layout c r low pending shared m' A' occ'
  table : occ' (.table pd i) = some t
  data : occ' (.data pd i j) = o
  others : ∀ x, x ≠ .table pd i → x ≠ .data pd i j → occ' x = occ x
  held : occ (.table pd i) = some t ∧ A' = A ∨ occ (.table pd i) = none ∧ A' = t :: A ∧ t ∉ A
  entry : m'.mem (t + 4 * j) = v
  frame : ∀ a, ¬ Within pd a → ¬ Within t a → m'.mem a = m.mem a

section Map

variable {c : Config} {r : Pool} {low : ℕ → ℕ} {pending : Set (ℕ × ℕ)} {shared : ℕ}
  {m : Machine} {A : List ℕ} {occ : Role → Option ℕ} {pd i j t : ℕ}

theorem newTable_spec (h : Layout c r low pending shared m A occ) (hpd : occ (.dir pd) = some pd)
    (hi : 512 ≤ i ∧ i < 1024) (hnone : occ (.table pd i) = none)
    (hempty : ∀ j, occ (.data pd i j) = none)
    (hpending : ∀ j < 1024, isSpecial c (pageVa i j) → (pd, pageVa i j) ∈ pending) :
    Outcome (allocFrame m) (fun q =>
      Layout c r low pending shared (q.2.store (pd + 4 * i) (q.1 ||| tableFlags c i)) (q.1 :: A)
        (Function.update occ (.table pd i) (some q.1)) ∧ q.1 ∉ A ∧
      ∀ a, ¬ Within q.1 a → q.2.mem a = m.mem a) fun _ => A.length = r.count := by
  refine h.alloc.mono fun ⟨t, m'⟩ ⟨hL, hloose, hF⟩ => ⟨?_, hF.fresh, fun a ha => hF.frame a ?_⟩
  · refine hL.link (if_pos hi) trivial hpd hloose rfl fun z j hz => ?_
    cases z with
    | data q i' j' =>
      simp only [Role.parent, Option.ite_none_right_eq_some, Option.some.injEq,
        Prod.mk.injEq, Role.table.injEq] at hz
      obtain ⟨hj, ⟨rfl, rfl⟩, rfl⟩ := hz
      refine Or.inl ⟨?_, fun _ hs => hpending j' hj hs⟩
      have hz := within_cell t hj
      rw [hempty, hF.zero _ hz.1 hz.2]
      rfl
    | _ => simp [Role.parent] at hz
  · simp only [Within] at ha
    omega

/-- The page that `map` is asked for: a frame in no role yet, or the page of an APIC. -/
def Page (c : Config) (A : List ℕ) (occ : Role → Option ℕ) (va pa : ℕ) (o : Option ℕ) : Prop :=
  o = some pa ∧ Loose {f | f ∈ A} occ pa ∨ o = none ∧ pa = va ∧ isSpecial c va

theorem setPage_spec (h : Layout c r low pending shared m A occ)
    (ht : occ (.table pd i) = some t) (hj : j < 1024) {pa : ℕ} {o : Option ℕ}
    (hpa : Page c A occ (pageVa i j) pa o) :
    Layout c r low pending shared (m.store (t + 4 * j) (pa ||| kernelFlags c (pageVa i j))) A
      (Function.update occ (.data pd i j) o) := by
  have hparent : (Role.data pd i j).parent = some (.table pd i, j) := if_pos hj
  rcases hpa with ⟨rfl, hloose⟩ | ⟨rfl, rfl, hs⟩
  · refine h.link hparent trivial ht hloose (Or.inl ⟨rfl, nofun⟩) fun z k hz => ?_
    cases z <;> simp [Role.parent] at hz
  · refine h.clear hparent trivial ht (Or.inr ⟨rfl, hs, ?_⟩)
    rw [kernelFlags_eq, if_pos hs]

theorem Page.newTable {va pa : ℕ} {o : Option ℕ} (hpa : Page c A occ va pa o) (ht : t ∉ A) :
    Page c (t :: A) (Function.update occ (.table pd i) (some t)) va pa o := by
  rcases hpa with ⟨rfl, hloose⟩ | hid
  · have hpaA : pa ∈ A := hloose.1
    refine Or.inl ⟨rfl, List.mem_cons_of_mem t hpaA, fun x hx => ?_⟩
    by_cases hxt : x = .table pd i
    · rw [hxt, Function.update_self] at hx
      cases hx
      exact ht hpaA
    · rw [Function.update_of_ne hxt] at hx
      exact hloose.2 x hx
  · exact Or.inr hid

/-- A slot without a table gets one by its first page, which then has the flags of the slot. -/
def FirstPage (c : Config) (pending : Set (ℕ × ℕ)) (occ : Role → Option ℕ) (pd i va : ℕ) : Prop :=
  occ (.table pd i) = none → (∀ j, occ (.data pd i j) = none) ∧
    kernelFlags c va = tableFlags c i ∧
    ∀ j < 1024, isSpecial c (pageVa i j) → (pd, pageVa i j) ∈ pending

theorem map_spec (h : Layout c r low pending shared m A occ) (hpd : occ (.dir pd) = some pd)
    {va pa : ℕ} {o : Option ℕ} (hva : frameSize ∣ va) (hlo : 0x80000000 ≤ va) (hhi : va < 2 ^ 32)
    (hfirst : FirstPage c pending occ pd (va >>> 22) va) (hpa : Page c A occ va pa o) :
    Outcome (map c pd va pa m) (fun m' => ∃ A' occ' t, Mapped c r low pending shared m A occ pd
        (va >>> 22) ((va >>> 12) &&& 0x3FF) (pa ||| kernelFlags c va) o m' A' occ' t)
      fun _ => A.length = r.count ∧ occ (.table pd (va >>> 22)) = none := by
  have hi : 512 ≤ va >>> 22 ∧ va >>> 22 < 1024 := ⟨slot_private hlo, slot_lt hhi⟩
  have hj := index_lt va
  have hsplit := pageVa_split hva
  simp only [map]
  generalize va >>> 22 = i at *
  generalize (va >>> 12) &&& 0x3FF = j at *
  subst hsplit
  rcases h.read_slot hpd hi with ⟨hnone, hpde⟩ | ⟨t, ht, hpde, hframe⟩
  · obtain ⟨hempty, hflags, hpending⟩ := hfirst hnone
    have hnew := newTable_spec h hpd hi hnone hempty hpending
    rw [← hflags] at hnew
    rw [if_pos hpde]
    refine .bind (hnew.weaken ?_ fun _ he => ⟨he, hnone⟩)
    rintro ⟨t, m₁⟩ ⟨hL, htA, hfr⟩
    have htable : Function.update occ (.table pd i) (some t) (.table pd i) = some t :=
      Function.update_self ..
    have haddr := or_flags_frame (hL.aligned htable).1 (hL.aligned htable).2
      (kernelFlags_cases c (pageVa i j))
    refine Outcome.ok ⟨t :: A,
      Function.update (Function.update occ (.table pd i) (some t)) (.data pd i j) o, t, ?_⟩
    simp only [haddr]
    refine ⟨setPage_spec hL htable hj (hpa.newTable htA), ?_, Function.update_self .., ?_,
      Or.inr ⟨hnone, rfl, htA⟩, Function.update_self .., ?_⟩
    · rw [Function.update_of_ne (by simp)]
      exact htable
    · intro x hxt hxd
      rw [Function.update_of_ne hxd, Function.update_of_ne hxt]
    · intro a hap hat
      have h₁ : a ≠ t + 4 * j := fun heq => hat (heq ▸ within_cell t hj)
      have h₂ : a ≠ pd + 4 * i := fun heq => hap (heq ▸ within_cell pd hi.2)
      simp only [store_mem, Function.update_of_ne h₁, Function.update_of_ne h₂]
      exact hfr a hat
  · have hpde' : m.mem (pd + 4 * i) &&& 1 ≠ 0 := by omega
    rw [if_neg hpde']
    refine Outcome.ok ⟨A, Function.update occ (.data pd i j) o, t, ?_⟩
    simp only [hframe]
    refine ⟨setPage_spec h ht hj hpa, ?_, Function.update_self .., ?_, Or.inl ⟨ht, rfl⟩,
      Function.update_self .., ?_⟩
    · rw [Function.update_of_ne (by simp)]
      exact ht
    · intro x hxt hxd
      exact Function.update_of_ne hxd _ _
    · intro a hap hat
      exact Function.update_of_ne (fun heq => hat (by rw [heq]; exact within_cell t hj)) _ _

end Map

variable {c : Config} {r : Pool} {low : ℕ → ℕ} {pending : Set (ℕ × ℕ)} {shared : ℕ}
  {m : Machine} {A A₀ : List ℕ} {occ : Role → Option ℕ} {pd : ℕ}

theorem Layout.mono (h : Layout c r low pending shared m A occ) {pending' : Set (ℕ × ℕ)}
    (hsub : pending ⊆ pending') : Layout c r low pending' shared m A occ := by
  refine { h with tree := { h.tree with entry := fun x y i f hx hy => ?_ } }
  have hold := h.tree.entry x y i f hx hy
  cases x with
  | data q i' j' =>
    rcases hold with ⟨he, hp⟩ | hid
    · exact Or.inl ⟨he, fun ho hs => hsub (hp ho hs)⟩
    · exact Or.inr hid
  | _ => exact hold

/-- The state of an address space under construction: the frames of `A₀` were held before. -/
structure Making (c : Config) (r : Pool) (low : ℕ → ℕ) (pending : Set (ℕ × ℕ)) (shared : ℕ)
    (A₀ : List ℕ) (m : Machine) (A : List ℕ) (occ : Role → Option ℕ) (pd : ℕ) : Prop where
  layout : Layout c r low pending shared m A occ
  dir : occ (.dir pd) = some pd
  bare : ∀ i j, occ (.data pd i j) = none
  subset : ∀ f ∈ A₀, f ∈ A
  newDir : pd ∉ A₀
  newTable : ∀ i t, occ (.table pd i) = some t → t ∉ A₀
  pend : ∀ i j, 512 ≤ i → j < 1024 → isSpecial c (pageVa i j) → occ (.table pd i) = none →
    (pd, pageVa i j) ∈ pending

theorem mapApic_spec (V : Valid c r) (h : Making c r low pending shared A₀ m A occ pd) {va : ℕ}
    (hapic : va = c.ioAPIC ∨ va = c.localAPIC) :
    Outcome (map c pd va va m) (fun m' => ∃ A' occ',
        Making c r low (pending \ {(pd, va)}) shared A₀ m' A' occ' pd ∧ Kept m m' A₀ ∧
        KeptOutside r m m' ∧
        occ' (.table pd (va >>> 22)) ≠ none ∧
        (∀ x, x ≠ .table pd (va >>> 22) → occ' x = occ x) ∧
        A'.length = A.length + if occ (.table pd (va >>> 22)) = none then 1 else 0)
      fun _ => A.length = r.count ∧ occ (.table pd (va >>> 22)) = none := by
  have hva : frameSize ∣ va := by
    rcases hapic with rfl | rfl
    exacts [V.ioAligned, V.localAligned]
  have hlo : 0x80000000 ≤ va := by
    rcases hapic with rfl | rfl
    exacts [V.ioPrivate, V.localPrivate]
  have hhi : va < 2 ^ 32 := by
    rcases hapic with rfl | rfl
    exacts [V.ioWord, V.localWord]
  have hs : isSpecial c va := Or.inr hapic
  have hslot : apicSlot c (va >>> 22) := by
    rcases hapic with rfl | rfl
    exacts [Or.inl rfl, Or.inr rfl]
  have hfirst : FirstPage c pending occ pd (va >>> 22) va := fun hnone =>
    ⟨h.bare _, by rw [kernelFlags_eq, if_pos hs, tableFlags, if_pos hslot],
      fun j hj hsj => h.pend _ j (slot_private hlo) hj hsj hnone⟩
  refine (map_spec h.layout h.dir hva hlo hhi hfirst (Or.inr ⟨rfl, rfl, hs⟩)).mono ?_
  rintro m' ⟨A', occ', t, M⟩
  have hj := index_lt va
  have hsplit := pageVa_split hva
  have hothers : ∀ x, x ≠ .table pd (va >>> 22) → occ' x = occ x := by
    intro x hx
    by_cases hd : x = .data pd (va >>> 22) ((va >>> 12) &&& 0x3FF)
    · rw [hd, M.data, h.bare]
    · exact M.others x hx hd
  have htnew : t ∉ A₀ := by
    rcases M.held with ⟨ht, -⟩ | ⟨-, -, htA⟩
    · exact h.newTable _ t ht
    · exact fun ht => htA (h.subset t ht)
  have hsub : ∀ f ∈ A, f ∈ A' := by
    rcases M.held with ⟨-, rfl⟩ | ⟨-, rfl, -⟩
    · exact fun f hf => hf
    · exact fun f hf => List.mem_cons_of_mem t hf
  have hsettled : Layout c r low (pending \ {(pd, va)}) shared m' A' occ' := by
    have hset := M.layout.settle hj M.table M.data (by rwa [hsplit])
      (by rw [M.entry, hsplit, kernelFlags_eq, if_pos hs])
    rwa [hsplit] at hset
  refine ⟨A', occ', ⟨hsettled, ?_, fun i j => ?_, fun f hf => hsub f (h.subset f hf), h.newDir,
    fun i t' ht' => ?_, fun i j hi hj' hsij hnone => ?_⟩, fun f hf a ha => ?_, fun a ha => ?_, ?_, hothers, ?_⟩
  · rw [hothers _ (by simp)]
    exact h.dir
  · rw [hothers _ (by simp)]
    exact h.bare i j
  · by_cases hi : i = va >>> 22
    · rw [hi, M.table] at ht'
      cases ht'
      exact htnew
    · rw [hothers _ (by simpa using hi)] at ht'
      exact h.newTable i t' ht'
  · by_cases hi' : i = va >>> 22
    · rw [hi', M.table] at hnone
      cases hnone
    · rw [hothers _ (by simpa using hi')] at hnone
      refine ⟨h.pend i j hi hj' hsij hnone, fun heq => hi' ?_⟩
      have hva' : pageVa i j = va := by simpa using heq
      rw [← hva', pageVa_slot hj']
  · have hf' := (M.layout.tree.frames f (hsub f (h.subset f hf))).1
    refine M.frame a (fun hpa => h.newDir ?_) fun hta => htnew ?_
    · rwa [within_unique (h.layout.aligned h.dir).1 hf' hpa ha]
    · rwa [within_unique (M.layout.aligned M.table).1 hf' hta ha]
  · exact M.frame a (h.layout.not_within (h.layout.tree.held _ pd h.dir) ha)
      (M.layout.not_within (M.layout.tree.held _ t M.table) ha)
  · simp [M.table]
  · rcases M.held with ⟨ht, rfl⟩ | ⟨ht, rfl, -⟩
    · simp [ht]
    · simp [ht]

theorem sharedSlots_le (V : Valid c r) : sharedSlots c ≤ 512 := by
  have := V.memSize
  simp only [sharedSlots]
  omega

theorem memcpy_slot (V : Valid c r) (h : Layout c r low pending shared m A occ)
    (hzero : ∀ a, Within pd a → m.mem a = 0) {j : ℕ} (hj : j < 1024) :
    memcpy m.mem pd shared (4 * sharedSlots c) (pd + 4 * j) = if j < 512 then low j else 0 := by
  have hslots := sharedSlots_le V
  have hentry : m.mem (shared + 4 * j) = word 3 (occ (.sharedTable j)) :=
    h.tree.entry (.sharedTable j) .sharedDir j shared (if_pos hj) h.sharedDir
  by_cases hlt : j < sharedSlots c
  · rw [memcpy, if_pos (by omega), if_pos (by omega), Nat.add_sub_cancel_left, hentry, h.lows]
  · rw [memcpy, if_neg (by omega), hzero _ (within_cell pd hj)]
    split
    · rw [h.lows, h.sharedHigh j (by omega)]
      rfl
    · rfl

/-- The frames that `makePd` takes: a directory and the tables of the APICs. -/
def makePdFrames (c : Config) : ℕ := if c.ioAPIC >>> 22 = c.localAPIC >>> 22 then 2 else 3

structure NewSpace (c : Config) (r : Pool) (low : ℕ → ℕ) (shared : ℕ) (m : Machine) (A : List ℕ)
    (occ : Role → Option ℕ) (pd : ℕ) (m' : Machine) (A' : List ℕ) (occ' : Role → Option ℕ) :
    Prop where
  layout : Layout c r low ∅ shared m' A' occ'
  closed : Closed c occ'
  fresh : pd ∉ A
  dir : occ' (.dir pd) = some pd
  bare : ∀ i j, occ' (.data pd i j) = none
  tables : ∀ i, occ' (.table pd i) = none ↔ ¬ apicSlot c i
  newTables : ∀ i t, occ' (.table pd i) = some t → t ∉ A
  others : ∀ x : Role, x.owner ≠ some pd → occ' x = occ x
  subset : ∀ f ∈ A, f ∈ A'
  kept : Kept m m' A
  outside : KeptOutside r m m'
  length : A'.length = A.length + makePdFrames c

theorem newDir_spec (V : Valid c r) (h : Layout c r low ∅ shared m A occ) (C : Closed c occ) :
    Outcome (allocFrame m) (fun q =>
      Making c r low {(q.1, c.ioAPIC), (q.1, c.localAPIC)} shared A
        { q.2 with mem := memcpy q.2.mem q.1 shared (4 * sharedSlots c) } (q.1 :: A)
        (Function.update occ (.dir q.1) (some q.1)) q.1 ∧
      (∀ i, occ (.table q.1 i) = none) ∧
      Kept m { q.2 with mem := memcpy q.2.mem q.1 shared (4 * sharedSlots c) } A ∧
      KeptOutside r m { q.2 with mem := memcpy q.2.mem q.1 shared (4 * sharedSlots c) })
      fun _ => A.length = r.count := by
  have hslots := sharedSlots_le V
  refine h.alloc.mono fun ⟨pd, m₁⟩ ⟨hL, hloose, hF⟩ => ?_
  have hzero : ∀ a, Within pd a → m₁.mem a = 0 := fun a ha => hF.zero a ha.1 ha.2
  have hnodir : occ (.dir pd) = none := by
    by_contra hne
    obtain ⟨f, hf⟩ := Option.ne_none_iff_exists'.mp hne
    exact hloose.2 _ (h.dirs pd f hf ▸ hf)
  have hnotable := fun i => C.tables pd i hnodir
  have hnodata := fun i j => C.pages pd i j (hnotable i)
  have hcopy : Layout c r low ∅ shared
      { m₁ with mem := memcpy m₁.mem pd shared (4 * sharedSlots c) } (pd :: A) occ := by
    refine hL.write List.mem_cons_self (fun x hx => absurd hx (hloose.2 x)) fun a ha => if_neg ?_
    simp only [frameSize] at ha
    omega
  have hsame : ∀ a, ¬ Within pd a → memcpy m₁.mem pd shared (4 * sharedSlots c) a = m.mem a := by
    intro a ha
    have hout : a < pd ∨ pd + frameSize ≤ a := by
      simp only [Within] at ha
      omega
    refine (if_neg ?_).trans (hF.frame a hout)
    simp only [frameSize] at hout
    omega
  refine ⟨⟨(hcopy.mono (Set.empty_subset _)).plant hloose fun z j hz => ?_,
    Function.update_self .., fun i j => ?_, fun f hf => List.mem_cons_of_mem pd hf, hF.fresh,
    fun i t ht => ?_, fun i j hi hj hs _ => ?_⟩, hnotable, fun f hf a ha => hsame a ?_,
    fun a ha => hsame a (hL.not_within List.mem_cons_self ha)⟩
  · have hj := Role.parent_lt hz
    have hslot := memcpy_slot V hL hzero hj
    cases z with
    | «alias» q i =>
      simp only [Role.parent, Option.ite_none_right_eq_some, Option.some.injEq, Prod.mk.injEq,
        Role.dir.injEq] at hz
      obtain ⟨hi, rfl, rfl⟩ := hz
      exact hslot.trans (if_pos hi)
    | table q i =>
      simp only [Role.parent, Option.ite_none_right_eq_some, Option.some.injEq, Prod.mk.injEq,
        Role.dir.injEq] at hz
      obtain ⟨hi, rfl, rfl⟩ := hz
      refine (hslot.trans (if_neg (by omega))).trans ?_
      rw [hnotable]
      rfl
    | _ => simp [Role.parent] at hz
  · rw [Function.update_of_ne (by simp)]
    exact hnodata i j
  · rw [Function.update_of_ne (by simp), hnotable] at ht
    cases ht
  · rcases (special_private hi hj).mp hs with hva | hva <;> simp [hva]
  · have hpd := (hL.tree.frames pd List.mem_cons_self).1
    exact fun hpa =>
      hF.fresh (within_unique hpd (hL.tree.frames f (List.mem_cons_of_mem pd hf)).1 hpa ha ▸ hf)

theorem makePd_spec (V : Valid c r) (h : Layout c r low ∅ shared m A occ) (C : Closed c occ) :
    Outcome (makePd c shared m)
      (fun q => ∃ A' occ', NewSpace c r low shared m A occ q.1 q.2 A' occ')
      fun _ => r.count < A.length + makePdFrames c := by
  have hfr : 2 ≤ makePdFrames c := by
    rw [makePdFrames]
    split <;> omega
  refine .bind ((newDir_spec V h C).weaken ?_ fun _ he => by omega)
  rintro ⟨pd, m₁⟩ ⟨hM₁, hnone, hkept₁, hout₁⟩
  refine .bind ((mapApic_spec V hM₁ (Or.inl rfl)).weaken ?_ ?_)
  swap
  · rintro _ ⟨hlen, -⟩
    rw [List.length_cons] at hlen
    omega
  rintro m₂ ⟨A₂, occ₂, hM₂, hkept₂, hout₂, hio, hothers₂, hlen₂⟩
  have htab₁ : ∀ i, Function.update occ (.dir pd) (some pd) (.table pd i) = none := fun i => by
    rw [Function.update_of_ne (by simp), hnone]
  rw [htab₁, if_pos rfl, List.length_cons] at hlen₂
  refine .bind ((mapApic_spec V hM₂ (Or.inr rfl)).weaken ?_ ?_)
  swap
  · rintro _ ⟨hlen, hno⟩
    have hne : c.ioAPIC >>> 22 ≠ c.localAPIC >>> 22 := fun heq => hio (heq ▸ hno)
    rw [makePdFrames, if_neg hne]
    omega
  rintro m₃ ⟨A₃, occ₃, hM₃, hkept₃, hout₃, hlocal, hothers₃, hlen₃⟩
  have hothers : ∀ x, x ≠ .dir pd → x ≠ .table pd (c.ioAPIC >>> 22) →
      x ≠ .table pd (c.localAPIC >>> 22) → occ₃ x = occ x := fun x hd hi hl => by
    rw [hothers₃ x hl, hothers₂ x hi, Function.update_of_ne hd]
  have htables : ∀ i, occ₃ (.table pd i) = none ↔ ¬ apicSlot c i := by
    intro i
    constructor
    · rintro hn (rfl | rfl)
      · by_cases heq : Role.table pd (c.ioAPIC >>> 22) = .table pd (c.localAPIC >>> 22)
        · exact hlocal (heq ▸ hn)
        · exact hio ((hothers₃ _ heq).symm.trans hn)
      · exact hlocal hn
    · intro hn
      simp only [apicSlot, not_or] at hn
      rw [hothers _ (by simp) (by simpa using Ne.symm hn.1) (by simpa using Ne.symm hn.2), hnone]
  have howner : ∀ x : Role, x.owner ≠ some pd → occ₃ x = occ x := by
    intro x hx
    refine hothers x ?_ ?_ ?_ <;> rintro rfl <;> exact hx rfl
  refine .ok ⟨A₃, occ₃, hM₃.layout.mono ?_, ⟨fun q i hq => ?_, fun q i j hq => ?_,
    fun q i hq hi => ?_⟩, hM₃.newDir, hM₃.dir, hM₃.bare, htables, hM₃.newTable, howner,
    hM₃.subset, (hkept₁.trans hkept₂).trans hkept₃, (hout₁.trans hout₂).trans hout₃, ?_⟩
  · rintro ⟨q, va⟩ ⟨⟨hmem, hnio⟩, hnl⟩
    rcases hmem with hmem | hmem
    · exact absurd hmem hnio
    · exact absurd hmem hnl
  · by_cases hqp : q = pd
    · rw [hqp, hM₃.dir] at hq
      cases hq
    · rw [howner _ (by simpa [Role.owner] using hqp)] at hq ⊢
      exact C.tables q i hq
  · by_cases hqp : q = pd
    · rw [hqp]
      exact hM₃.bare i j
    · rw [howner _ (by simpa [Role.owner] using hqp)] at hq ⊢
      exact C.pages q i j hq
  · by_cases hqp : q = pd
    · rw [hqp]
      exact fun hn => (htables i).mp hn hi
    · rw [howner _ (by simpa [Role.owner] using hqp)] at hq ⊢
      exact C.apics q i hq hi
  · rw [hlen₃, hlen₂, makePdFrames]
    by_cases heq : c.ioAPIC >>> 22 = c.localAPIC >>> 22
    · rw [if_pos heq, ← heq, if_neg hio]
    · rw [if_neg heq, hothers₂ _ (by simpa using Ne.symm heq), htab₁, if_pos rfl]

end OsShell.Vmm
