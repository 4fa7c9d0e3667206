import OsShell.Vmm.Deletion
import OsShell.PhysMem.Free

/-!
# What the two walks free

`deletePrivate` and `deletePd` find the frames that they free while they free
them. What they pass to `deallocFrame` is known beforehand: it is the list of
words below that name a frame, as they are when the walk begins.
-/

namespace OsShell.Vmm

open PhysMem Stopping FrameTree

/-- An entry that names a page of the process: where it is, and the page. -/
def pageWord (c : Config) (pdi pt : ℕ) (m : Machine) (pti : ℕ) : List (ℕ × ℕ) :=
  if isSpecial c (pageVa pdi pti) ∨ m.mem (pt + 4 * pti) &&& 1 = 0 then []
  else [(pt + 4 * pti, m.mem (pt + 4 * pti) &&& 0xFFFFF000)]

def pageWords (c : Config) (pdi pt : ℕ) (m : Machine) : List (ℕ × ℕ) :=
  (List.range' 0 1024).flatMap (pageWord c pdi pt m)

/-- The same for one slot of a directory, whose table goes last unless it is kept. -/
def slotWords (c : Config) (keep : ℕ → Bool) (pd : ℕ) (m : Machine) (pdi : ℕ) : List (ℕ × ℕ) :=
  let pde := m.mem (pd + 4 * pdi)
  if pde &&& 1 = 0 then []
  else
    pageWords c pdi (pde &&& 0xFFFFF000) m ++
      if keep pdi then [] else [(pd + 4 * pdi, pde &&& 0xFFFFF000)]

def privateWords (c : Config) (keep : ℕ → Bool) (pd : ℕ) (m : Machine) : List (ℕ × ℕ) :=
  (List.range' 512 512).flatMap (slotWords c keep pd m)

/-- `deletePrivate` keeps the tables of these slots. -/
def containsSpecial (c : Config) (pdi : ℕ) : Bool :=
  (List.range' 0 1024).any fun pti => isSpecial c (pageVa pdi pti)

def deletePrivateFrames (c : Config) (pd : ℕ) (m : Machine) : List ℕ :=
  (privateWords c (containsSpecial c) pd m).map Prod.snd

def deletePdFrames (c : Config) (pd : ℕ) (m : Machine) : List ℕ :=
  (privateWords c (fun _ => false) pd m).map Prod.snd ++ [pd]

def clearWord (m : Machine) (w : ℕ × ℕ) : Except Halt Machine :=
  deallocFrame (m.store w.1 0) w.2

/-! ## The walks as lists of calls -/

theorem dealloc_mem {m m' : Machine} {f a : ℕ} (h : deallocFrame m f = .ok m') (ha : a ≠ f) :
    m'.mem a = m.mem a := by
  simp only [deallocFrame, assert] at h
  split at h
  case isFalse => cases h
  case isTrue =>
    cases h
    exact Function.update_of_ne ha _ _

theorem foldlM_dealloc_mem {fs : List ℕ} {m m' : Machine} {a : ℕ}
    (h : fs.foldlM deallocFrame m = .ok m') (ha : a ∉ fs) : m'.mem a = m.mem a := by
  induction fs generalizing m with
  | nil =>
    cases h
    rfl
  | cons f fs ih =>
    rw [List.foldlM_cons] at h
    cases hf : deallocFrame m f with
    | error e =>
      rw [hf] at h
      cases h
    | ok m₁ =>
      rw [hf] at h
      rw [ih h (List.not_mem_of_not_mem_cons ha), dealloc_mem hf (List.ne_of_not_mem_cons ha)]

theorem foldlM_clear_mem {ws : List (ℕ × ℕ)} {m m' : Machine} {a : ℕ}
    (h : ws.foldlM clearWord m = .ok m') (hw : a ∉ ws.map Prod.fst) (hf : a ∉ ws.map Prod.snd) :
    m'.mem a = m.mem a := by
  induction ws generalizing m with
  | nil =>
    cases h
    rfl
  | cons w ws ih =>
    rw [List.map_cons, List.mem_cons, not_or] at hw hf
    rw [List.foldlM_cons] at h
    cases hm : clearWord m w with
    | error e =>
      rw [hm] at h
      cases h
    | ok m₁ =>
      rw [hm] at h
      rw [ih h hw.2 hf.2, dealloc_mem hm hf.1]
      exact Function.update_of_ne hw.1 _ _

theorem frame_aligned (e : ℕ) : frameSize ∣ e &&& 0xFFFFF000 := Words.dvd_and_high 12 (2 ^ 20 - 1) e

section

variable {c : Config} {m m' : Machine} {pdi pt pti : ℕ} {w : ℕ × ℕ}

theorem mem_pageWord (hw : w ∈ pageWord c pdi pt m pti) :
    w.1 = pt + 4 * pti ∧ frameSize ∣ w.2 := by
  rw [pageWord] at hw
  split at hw
  · cases hw
  · obtain rfl := List.mem_singleton.mp hw
    exact ⟨rfl, frame_aligned _⟩

theorem entry_ne_frame {f : ℕ} (hpt : frameSize ∣ pt) (hf : frameSize ∣ f) (h₀ : 0 < pti)
    (h : pti < 1024) : pt + 4 * pti ≠ f := by
  obtain ⟨a, rfl⟩ := hpt
  obtain ⟨b, rfl⟩ := hf
  simp only [frameSize]
  omega

theorem deletePages_eq (hpt : frameSize ∣ pt) :
    deletePages c pdi pt m = ((pageWords c pdi pt m).map Prod.snd).foldlM deallocFrame m := by
  rw [pageWords, List.map_flatMap]
  refine forRange_eq_foldlM (fun j m' => ∀ k, j ≤ k → k < 1024 → m'.mem (pt + 4 * k) =
    m.mem (pt + 4 * k)) (fun _ _ _ => rfl) (fun j m' _ hj hR => ?_) fun j m₁ m₂ _ hj hR hops k hjk hk => ?_
  · rw [hR j le_rfl (by omega), pageWord]
    by_cases hp : m.mem (pt + 4 * j) &&& 1 = 0
    · rw [if_pos hp, if_pos (Or.inr hp)]
      rfl
    · by_cases hs : isSpecial c (pageVa pdi j)
      · rw [if_neg hp, if_pos hs, if_pos (Or.inl hs)]
        rfl
      · rw [if_neg hp, if_neg hs, if_neg (not_or.mpr ⟨hs, hp⟩)]
        simp only [List.map_cons, List.map_nil, List.foldlM_cons, List.foldlM_nil, bind_pure]
  · rw [foldlM_dealloc_mem hops, hR k (by omega) hk]
    intro hmem
    obtain ⟨w, hw, heq⟩ := List.mem_map.mp hmem
    exact entry_ne_frame hpt (mem_pageWord hw).2 (by omega) hk heq.symm

theorem deletePrivatePages_eq (hpt : frameSize ∣ pt) :
    deletePrivatePages c pdi pt m =
      (pageWords c pdi pt m).foldlM clearWord m >>= fun m' => .ok (containsSpecial c pdi, m') := by
  have hflag : deletePrivatePages c pdi pt m = forRange 0 1024 (fun pti m' =>
      if isSpecial c (pageVa pdi pti) ∨ m'.mem (pt + 4 * pti) &&& 1 = 0 then .ok m'
      else clearWord m' (pt + 4 * pti, m'.mem (pt + 4 * pti) &&& 0xFFFFF000)) m >>= fun m' =>
        .ok (false || (List.range' 0 1024).any fun pti => isSpecial c (pageVa pdi pti), m') := by
    refine forRange_flag fun j b m' => ?_
    by_cases hs : isSpecial c (pageVa pdi j)
    · rw [if_pos hs, if_pos (Or.inl hs), ok_bind, decide_eq_true hs, Bool.or_true]
    · rw [if_neg hs, decide_eq_false hs, Bool.or_false]
      by_cases hp : m'.mem (pt + 4 * j) &&& 1 = 0
      · rw [if_pos hp, if_pos (Or.inr hp), ok_bind]
      · rw [if_neg hp, if_neg (not_or.mpr ⟨hs, hp⟩)]
        rfl
  rw [hflag, Bool.false_or, pageWords, containsSpecial]
  refine congrArg (· >>= _) (forRange_eq_foldlM (fun j m' => ∀ k, j ≤ k → k < 1024 →
    m'.mem (pt + 4 * k) = m.mem (pt + 4 * k)) (fun _ _ _ => rfl) (fun j m' _ hj hR => ?_)
    fun j m₁ m₂ _ hj hR hops k hjk hk => ?_)
  · rw [hR j le_rfl (by omega), pageWord]
    split
    · rfl
    · simp only [List.foldlM_cons, List.foldlM_nil, bind_pure]
  · rw [foldlM_clear_mem hops, hR k (by omega) hk]
    · intro hmem
      obtain ⟨w, hw, heq⟩ := List.mem_map.mp hmem
      rw [(mem_pageWord hw).1] at heq
      omega
    · intro hmem
      obtain ⟨w, hw, heq⟩ := List.mem_map.mp hmem
      exact entry_ne_frame hpt (mem_pageWord hw).2 (by omega) hk heq.symm

end

/-! ## Whose frames these are -/

def wordOf (occ : Role → Option ℕ) (x : Role) : Option (ℕ × ℕ) :=
  x.parent.bind fun p => (occ p.1).bind fun g => (occ x).map fun f => (g + 4 * p.2, f)

def pageRole (c : Config) (pd i j : ℕ) : List Role :=
  if isSpecial c (pageVa i j) then [] else [.data pd i j]

def slotRoleList (c : Config) (keep : ℕ → Bool) (pd i : ℕ) : List Role :=
  (List.range' 0 1024).flatMap (pageRole c pd i) ++ if keep i then [] else [.table pd i]

def roleList (c : Config) (keep : ℕ → Bool) (pd : ℕ) : List Role :=
  (List.range' 512 512).flatMap (slotRoleList c keep pd)

section

variable {c : Config} {r : Pool} {low : ℕ → ℕ} {pending : Set (ℕ × ℕ)} {shared : ℕ}
  {m m₁ : Machine} {A : List ℕ} {occ : Role → Option ℕ} {keep : ℕ → Bool} {pd i : ℕ}
  {x y z : Role} {w : ℕ × ℕ}

theorem wordOf_eq_some : wordOf occ x = some w ↔
    ∃ y k g f, x.parent = some (y, k) ∧ occ y = some g ∧ occ x = some f ∧ w = (g + 4 * k, f) := by
  simp only [wordOf, Option.bind_eq_some_iff, Option.map_eq_some_iff, Prod.exists]
  grind

theorem mem_slotRoleList : x ∈ slotRoleList c keep pd i ↔
    (∃ j < 1024, ¬ isSpecial c (pageVa i j) ∧ x = .data pd i j) ∨
      keep i = false ∧ x = .table pd i := by
  simp only [slotRoleList, pageRole, List.mem_append, List.mem_flatMap, List.mem_range'_1]
  grind

theorem mem_roleList : x ∈ roleList c keep pd ↔ ∃ i, (512 ≤ i ∧ i < 1024) ∧
    ((∃ j < 1024, ¬ isSpecial c (pageVa i j) ∧ x = .data pd i j) ∨
      keep i = false ∧ x = .table pd i) := by
  simp only [roleList, List.mem_flatMap, List.mem_range'_1, mem_slotRoleList]

theorem Layout.word_apart (h : Layout c r low pending shared m A occ) {l g : ℕ}
    (hw : wordOf occ x = some w) (hz : z.parent = some (y, l)) (hy : occ y = some g)
    (hzx : z ≠ x) (hyx : y ≠ x) : g + 4 * l ≠ w.1 ∧ g + 4 * l ≠ w.2 := by
  obtain ⟨y', k, g', f, hx, hy', hf, rfl⟩ := wordOf_eq_some.mp hw
  refine ⟨h.tree.cell_ne hx hy' hz hy hzx, fun heq => hyx ?_⟩
  obtain rfl : g = f := by
    refine within_unique (h.aligned hy).1 (h.aligned hf).1 (within_cell g (Role.parent_lt hz)) ?_
    rw [show g + 4 * l = f from heq]
    exact ⟨le_rfl, Nat.lt_add_of_pos_right (by simp [frameSize])⟩
  exact h.tree.inj y x g hy hf

def SlotsKept (occ : Role → Option ℕ) (pd : ℕ) (m : Machine) (i : ℕ) (m₁ : Machine) : Prop :=
  ∀ (k : ℕ) (z y : Role) (l g : ℕ), i ≤ k → (z = .table pd k ∨ ∃ j, z = .data pd k j) → z.parent = some (y, l) →
    occ y = some g → m₁.mem (g + 4 * l) = m.mem (g + 4 * l)

theorem pageWord_eq (h : Layout c r low pending shared m A occ) {j t : ℕ}
    (ht : occ (.table pd i) = some t) (hj : j < 1024) :
    pageWord c i t m j = (pageRole c pd i j).filterMap (wordOf occ) := by
  have hparent : (Role.data pd i j).parent = some (.table pd i, j) := if_pos hj
  rw [pageWord, pageRole]
  by_cases hs : isSpecial c (pageVa i j)
  · rw [if_pos (Or.inl hs), if_pos hs, List.filterMap_nil]
  · rw [if_neg hs, List.filterMap_cons, List.filterMap_nil, wordOf, hparent]
    rcases h.read_page ht hj hs with ⟨ho, hpte⟩ | ⟨f, ho, hpte, hframe⟩
    · rw [if_pos (Or.inr hpte), ho]
      simp
    · rw [if_neg (not_or.mpr ⟨hs, by omega⟩), ho, hframe]
      simp [ht]

theorem slotWords_eq (h : Layout c r low pending shared m A occ) (C : Closed c occ)
    (hpd : occ (.dir pd) = some pd) (hi : 512 ≤ i ∧ i < 1024) :
    slotWords c keep pd m i = (slotRoleList c keep pd i).filterMap (wordOf occ) := by
  have hparent : (Role.table pd i).parent = some (.dir pd, i) := if_pos hi
  rw [slotWords, slotRoleList]
  rcases h.read_slot hpd hi with ⟨hnone, hpde⟩ | ⟨t, ht, hpde, hframe⟩
  · rw [if_pos hpde, eq_comm, List.filterMap_eq_nil_iff]
    intro x hx
    rw [Option.eq_none_iff_forall_ne_some]
    intro w hw
    obtain ⟨y, k, g, f, -, -, hf, -⟩ := wordOf_eq_some.mp hw
    rcases mem_slotRoleList.mp hx with ⟨j, -, -, rfl⟩ | ⟨-, rfl⟩
    · rw [C.pages pd i j hnone] at hf
      cases hf
    · rw [hnone] at hf
      cases hf
  · rw [if_neg (by omega), hframe, List.filterMap_append, List.filterMap_flatMap, pageWords]
    congr 1
    · refine List.flatMap_congr fun j hj => pageWord_eq h ht ?_
      exact (List.mem_range'_1.mp hj).2.trans_eq (Nat.zero_add _)
    · split
      · rfl
      · rw [List.filterMap_cons, List.filterMap_nil, wordOf, hparent]
        simp [hpd, ht]

theorem privateWords_eq (h : Layout c r low pending shared m A occ) (C : Closed c occ)
    (hpd : occ (.dir pd) = some pd) :
    privateWords c keep pd m = (roleList c keep pd).filterMap (wordOf occ) := by
  rw [privateWords, roleList, List.filterMap_flatMap]
  exact List.flatMap_congr fun i hi => slotWords_eq h C hpd (List.mem_range'_1.mp hi)

theorem SlotsKept.next (h : Layout c r low pending shared m A occ) (C : Closed c occ)
    (hpd : occ (.dir pd) = some pd) (hi : 512 ≤ i ∧ i < 1024) {m₂ : Machine}
    (hS : SlotsKept occ pd m i m₁)
    (hops : ∀ a, a ∉ (slotWords c keep pd m i).map Prod.fst →
      a ∉ (slotWords c keep pd m i).map Prod.snd → m₂.mem a = m₁.mem a) :
    SlotsKept occ pd m (i + 1) m₂ := by
  intro k z y l g hk hz hparent hy
  have hapart : ∀ w ∈ slotWords c keep pd m i, g + 4 * l ≠ w.1 ∧ g + 4 * l ≠ w.2 := by
    intro w hw
    rw [slotWords_eq h C hpd hi] at hw
    obtain ⟨x, hx, hxw⟩ := List.mem_filterMap.mp hw
    refine h.word_apart hxw hparent hy ?_ ?_
    · rintro rfl
      rcases mem_slotRoleList.mp hx with ⟨j, -, -, rfl⟩ | ⟨-, rfl⟩ <;> grind
    · rintro rfl
      rcases hz with rfl | ⟨j, rfl⟩ <;> simp only [Role.parent, Option.ite_none_right_eq_some,
        Option.some.injEq, Prod.mk.injEq] at hparent <;>
        rcases mem_slotRoleList.mp hx with ⟨j', -, -, heq⟩ | ⟨-, heq⟩ <;> grind
  rw [hops, hS k z y l g (by omega) hz hparent hy]
  · rintro hmem
    obtain ⟨w, hw, heq⟩ := List.mem_map.mp hmem
    exact (hapart w hw).1 heq.symm
  · rintro hmem
    obtain ⟨w, hw, heq⟩ := List.mem_map.mp hmem
    exact (hapart w hw).2 heq.symm

theorem SlotsKept.slot (hS : SlotsKept occ pd m i m₁) (hpd : occ (.dir pd) = some pd)
    (hi : 512 ≤ i ∧ i < 1024) : m₁.mem (pd + 4 * i) = m.mem (pd + 4 * i) :=
  hS i (.table pd i) (.dir pd) i pd le_rfl (Or.inl rfl) (if_pos hi) hpd

theorem SlotsKept.pageWords (hS : SlotsKept occ pd m i m₁) {t : ℕ}
    (ht : occ (.table pd i) = some t) : pageWords c i t m₁ = pageWords c i t m := by
  refine List.flatMap_congr fun j hj => ?_
  have hj' : j < 1024 := (List.mem_range'_1.mp hj).2.trans_eq (Nat.zero_add _)
  rw [pageWord, pageWord, hS i (.data pd i j) (.table pd i) j t le_rfl (Or.inr ⟨j, rfl⟩)
    (if_pos hj') ht]

theorem deleteTable_eq (h : Layout c r low pending shared m A occ) (hpd : occ (.dir pd) = some pd)
    (hi : 512 ≤ i ∧ i < 1024) (hS : SlotsKept occ pd m i m₁) :
    deleteTable c pd i m₁ =
      ((slotWords c (fun _ => false) pd m i).map Prod.snd).foldlM deallocFrame m₁ := by
  rw [deleteTable, slotWords, hS.slot hpd hi]
  rcases h.read_slot hpd hi with ⟨-, hpde⟩ | ⟨t, ht, hpde, hframe⟩
  · simp only [if_pos hpde]
    rfl
  · have hpde' : ¬ m.mem (pd + 4 * i) &&& 1 = 0 := by omega
    simp only [if_neg hpde', hframe]
    rw [deletePages_eq (h.aligned ht).1, hS.pageWords ht, List.map_append, List.foldlM_append]
    simp only [Bool.false_eq_true, if_false, List.map_cons, List.map_nil, List.foldlM_cons,
      List.foldlM_nil, bind_pure]

theorem deletePrivateTable_eq (h : Layout c r low pending shared m A occ)
    (hpd : occ (.dir pd) = some pd) (hi : 512 ≤ i ∧ i < 1024) (hS : SlotsKept occ pd m i m₁) :
    deletePrivateTable c pd i m₁ = (slotWords c (containsSpecial c) pd m i).foldlM clearWord m₁ := by
  rw [deletePrivateTable, slotWords, hS.slot hpd hi]
  rcases h.read_slot hpd hi with ⟨-, hpde⟩ | ⟨t, ht, hpde, hframe⟩
  · simp only [if_pos hpde]
    rfl
  · have hpde' : ¬ m.mem (pd + 4 * i) &&& 1 = 0 := by omega
    simp only [if_neg hpde', hframe]
    rw [deletePrivatePages_eq (h.aligned ht).1, hS.pageWords ht, List.foldlM_append, bind_assoc]
    refine congrArg _ (funext fun m' => ?_)
    rw [ok_bind]
    split
    · rfl
    · simp only [List.foldlM_cons, List.foldlM_nil, bind_pure]
      rfl

theorem deletePd_eq (h : Layout c r low pending shared m A occ) (C : Closed c occ)
    (hpd : occ (.dir pd) = some pd) {cr3 : ℕ} (hcr3 : pd ≠ cr3) :
    deletePd c cr3 pd m = (deletePdFrames c pd m).foldlM deallocFrame m := by
  have hloop : forRange 512 512 (deleteTable c pd) m =
      ((List.range' 512 512).flatMap fun i =>
        (slotWords c (fun _ => false) pd m i).map Prod.snd).foldlM deallocFrame m :=
    forRange_eq_foldlM (SlotsKept occ pd m) (fun _ _ _ _ _ _ _ _ _ => rfl)
      (fun i m₁ hlo hhi hS => deleteTable_eq h hpd ⟨hlo, by omega⟩ hS)
      fun i m₁ m₂ hlo hhi hS hops =>
        hS.next h C hpd ⟨hlo, by omega⟩ fun a _ ha => foldlM_dealloc_mem hops ha
  rw [deletePd, assert_true hcr3, deletePdFrames, privateWords, List.map_flatMap,
    List.foldlM_append, ok_bind, hloop]
  simp only [List.foldlM_cons, List.foldlM_nil, bind_pure]

theorem deletePrivate_eq (h : Layout c r low pending shared m A occ) (C : Closed c occ)
    (hpd : occ (.dir pd) = some pd) {cr3 : ℕ} (hcr3 : pd = cr3) :
    deletePrivate c cr3 pd m = (privateWords c (containsSpecial c) pd m).foldlM clearWord m := by
  rw [deletePrivate, assert_true hcr3, privateWords, ok_bind]
  exact forRange_eq_foldlM (SlotsKept occ pd m) (fun _ _ _ _ _ _ _ _ _ => rfl)
    (fun i m₁ hlo hhi hS => deletePrivateTable_eq h hpd ⟨hlo, by omega⟩ hS)
    fun i m₁ m₂ hlo hhi hS hops =>
      hS.next h C hpd ⟨hlo, by omega⟩ fun a hw hf => foldlM_clear_mem hops hw hf

theorem wordOf_snd (hpd : occ (.dir pd) = some pd) (C : Closed c occ)
    (hx : x ∈ roleList c keep pd) : (wordOf occ x).map Prod.snd = occ x := by
  obtain ⟨i, hi, ⟨j, hj, -, rfl⟩ | ⟨-, rfl⟩⟩ := mem_roleList.mp hx
  · have hparent : (Role.data pd i j).parent = some (.table pd i, j) := if_pos hj
    cases ht : occ (.table pd i) with
    | none => simp [wordOf, hparent, C.pages pd i j ht]
    | some t =>
      rw [wordOf, hparent]
      cases occ (.data pd i j) <;> simp [ht]
  · have hparent : (Role.table pd i).parent = some (.dir pd, i) := if_pos hi
    rw [wordOf, hparent]
    cases occ (.table pd i) <;> simp [hpd]

theorem map_privateWords (h : Layout c r low pending shared m A occ) (C : Closed c occ)
    (hpd : occ (.dir pd) = some pd) :
    (privateWords c keep pd m).map Prod.snd = (roleList c keep pd).filterMap occ := by
  rw [privateWords_eq h C hpd, List.map_filterMap]
  exact List.filterMap_congr fun x hx => wordOf_snd hpd C hx

theorem nodup_slots {lo n : ℕ} : (List.range' lo n).Pairwise (· ≠ ·) := List.nodup_range'

theorem nodup_roleList : (roleList c keep pd).Nodup := by
  refine List.nodup_flatMap.mpr ⟨fun i _ => List.nodup_append.mpr ⟨List.nodup_flatMap.mpr
    ⟨fun j _ => ?_, ?_⟩, ?_, ?_⟩, ?_⟩
  · rw [pageRole]
    split <;> simp
  · refine nodup_slots.imp fun {j k} hjk x hj hk => ?_
    simp only [pageRole] at hj hk
    grind
  · split <;> simp
  · intro x hx y hy
    simp only [pageRole, List.mem_flatMap] at hx
    grind
  · refine nodup_slots.imp fun {i k} hik x hi hk => ?_
    simp only [mem_slotRoleList] at hi hk
    grind

theorem roleList_order : (roleList c keep pd).Pairwise fun x y => ∀ k, y.parent ≠ some (x, k) := by
  have hslots : ∀ i l, i ≠ l → ∀ x ∈ slotRoleList c keep pd i, ∀ y ∈ slotRoleList c keep pd l,
      ∀ k, y.parent ≠ some (x, k) := by
    intro i l hil x hx y hy k
    rw [mem_slotRoleList] at hx hy
    rcases hy with ⟨j, hj, -, rfl⟩ | ⟨-, rfl⟩ <;> simp only [Role.parent] <;> grind
  refine List.pairwise_flatMap.mpr ⟨fun i _ => List.pairwise_append.mpr ⟨?_, ?_, ?_⟩,
    nodup_slots.imp fun {i l} hil => hslots i l hil⟩
  · refine List.pairwise_of_forall_mem_list fun x hx y hy k => ?_
    simp only [pageRole, List.mem_flatMap] at hx hy
    obtain ⟨j, -, hx⟩ := hx
    obtain ⟨l, -, hy⟩ := hy
    have hy' : y = .data pd i l := by grind
    subst hy'
    simp only [Role.parent]
    grind
  · split <;> simp
  · intro x hx y hy k
    have hy' : y = .table pd i := by grind
    subst hy'
    simp only [Role.parent, pageRole, List.mem_flatMap] at hx ⊢
    grind

end

variable {r : Pool} {m : Machine} {B : List ℕ} {E : Halt → Prop}

theorem frees_spec {fs : List ℕ} (h : Owned r m (fs ++ B)) :
    Outcome (fs.foldlM deallocFrame m) (fun m' => Owned r m' B) E := by
  induction fs generalizing m with
  | nil => exact .ok h
  | cons f fs ih =>
    rw [List.foldlM_cons]
    refine .bind ((h.dealloc List.mem_cons_self).mono fun m' ⟨hO, _⟩ => ih ?_)
    rwa [List.cons_append, List.erase_cons_head] at hO

theorem clears_spec {occ : Role → Option ℕ} {l : List Role}
    (hframe : ∀ x ∈ l, (wordOf occ x).map Prod.snd = occ x)
    (hl : l.Pairwise fun x y => ∀ k, y.parent ≠ some (x, k)) (hne : ∀ x k, Role.parent x ≠ some (x, k))
    (h : Owned r m (l.filterMap occ ++ B))
    (hlast : ∀ x ∈ l, ∀ y k g, x.parent = some (y, k) → y ∉ l → occ y = some g → g ∈ B) :
    Outcome ((l.filterMap (wordOf occ)).foldlM clearWord m) (fun m' => Owned r m' B) E := by
  induction l generalizing m with
  | nil => exact .ok h
  | cons x l ih =>
    rw [List.pairwise_cons] at hl
    have hrest : ∀ z ∈ l, ∀ y k g, z.parent = some (y, k) → y ∉ l → occ y = some g → g ∈ B := by
      intro z hz y k g hzy hy hg
      refine hlast z (List.mem_cons_of_mem x hz) y k g hzy (fun hmem => ?_) hg
      rcases List.mem_cons.mp hmem with rfl | hmem
      · exact hl.1 z hz k hzy
      · exact hy hmem
    have hframe' : ∀ z ∈ l, (wordOf occ z).map Prod.snd = occ z := fun z hz =>
      hframe z (List.mem_cons_of_mem x hz)
    have hx := hframe x List.mem_cons_self
    cases hw : wordOf occ x with
    | none =>
      rw [hw] at hx
      rw [List.filterMap_cons_none hx.symm] at h
      rw [List.filterMap_cons_none hw]
      exact ih hframe' hl.2 h hrest
    | some w =>
      rw [hw] at hx
      rw [List.filterMap_cons_some hx.symm, List.cons_append] at h
      rw [List.filterMap_cons_some hw, List.foldlM_cons]
      obtain ⟨y, k, g, f, hxy, hg, -, rfl⟩ := wordOf_eq_some.mp hw
      have hk := Role.parent_lt hxy
      have hheld : g ∈ f :: (l.filterMap occ ++ B) := by
        refine List.mem_cons_of_mem f (List.mem_append.mpr ?_)
        by_cases hy : y ∈ l
        · exact Or.inl (List.mem_filterMap.mpr ⟨y, hy, hg⟩)
        · refine Or.inr (hlast x List.mem_cons_self y k g hxy (fun hmem => ?_) hg)
          rcases List.mem_cons.mp hmem with rfl | hmem
          · exact hne y k hxy
          · exact hy hmem
      have hstore := h.store hheld (a := g + 4 * k) (Nat.le_add_right _ _)
        (by simp only [frameSize]; omega) 0
      refine .bind ((hstore.dealloc List.mem_cons_self).mono fun m' ⟨hO, _⟩ => ?_)
      rw [List.erase_cons_head] at hO
      exact ih hframe' hl.2 hO hrest

end OsShell.Vmm
