import OsShell.UserHeap.Guarantees

/-!
# Where the two heaps place a block

On the same array the kernel's `malloc` takes the smallest of the first twenty
blocks that fit and the user's takes the first one; both fail when no block fits.
The size that they look for is computed in 32 bits.
-/

namespace OsShell.UserHeap

open FirstFit KernelHeap Tiling LinkedList Runs

section Smallest

variable (size : ℤ → ℤ)

def smaller (best : ℤ × ℤ) (p : ℤ) : ℤ × ℤ := if size p < best.1 then (size p, p) else best

theorem pick_eq_foldl (ints : ℤ) (l : List ℤ) (n : ℕ) (best : ℤ × ℤ) :
    pick size ints (n + 1 : ℕ) best l =
      ((l.filter fun i => ints ≤ size i).take (n + 1)).foldl (smaller size) best := by
  induction l generalizing n best with
  | nil => rfl
  | cons p l ih =>
    by_cases hfit : ints ≤ size p
    · rw [pick, if_pos hfit, List.filter_cons_of_pos (by simpa using hfit), List.take_succ_cons,
        List.foldl_cons]
      cases n with
      | zero => rw [if_pos (by simp), List.take_zero, List.foldl_nil, smaller]
      | succ n =>
        have hcount : ((n + 1 + 1 : ℕ) : ℤ) - 1 = (n + 1 : ℕ) := by omega
        rw [if_neg (by omega), hcount]
        exact ih n _
    · rw [pick, if_neg hfit, List.filter_cons_of_neg (by simpa using hfit)]
      exact ih n best

theorem foldl_smaller (ys : List ℤ) (best : ℤ × ℤ) :
    (ys.foldl (smaller size) best = best ∧ ∀ i ∈ ys, best.1 ≤ size i) ∨
    ∃ xs k zs, ys = xs ++ k :: zs ∧ ys.foldl (smaller size) best = (size k, k) ∧
      size k < best.1 ∧ (∀ i ∈ xs, size k < size i) ∧ ∀ i ∈ zs, size k ≤ size i := by
  induction ys generalizing best with
  | nil => exact Or.inl ⟨rfl, nofun⟩
  | cons y ys ih =>
    rw [List.foldl_cons]
    by_cases hlt : size y < best.1
    · rw [smaller, if_pos hlt]
      right
      rcases ih (size y, y) with ⟨heq, hle⟩ | ⟨xs, k, zs, hys, heq, hk, hxs, hzs⟩
      · exact ⟨[], y, ys, rfl, heq, hlt, nofun, hle⟩
      · exact ⟨y :: xs, k, zs, by rw [hys]; rfl, heq, hk.trans hlt,
          List.forall_mem_cons.mpr ⟨hk, hxs⟩, hzs⟩
    · rw [smaller, if_neg hlt]
      have hge : best.1 ≤ size y := not_lt.mp hlt
      rcases ih best with ⟨heq, hle⟩ | ⟨xs, k, zs, hys, heq, hk, hxs, hzs⟩
      · exact Or.inl ⟨heq, List.forall_mem_cons.mpr ⟨hge, hle⟩⟩
      · exact Or.inr ⟨y :: xs, k, zs, by rw [hys]; rfl, heq, hk,
          List.forall_mem_cons.mpr ⟨lt_of_lt_of_le hk hge, hxs⟩, hzs⟩

end Smallest

section Placement

variable {h : Heap} {bs : List Block} {fl : List ℤ} {bytes : ℕ}

theorem kernelMalloc_eq (W : WellFormed h bs fl) (hbytes : bytes ≠ 0) :
    KernelHeap.malloc h bytes =
      let best := pick (size h) (intsFor bytes) 20 (0x7FFFFFFF, 0) fl
      if best.2 ≠ 0 then some (carve h best.2 best.1 (intsFor bytes), address h (best.2 + 1))
      else some (h, 0) := by
  have hs := search_eq W.threaded (intsFor bytes) (fun i hi => hi) W.threaded.linked
    (Nat.lt_succ_of_le (length_le W)) 20 (0x7FFFFFFF, 0)
  simp only [KernelHeap.malloc, if_neg hbytes, hs]

/-- The free block at `k` has been taken for `ints` words, and the rest of it, when it is worth a
block, is the first on the list; the other free blocks are where they were. -/
def Placed (h : Heap) (fl : List ℤ) (ints k : ℤ) (r : Option (Heap × ℤ)) : Prop :=
  ∃ h' bs' fl' t, r = some (h', address h (k + 1)) ∧ WellFormed h' bs' fl' ∧
    t ∈ bs' ∧ t.start = k ∧ t.free = false ∧ (ints ≤ t.size ∧ t.size ≤ ints + 3) ∧
    (4 ≤ size h k - ints → ⟨k + ints, size h k - ints, true⟩ ∈ bs') ∧
    fl' = if 4 ≤ size h k - ints then (k + ints) :: fl.erase k else fl.erase k

theorem placed_of_fits (W : WellFormed h bs fl) {k ints : ℤ} (hk : k ∈ fl) (h4 : 4 ≤ ints)
    (hfit : ints ≤ size h k) :
    Placed h fl ints k (some (carve h k (size h k) ints, address h (k + 1))) := by
  obtain ⟨b, hb, hf, rfl⟩ := W.threaded.listed k hk
  have hsize := W.threaded.size_start hb
  rw [hsize] at hfit
  obtain ⟨t, bs', fl', ht⟩ := W.carve hb hf h4 hfit
  rw [← hsize] at ht
  refine ⟨_, bs', fl', t, rfl, ht.wf, (ht.blocks t).mpr (Or.inl rfl), ht.start, ht.free,
    ht.size_bounds, fun hrest => ?_, ?_⟩
  · rw [hsize] at hrest ⊢
    exact (ht.blocks _).mpr (Or.inr (Or.inl ⟨hrest, rfl⟩))
  · rw [hsize]
    exact ht.list

def Null (r : Option (Heap × ℤ)) : Prop := ∃ h', r = some (h', 0)

theorem not_null_of_placed {ints k : ℤ} {r : Option (Heap × ℤ)} (W : WellFormed h bs fl)
    (hbase : 0 ≤ h.base) (hk : k ∈ fl) (hp : Placed h fl ints k r) : ¬ Null r := by
  rintro ⟨h'', hnull⟩
  obtain ⟨h', -, -, -, hr, -⟩ := hp
  obtain ⟨b, hb, hf, rfl⟩ := W.threaded.listed k hk
  have hpos := (W.inner_bounds hb (W.inner_of_free hb hf)).1
  rw [hr, Option.some.injEq, Prod.mk.injEq, address] at hnull
  omega

theorem kernelMalloc_placed (W : WellFormed h bs fl) (hlen : h.len ≤ 2 ^ 30) (hbytes : bytes ≠ 0) :
    (∀ i ∈ fl, size h i < intsFor bytes) ∧ KernelHeap.malloc h bytes = some (h, 0) ∨
    ∃ xs k ys, (fl.filter fun i => intsFor bytes ≤ size h i).take 20 = xs ++ k :: ys ∧
      (∀ i ∈ xs, size h k < size h i) ∧ (∀ i ∈ ys, size h k ≤ size h i) ∧
      (k ∈ fl ∧ intsFor bytes ≤ size h k) ∧ Placed h fl (intsFor bytes) k (KernelHeap.malloc h bytes) := by
  have hpick := pick_eq_foldl (size h) (intsFor bytes) fl 19 (0x7FFFFFFF, 0)
  rw [kernelMalloc_eq W hbytes, show (20 : ℤ) = (19 + 1 : ℕ) from rfl, hpick]
  rcases foldl_smaller (size h) ((fl.filter fun i => intsFor bytes ≤ size h i).take 20)
    (0x7FFFFFFF, 0) with ⟨heq, hle⟩ | ⟨xs, k, ys, hsplit, heq, hk, hxs, hys⟩
  · left
    refine ⟨fun i hi => ?_, by rw [heq]; rfl⟩
    by_contra hfit
    -- then the first block that fits would have been better than none
    have hne : (fl.filter fun i => intsFor bytes ≤ size h i) ≠ [] :=
      List.ne_nil_of_mem (List.mem_filter.mpr ⟨hi, by simpa using hfit⟩)
    obtain ⟨j, js, hjs⟩ := List.exists_cons_of_ne_nil hne
    have hj : j ∈ fl := (List.mem_filter.mp (hjs ▸ List.mem_cons_self)).1
    have hbig := hle j (by rw [hjs]; simp)
    obtain ⟨b, hb, hf, rfl⟩ := W.threaded.listed j hj
    have hbounds := W.inner_bounds hb (W.inner_of_free hb hf)
    rw [W.threaded.size_start hb] at hbig
    simp only [Block.stop] at hbounds
    omega
  · right
    have hmem : k ∈ (fl.filter fun i => intsFor bytes ≤ size h i).take 20 := by
      rw [hsplit]
      simp
    obtain ⟨hkfl, hfit⟩ := List.mem_filter.mp (List.mem_of_mem_take hmem)
    have hfit : intsFor bytes ≤ size h k := by simpa using hfit
    refine ⟨xs, k, ys, hsplit, hxs, hys, ⟨hkfl, hfit⟩, ?_⟩
    rw [heq]
    dsimp only
    rw [if_pos (W.threaded.linked.ne_nil hkfl)]
    exact placed_of_fits W hkfl (intsFor_ge bytes) hfit

theorem userMalloc_placed (W : WellFormed h bs fl) (hbytes : bytes ≠ 0) :
    (∀ i ∈ fl, size h i < intsFor bytes) ∧ malloc h bytes = some (h, 0) ∨
    ∃ k ys, (fl.filter fun i => intsFor bytes ≤ size h i) = k :: ys ∧
      (k ∈ fl ∧ intsFor bytes ≤ size h k) ∧ Placed h fl (intsFor bytes) k (malloc h bytes) := by
  rw [malloc_eq W hbytes, ← List.head?_filter]
  cases hfilter : fl.filter fun i => intsFor bytes ≤ size h i with
  | nil =>
    refine Or.inl ⟨fun i hi => ?_, rfl⟩
    simpa using List.filter_eq_nil_iff.mp hfilter i hi
  | cons k ys =>
    have hmem : k ∈ fl.filter fun i => intsFor bytes ≤ size h i := hfilter ▸ List.mem_cons_self
    obtain ⟨hk, hfit⟩ := List.mem_filter.mp hmem
    have hfit : intsFor bytes ≤ size h k := by simpa using hfit
    exact Or.inr ⟨k, ys, rfl, ⟨hk, hfit⟩, placed_of_fits W hk (intsFor_ge bytes) hfit⟩

theorem intsFor_eq (hsize : bytes ≤ 0xFFFFFFFC) :
    intsFor bytes = max 4 (((bytes : ℤ) + 3) / 4 + 2) := by
  have hmod : (bytes + 3) % 2 ^ 32 = bytes + 3 := Nat.mod_eq_of_lt (by omega)
  simp only [intsFor, hmod]
  split_ifs <;> omega

/-- On one array both calls fail together; otherwise each takes the block that its search is
for. -/
theorem malloc_placement (W : WellFormed h bs fl) (hbase : 0 ≤ h.base)
    (hfits : h.base + 4 * h.len ≤ 2 ^ 32) (hpos : 1 ≤ bytes) (hsize : bytes ≤ 0xFFFFFFFC) :
    let ints : ℤ := max 4 (((bytes : ℤ) + 3) / 4 + 2)
    (Null (KernelHeap.malloc h bytes) ↔ Null (malloc h bytes)) ∧
    (Null (malloc h bytes) ↔ ∀ i ∈ fl, size h i < ints) ∧
    ((∃ i ∈ fl, ints ≤ size h i) →
      (∃ xs k ys, (fl.filter fun i => ints ≤ size h i).take 20 = xs ++ k :: ys ∧
        (∀ i ∈ xs, size h k < size h i) ∧ (∀ i ∈ ys, size h k ≤ size h i) ∧
        Placed h fl ints k (KernelHeap.malloc h bytes)) ∧
      ∃ k ys, (fl.filter fun i => ints ≤ size h i) = k :: ys ∧
        Placed h fl ints k (malloc h bytes)) := by
  intro ints
  have hints : intsFor bytes = ints := intsFor_eq hsize
  have hkernel := kernelMalloc_placed W (by omega) (by omega : bytes ≠ 0)
  have huser := userMalloc_placed W (by omega : bytes ≠ 0)
  rw [hints] at hkernel huser
  rcases hkernel with ⟨hno, hk⟩ | ⟨xs, k, ys, hsplit, hxs, hys, ⟨hkfl, hfit⟩, hK⟩
  · rcases huser with ⟨-, hu⟩ | ⟨j, -, -, ⟨hjfl, hfit⟩, -⟩
    · refine ⟨iff_of_true ⟨h, hk⟩ ⟨h, hu⟩, iff_of_true ⟨h, hu⟩ hno, fun hsome => ?_⟩
      obtain ⟨i, hi, hfit⟩ := hsome
      exact absurd hfit (not_le.mpr (hno i hi))
    · exact absurd hfit (not_le.mpr (hno j hjfl))
  · rcases huser with ⟨hno, -⟩ | ⟨j, zs, hfilter, ⟨hjfl, hjfit⟩, hU⟩
    · exact absurd hfit (not_le.mpr (hno k hkfl))
    · have hnk := not_null_of_placed W hbase hkfl hK
      have hnu := not_null_of_placed W hbase hjfl hU
      exact ⟨iff_of_false hnk hnu,
        iff_of_false hnu fun hno => absurd hfit (not_le.mpr (hno k hkfl)),
        fun _ => ⟨⟨xs, k, ys, hsplit, hxs, hys, hK⟩, j, zs, hfilter, hU⟩⟩

theorem twoHoles_reachable : ∃ s, Reachable KernelHeap.Init KernelHeap.Step s ∧
    s.heap.base = 0x100000 ∧ s.heap.len = 80 ∧
    (KernelHeap.malloc s.heap 8).map Prod.snd = some 0x10006c ∧
    (malloc s.heap 8).map Prod.snd = some 0x100034 := by
  have hrun : ((KernelHeap.heapInit 0x100000 320 fun _ => 0).bind fun r =>
      (KernelHeap.malloc r.1 32).bind fun r₁ => (KernelHeap.malloc r₁.1 8).bind fun r₂ =>
        (KernelHeap.malloc r₂.1 12).bind fun r₃ => (KernelHeap.malloc r₃.1 8).bind fun r₄ =>
          (KernelHeap.free r₄.1 r₃.2).bind fun h₅ => (KernelHeap.free h₅ r₁.2).map fun h₆ =>
            ([r₁.2, r₂.2, r₃.2, r₄.2, h₆.base, h₆.len], (KernelHeap.malloc h₆ 8).map Prod.snd,
              (malloc h₆ 8).map Prod.snd)) =
      some ([0x100034, 0x10005c, 0x10006c, 0x100080, 0x100000, 80], some 0x10006c, some 0x100034) := by
    decide
  obtain ⟨⟨h₀, lock⟩, hinit, hrun⟩ := Option.bind_eq_some_iff.mp hrun
  obtain ⟨⟨h₁, a⟩, ha, hrun⟩ := Option.bind_eq_some_iff.mp hrun
  obtain ⟨⟨h₂, b⟩, hb, hrun⟩ := Option.bind_eq_some_iff.mp hrun
  obtain ⟨⟨h₃, c⟩, hc, hrun⟩ := Option.bind_eq_some_iff.mp hrun
  obtain ⟨⟨h₄, d⟩, hd, hrun⟩ := Option.bind_eq_some_iff.mp hrun
  obtain ⟨h₅, hfree, hrun⟩ := Option.bind_eq_some_iff.mp hrun
  obtain ⟨h₆, hlast, hrun⟩ := Option.map_eq_some_iff.mp hrun
  simp only [Prod.mk.injEq, List.cons.injEq, and_true] at hrun ha hb hc hd hfree hlast
  obtain ⟨⟨rfl, rfl, rfl, rfl, hbase, hlen⟩, hkernel, huser⟩ := hrun
  have hs₀ : Reachable KernelHeap.Init KernelHeap.Step ⟨h₀, lock, []⟩ :=
    .init (.heapInit (by norm_num) (by norm_num) (by norm_num) hinit)
  have hs₁ : Reachable KernelHeap.Init KernelHeap.Step ⟨h₁, lock, [0x100034]⟩ := by
    simpa using hs₀.step (.malloc 32 (by norm_num) ha)
  have hs₂ : Reachable KernelHeap.Init KernelHeap.Step ⟨h₂, lock, [0x10005c, 0x100034]⟩ := by
    simpa using hs₁.step (.malloc 8 (by norm_num) hb)
  have hs₃ : Reachable KernelHeap.Init KernelHeap.Step
      ⟨h₃, lock, [0x10006c, 0x10005c, 0x100034]⟩ := by
    simpa using hs₂.step (.malloc 12 (by norm_num) hc)
  have hs₄ : Reachable KernelHeap.Init KernelHeap.Step
      ⟨h₄, lock, [0x100080, 0x10006c, 0x10005c, 0x100034]⟩ := by
    simpa using hs₃.step (.malloc 8 (by norm_num) hd)
  have hs₅ := hs₄.step (.free 0x10006c (by simp) hfree)
  have hs₆ := hs₅.step (.free 0x100034 (by simp) hlast)
  exact ⟨_, hs₆, hbase, hlen, hkernel, huser⟩

/-- The kernel takes the smaller of the two, the user the first. -/
theorem twoHoles_placement : ∃ h bs fl, WellFormed h bs fl ∧ h.base = 0x100000 ∧
    Placed h fl 4 26 (KernelHeap.malloc h 8) ∧ Placed h fl 4 12 (malloc h 8) := by
  obtain ⟨s, hs, hbase, hlen, hkernel, huser⟩ := twoHoles_reachable
  obtain ⟨bs, fl, I⟩ := KernelHeap.inv_of_reachable hs
  obtain ⟨hnull, hnone, hsome⟩ := malloc_placement I.wf (by rw [hbase]; norm_num)
    (by rw [hbase, hlen]; norm_num) (show 1 ≤ 8 by norm_num) (by norm_num)
  have hfits : ¬ Null (malloc s.heap 8) := by
    rintro ⟨h', hnull⟩
    rw [hnull, Option.map_some, Option.some.injEq] at huser
    norm_num at huser
  obtain ⟨⟨xs, k, ys, -, -, -, hK⟩, j, zs, -, hU⟩ := hsome (by
    by_contra hno
    push Not at hno
    exact hfits (hnone.mpr hno))
  have hints : max (4 : ℤ) ((((8 : ℕ) : ℤ) + 3) / 4 + 2) = 4 := by norm_num
  rw [hints] at hK hU
  obtain rfl : k = 26 := by
    obtain ⟨h', -, -, -, hr, -⟩ := hK
    rw [hr, Option.map_some, Option.some.injEq, address, hbase] at hkernel
    omega
  obtain rfl : j = 12 := by
    obtain ⟨h', -, -, -, hr, -⟩ := hU
    rw [hr, Option.map_some, Option.some.injEq, address, hbase] at huser
    omega
  exact ⟨_, bs, fl, I.wf, hbase, hK, hU⟩

end Placement

/-- A block that `malloc` returns has at least the bytes that were asked for. -/
def SizeLaw (bytes : ℕ) (r : Option (Heap × ℤ)) : Prop :=
  ∀ h' p, r = some (h', p) → p ≠ 0 → (bytes : ℤ) ≤ payloadBytes h' p

section Sizes

variable {h : Heap} {bs : List Block} {fl ps : List ℤ} {bytes : ℕ} {r : Option (Heap × ℤ)}

/-- From the largest sizes on the sum wraps, and the request shrinks to four words. -/
theorem intsFor_wrapped (hlt : bytes < 2 ^ 32) (hsize : ¬ bytes ≤ 0xFFFFFFFC) :
    intsFor bytes = 4 := by
  have hmod : (bytes + 3) % 2 ^ 32 = bytes + 3 - 2 ^ 32 := by omega
  simp only [intsFor, hmod]
  split_ifs <;> omega

theorem avail_zero_iff (W : WellFormed h bs fl) : h.avail = 0 ↔ ∀ b ∈ bs, b.free = false := by
  constructor
  · intro h0 b hb
    by_contra hf
    have hmem := W.complete b hb (by simpa using hf)
    have hlink := W.threaded.linked
    cases fl with
    | nil => nomatch hmem
    | cons i l => exact hlink.2.1 (hlink.1.symm.trans h0)
  · intro hall
    by_contra hne
    obtain ⟨b, hb, hf, -⟩ := W.threaded.listed _ (W.threaded.linked.head_mem hne)
    rw [hall b hb] at hf
    nomatch hf

theorem sizeLaw_iff (O : Owned h ps bs fl) (hlt : bytes < 2 ^ 32)
    (hspec : ((∀ b ∈ bs, b.free = true → b.size < intsFor bytes) ∧ r = some (h, 0)) ∨
      ∃ b ∈ bs, b.free = true ∧ ∃ t h' bs' fl', r = some (h', address h (b.start + 1)) ∧
        Taken h bs fl b (intsFor bytes) h' bs' fl' t) :
    SizeLaw bytes r ↔ bytes ≤ 0xFFFFFFFC ∨ h.avail = 0 := by
  have W := O.wf
  rcases hspec with ⟨hno, rfl⟩ | ⟨b, hb, hf, t, h', bs', fl', rfl, ht⟩
  · refine iff_of_true ?_ ?_
    · rintro h' p hr hp
      obtain ⟨-, rfl⟩ := Prod.mk.inj (Option.some.inj hr)
      exact absurd rfl hp
    · by_cases hsize : bytes ≤ 0xFFFFFFFC
      · exact Or.inl hsize
      · refine Or.inr ((avail_zero_iff W).mpr fun b hb => ?_)
        by_contra hf
        have hf : b.free = true := by simpa using hf
        have hroom := (W.threaded.room b hb hf).1
        have := hno b hb hf
        rw [intsFor_wrapped hlt hsize] at this
        omega
  · have hpay : payloadBytes h' (address h (b.start + 1)) = 4 * (t.size - 2) := by
      rw [← ht.start]
      exact payloadBytes_eq ht.wf ht.base ((ht.blocks t).mpr (Or.inl rfl))
    have hbounds := ht.size_bounds
    have hpos := (W.inner_bounds hb (W.inner_of_free hb hf)).1
    have hbase := O.base
    have hne : address h (b.start + 1) ≠ 0 := by
      simp only [address]
      omega
    have havail : h.avail ≠ 0 := by
      intro h0
      rw [(avail_zero_iff W).mp h0 b hb] at hf
      cases hf
    by_cases hsize : bytes ≤ 0xFFFFFFFC
    · refine iff_of_true ?_ (Or.inl hsize)
      rintro _ _ hr -
      obtain ⟨rfl, rfl⟩ := Prod.mk.inj (Option.some.inj hr)
      have hroom := intsFor_room hsize
      omega
    · refine iff_of_false (fun hlaw => ?_) (not_or.mpr ⟨hsize, havail⟩)
      have hmin := hlaw h' _ rfl hne
      rw [intsFor_wrapped hlt hsize] at hbounds
      omega

end Sizes

/-- In both heaps the law holds for the sizes that do not wrap, and where nothing is free. -/
theorem malloc_size_iff (bytes : ℕ) (hpos : 0 < bytes) (hlt : bytes < 2 ^ 32) :
    (∀ s : KernelHeap.State, Reachable KernelHeap.Init KernelHeap.Step s →
      (SizeLaw bytes (KernelHeap.malloc s.heap bytes) ↔ bytes ≤ 0xFFFFFFFC ∨ s.heap.avail = 0)) ∧
    ∀ es s, Trace Init Step es s →
      (SizeLaw bytes (malloc s.heap bytes) ↔ bytes ≤ 0xFFFFFFFC ∨ s.heap.avail = 0) := by
  constructor
  · intro s hs
    obtain ⟨bs, fl, I⟩ := inv_of_reachable hs
    exact sizeLaw_iff I.owned hlt (KernelHeap.malloc_spec I.wf I.len_le (by omega))
  · intro es s hs
    obtain ⟨bs, fl, I⟩ := inv_of_trace hs
    exact sizeLaw_iff I.owned hlt (malloc_spec I.owned.wf (by omega))

/-- Four gigabytes less one byte are granted on a fresh user heap: four words. -/
theorem wrapped_size :
    ∃ es s, Trace Init Step es s ∧ ¬ SizeLaw 0xFFFFFFFF (malloc s.heap 0xFFFFFFFF) := by
  have hr : ((malloc (heapInit 0x80100000) 0xFFFFFFFF).map fun r =>
      (r.2, payloadBytes r.1 0x8010000C)) = some (0x8010000C, 8) := by
    decide +kernel
  obtain ⟨⟨h', p⟩, hm, hp⟩ := Option.map_eq_some_iff.mp hr
  obtain ⟨rfl, hbytes⟩ := Prod.mk.inj hp
  have hinit : Init ⟨heapInit 0x80100000, []⟩ := .heapInit (by decide) (by decide)
  refine ⟨[], _, .start hinit, fun hlaw => ?_⟩
  have hle := hlaw h' _ hm (by decide)
  rw [show payloadBytes h' 0x8010000C = 8 from hbytes] at hle
  norm_num at hle

/-- Eight bytes on a fresh user heap. -/
theorem eightBytes_size : SizeLaw 8 (malloc (heapInit 0x80100000) 8) := by
  have hinit : Init ⟨heapInit 0x80100000, []⟩ := .heapInit (by decide) (by decide)
  exact ((malloc_size_iff 8 (by decide) (by decide)).2 [] _ (.start hinit)).mpr (Or.inl (by decide))

end OsShell.UserHeap
