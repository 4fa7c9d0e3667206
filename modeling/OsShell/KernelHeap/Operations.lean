import OsShell.KernelHeap.Code
import OsShell.FirstFit.WellFormed

/-!
# `malloc`, `free` and `heapInit` on a well-formed heap

The search loop is compared with its reading on the free list as a list; with
that, each call either finds no block or is one `carve` or one `coalesce`.
-/

namespace OsShell.KernelHeap

open FirstFit Tiling LinkedList

def pick (size : ℤ → ℤ) (ints : ℤ) : ℤ → ℤ × ℤ → List ℤ → ℤ × ℤ
  | _, best, [] => best
  | countDown, best, p :: l =>
    if ints ≤ size p then
      let best := if size p < best.1 then (size p, p) else best
      if countDown - 1 = 0 then best else pick size ints (countDown - 1) best l
    else pick size ints countDown best l

theorem search_eq {h : Heap} {B : Set Block} {fl : List ℤ} (T : Threaded h B fl) (ints : ℤ)
    {l : List ℤ} (hl : ∀ i ∈ l, i ∈ fl) {before p : ℤ}
    (hlink : Linked (next h) (prev h) 0 before p l) {fuel : ℕ} (hfuel : l.length < fuel)
    (countDown : ℤ) (best : ℤ × ℤ) :
    search h ints fuel countDown best p = some (pick (size h) ints countDown best l) := by
  induction l generalizing fuel before p countDown best with
  | nil =>
    obtain ⟨fuel, rfl⟩ := Nat.exists_eq_succ_of_ne_zero (by omega : fuel ≠ 0)
    obtain rfl : p = 0 := hlink
    simp [search, pick]
  | cons i l ih =>
    obtain ⟨rfl, hi, -, ht⟩ := hlink
    obtain ⟨fuel, rfl⟩ := Nat.exists_eq_succ_of_ne_zero (by omega : fuel ≠ 0)
    obtain ⟨b, hb, hbf, rfl⟩ := T.listed p (hl p List.mem_cons_self)
    have hrest := ih (fun j hj => hl j (List.mem_cons_of_mem _ hj)) ht
      (show l.length < fuel by simpa using hfuel)
    simp only [search, if_neg hi, T.isAvail_start hb, hbf, Bool.true_eq_false, if_false, pick,
      hrest]
    split_ifs <;> rfl

theorem pick_cases (size : ℤ → ℤ) (ints : ℤ) (l : List ℤ) (countDown : ℤ) (best : ℤ × ℤ) :
    pick size ints countDown best l = best ∨
      ∃ i ∈ l, ints ≤ size i ∧ pick size ints countDown best l = (size i, i) := by
  induction l generalizing countDown best with
  | nil => exact Or.inl rfl
  | cons p l ih =>
    simp only [pick]
    by_cases hfit : ints ≤ size p
    · rw [if_pos hfit]
      by_cases hlt : size p < best.1
      · simp only [if_pos hlt]
        split_ifs with hc
        · exact Or.inr ⟨p, by simp, hfit, rfl⟩
        · rcases ih (countDown - 1) (size p, p) with heq | ⟨i, hi, hs, heq⟩
          exacts [Or.inr ⟨p, by simp, hfit, heq⟩, Or.inr ⟨i, by simp [hi], hs, heq⟩]
      · simp only [if_neg hlt]
        split_ifs with hc
        · exact Or.inl rfl
        · rcases ih (countDown - 1) best with heq | ⟨i, hi, hs, heq⟩
          exacts [Or.inl heq, Or.inr ⟨i, by simp [hi], hs, heq⟩]
    · rw [if_neg hfit]
      rcases ih countDown best with heq | ⟨i, hi, hs, heq⟩
      exacts [Or.inl heq, Or.inr ⟨i, by simp [hi], hs, heq⟩]

theorem pick_fits (size : ℤ → ℤ) (ints : ℤ) (l : List ℤ) (countDown : ℤ) (best : ℤ × ℤ)
    (hmx : ∀ i ∈ l, size i < best.1) (hfit : ∃ i ∈ l, ints ≤ size i) :
    ∃ i ∈ l, ints ≤ size i ∧ pick size ints countDown best l = (size i, i) := by
  induction l with
  | nil => simp at hfit
  | cons p l ih =>
    simp only [pick]
    by_cases hp : ints ≤ size p
    · rw [if_pos hp, if_pos (hmx p List.mem_cons_self)]
      split_ifs with hc
      · exact ⟨p, by simp, hp, rfl⟩
      · rcases pick_cases size ints l (countDown - 1) (size p, p) with heq | ⟨i, hi, hs, heq⟩
        exacts [⟨p, by simp, hp, heq⟩, ⟨i, by simp [hi], hs, heq⟩]
    · rw [if_neg hp]
      obtain ⟨i, hi, hs⟩ := hfit
      have hil : i ∈ l := (List.mem_cons.mp hi).resolve_left (by rintro rfl; exact hp hs)
      obtain ⟨j, hj, hs, heq⟩ := ih (fun j hj => hmx j (by simp [hj])) ⟨i, hil, hs⟩
      exact ⟨j, by simp [hj], hs, heq⟩

theorem pick_none (size : ℤ → ℤ) (ints : ℤ) (l : List ℤ) (countDown : ℤ) (best : ℤ × ℤ)
    (hno : ∀ i ∈ l, size i < ints) : pick size ints countDown best l = best := by
  rcases pick_cases size ints l countDown best with heq | ⟨i, hi, hs, -⟩
  · exact heq
  · have := hno i hi
    omega

theorem intsFor_ge (bytes : ℕ) : 4 ≤ intsFor bytes := by
  simp only [intsFor]
  split_ifs <;> omega

theorem intsFor_room {bytes : ℕ} (hsize : bytes ≤ 0xFFFFFFFC) :
    (bytes : ℤ) ≤ 4 * (intsFor bytes - 2) := by
  have hmod : (bytes + 3) % 2 ^ 32 = bytes + 3 := Nat.mod_eq_of_lt (by omega)
  simp only [intsFor, hmod]
  split_ifs <;> omega

section Calls

variable {h : Heap} {bs : List Block} {fl : List ℤ} {b : Block}

theorem length_le (W : WellFormed h bs fl) : fl.length ≤ h.len.toNat := by
  have hsub : fl ⊆ bs.map Block.start := fun i hi => by
    obtain ⟨b, hb, -, rfl⟩ := W.threaded.listed i hi
    exact List.mem_map_of_mem hb
  have hle := (W.threaded.nodup.subperm hsub).length_le
  rw [List.length_map] at hle
  have hbs : ∀ {i e : ℤ} {bs : List Block}, Tiles i bs e → i + bs.length ≤ e := by
    intro i e bs
    induction bs generalizing i with
    | nil => exact fun ht => by simpa using le_of_eq ht
    | cons b bs ih =>
      rintro ⟨h₁, h₂, ht⟩
      have := ih ht
      simp only [Block.stop, List.length_cons, Nat.cast_add, Nat.cast_one] at this ⊢
      omega
  have := hbs W.tiles
  omega

theorem malloc_carves (W : WellFormed h bs fl) (hlen : h.len ≤ 2 ^ 30) {bytes : ℕ}
    (hbytes : bytes ≠ 0) :
    ((∀ b ∈ bs, b.free = true → b.size < intsFor bytes) ∧ malloc h bytes = some (h, 0)) ∨
    ∃ b ∈ bs, b.free = true ∧ intsFor bytes ≤ b.size ∧
      malloc h bytes =
        some (carve h b.start b.size (intsFor bytes), address h (b.start + 1)) := by
  have hs := search_eq W.threaded (intsFor bytes) (fun i hi => hi) W.threaded.linked
    (Nat.lt_succ_of_le (length_le W)) 20 (0x7FFFFFFF, 0)
  have hsize : ∀ b ∈ bs, size h b.start = b.size := fun b hb => W.threaded.size_start hb
  by_cases hfit : ∃ b ∈ bs, b.free = true ∧ intsFor bytes ≤ b.size
  · obtain ⟨c, hc, hcf, hcs⟩ := hfit
    obtain ⟨i, hi, hle, hpick⟩ := pick_fits (size h) (intsFor bytes) fl 20 (0x7FFFFFFF, 0)
      (fun i hi => by
        obtain ⟨b, hb, -, rfl⟩ := W.threaded.listed i hi
        have h₁ := W.tiles.bounds hb
        rw [hsize b hb]
        simp only [Block.stop] at h₁
        omega)
      ⟨c.start, W.complete c hc hcf, by rwa [hsize c hc]⟩
    obtain ⟨b, hb, hbf, rfl⟩ := W.threaded.listed i hi
    rw [hsize b hb] at hle hpick
    refine Or.inr ⟨b, hb, hbf, hle, ?_⟩
    simp only [malloc, if_neg hbytes, hs, hpick, ne_eq, (W.threaded.room b hb hbf).2,
      not_false_eq_true, if_true]
  · simp only [not_exists, not_and, not_le] at hfit
    refine Or.inl ⟨hfit, ?_⟩
    have hpick := pick_none (size h) (intsFor bytes) fl 20 (0x7FFFFFFF, 0) fun i hi => by
      obtain ⟨b, hb, hbf, rfl⟩ := W.threaded.listed i hi
      rw [hsize b hb]
      exact hfit b hb hbf
    simp [malloc, hbytes, hs, hpick]

theorem malloc_spec (W : WellFormed h bs fl) (hlen : h.len ≤ 2 ^ 30) {bytes : ℕ}
    (hbytes : bytes ≠ 0) :
    ((∀ b ∈ bs, b.free = true → b.size < intsFor bytes) ∧ malloc h bytes = some (h, 0)) ∨
    ∃ b ∈ bs, b.free = true ∧ ∃ t h' bs' fl',
      malloc h bytes = some (h', address h (b.start + 1)) ∧
      Taken h bs fl b (intsFor bytes) h' bs' fl' t := by
  rcases malloc_carves W hlen hbytes with hnone | ⟨b, hb, hbf, hle, hm⟩
  · exact Or.inl hnone
  · obtain ⟨t, bs', fl', ht⟩ := W.carve hb hbf (intsFor_ge bytes) hle
    exact Or.inr ⟨b, hb, hbf, t, _, bs', fl', hm, ht⟩

theorem free_spec (W : WellFormed h bs fl) (hbase : 0 ≤ h.base) (hfits : h.base + 4 * h.len ≤ 2 ^ 32)
    (hb : b ∈ bs) (hf : b.free = false) (hi : Interior h b) :
    ∃ m h' bs' fl', free h (address h (b.start + 1)) = some h' ∧
      Released h bs b h' bs' fl' m := by
  obtain ⟨m, bs', fl', hR⟩ := W.coalesce hb hf hi
  obtain ⟨h₁, h₂, h₃⟩ := W.inner_bounds hb hi
  refine ⟨m, _, bs', fl', ?_, hR⟩
  have hidx : (address h (b.start + 1) - h.base) % 2 ^ 32 / 4 - 1 = b.start := by
    simp only [address, Block.stop] at h₃ ⊢
    omega
  have hne : address h (b.start + 1) ≠ 0 ∧ address h (b.start + 1) ≠ h.base := by
    simp only [address]
    omega
  simp only [free, if_neg hne.1, if_neg hne.2, hidx, W.threaded.isTaken_start hb, hf,
    Bool.not_false, Bool.true_eq_false, if_false]

end Calls

theorem layOut_wellFormed (base : ℤ) {bytes : ℕ} (memory : ℤ → ℤ) (hbytes : 8 ≤ bytes / 4) :
    (layOut base bytes memory).base = base ∧
    (layOut base bytes memory).len = (bytes / 4 : ℕ) ∧
    WellFormed (layOut base bytes memory)
      [⟨0, 2, false⟩, ⟨2, (bytes / 4 : ℕ) - 4, true⟩, ⟨(bytes / 4 : ℕ) - 2, 2, false⟩] [2] := by
  set n : ℤ := ((bytes / 4 : ℕ) : ℤ) with hn
  have h8 : 8 ≤ n := by omega
  set h₀ : Heap := ⟨base, n, 0, memory⟩ with hh₀
  have T₀ : Threaded h₀ ∅ [] :=
    ⟨by simp, by simp, by simp, by simp, by simp, rfl, List.nodup_nil, by simp⟩
  have T₁ := T₀.makeTaken (b := ⟨0, 2, false⟩) (by simp) rfl (by simp)
  have T₂ := T₁.makeAvail (b := ⟨2, n - 4, true⟩) (show 4 ≤ n - 4 by omega) (by simp) rfl
    (by simp [Block.Apart, Block.stop])
  have T₃ := T₂.makeTaken (b := ⟨n - 2, 2, false⟩) (by simp) rfl (by
    simp only [Block.Apart, Block.stop, Set.mem_insert_iff, Set.mem_empty_iff_false, or_false,
      forall_eq_or_imp, forall_eq]
    omega)
  have e₁ := makeTaken_eq h₀ 0 (show (0 : ℤ) < 2 by omega)
  have e₂ := makeAvail_eq (makeTaken h₀ 0 2) 2 (show 4 ≤ n - 4 by omega)
  have e₃ := makeTaken_eq (makeAvail (makeTaken h₀ 0 2) 2 (n - 4)) (n - 2) (show (0 : ℤ) < 2 by omega)
  have hlay : layOut base bytes memory =
      makeTaken (makeAvail (makeTaken h₀ 0 2) 2 (n - 4)) (n - 2) 2 := by
    simp only [layOut, ← hn, ← hh₀]
  have hlen : (layOut base bytes memory).len = n := by
    rw [hlay, e₃.2.1, e₂.2.1, e₁.2.1]
  refine ⟨by rw [hlay, e₃.1, e₂.1, e₁.1], hlen, hlen ▸ h8, ?_, ?_, ?_, by simp, by simp [hlen], ?_⟩
  · rw [hlen]
    exact ⟨rfl, by norm_num, rfl, by show 0 < n - 4; omega, by show n - 2 = 2 + (n - 4); ring,
      by norm_num, by show n - 2 + 2 = n; ring⟩
  · rw [hlay]
    refine T₃.restrict (fun c hc => ?_) (fun c hc _ _ => ?_)
    all_goals
      simp only [Set.mem_ofPred_eq, List.mem_cons, List.not_mem_nil, or_false, Set.mem_insert_iff,
        Set.mem_empty_iff_false] at hc ⊢
      tauto
  · simp
  · simp only [hlen, List.mem_cons, List.not_mem_nil, or_false, forall_eq_or_imp, forall_eq]
    omega

end OsShell.KernelHeap
