import OsShell.FirstFit.Tags

/-!
# Tagged blocks and the free list between them

`Threaded h B fl` says that the words of `h` carry the tags of the blocks `B`
and thread the free list `fl` through free blocks of `B`. Each primitive of the
heap has one lemma: it keeps the predicate for its new set of blocks, and it
says which words stay as they were.
-/

namespace OsShell.FirstFit

open Tiling LinkedList

def tag (b : Block) : ℤ := if b.free then b.size else -b.size

structure Threaded (h : Heap) (B : Set Block) (fl : List ℤ) : Prop where
  apart : ∀ b ∈ B, ∀ c ∈ B, b = c ∨ b.Apart c
  pos : ∀ b ∈ B, 0 < b.size
  room : ∀ b ∈ B, b.free = true → 4 ≤ b.size ∧ b.start ≠ 0
  header : ∀ b ∈ B, h.array b.start = tag b
  footer : ∀ b ∈ B, h.array (b.stop - 1) = tag b
  linked : Linked (next h) (prev h) 0 0 h.avail fl
  nodup : fl.Nodup
  listed : ∀ i ∈ fl, ∃ b ∈ B, b.free = true ∧ b.start = i

def IsLink (B : Set Block) (j : ℤ) : Prop :=
  ∃ b ∈ B, b.free = true ∧ (j = b.start + 1 ∨ j = b.start + 2)

def Payload (b : Block) (j : ℤ) : Prop := b.start < j ∧ j < b.stop - 1

namespace Threaded

variable {h : Heap} {B C : Set Block} {fl : List ℤ} {b : Block} {i j x : ℤ}

theorem size_start (T : Threaded h B fl) (hb : b ∈ B) : size h b.start = b.size := by
  have hp := T.pos b hb
  simp only [size, T.header b hb, tag]
  split_ifs
  · exact abs_of_pos hp
  · rw [abs_neg, abs_of_pos hp]

theorem isAvail_start (T : Threaded h B fl) (hb : b ∈ B) : isAvail h b.start = b.free := by
  have hp := T.pos b hb
  cases hf : b.free <;> simp [isAvail, T.header b hb, tag, hf] <;> omega

theorem isTaken_start (T : Threaded h B fl) (hb : b ∈ B) : isTaken h b.start = !b.free := by
  have hp := T.pos b hb
  cases hf : b.free <;> simp [isTaken, T.header b hb, tag, hf] <;> omega

theorem right_start (T : Threaded h B fl) (hb : b ∈ B) : right h b.start = b.stop := by
  simp [right, sanity, T.size_start hb, Block.stop]

theorem left_stop (T : Threaded h B fl) (hb : b ∈ B) : left h b.stop = b.start := by
  have hp := T.pos b hb
  have hs : size h (b.stop - 1) = b.size := by
    have := T.size_start hb
    simpa only [size, T.footer b hb, T.header b hb] using this
  simp only [left, sanity, headerFromFooter, hs]
  simp only [Block.stop]
  omega

theorem not_mem_zero (T : Threaded h B fl) : (0 : ℤ) ∉ fl := fun h0 => T.linked.ne_nil h0 rfl

theorem next_cases (T : Threaded h B fl) (hx : x ∈ fl) :
    next h x = 0 ∨ ∃ c ∈ B, c.free = true ∧ c.start = next h x :=
  (T.linked.next_mem hx).imp_right (T.listed _)

theorem prev_cases (T : Threaded h B fl) (hx : x ∈ fl) :
    prev h x = 0 ∨ ∃ c ∈ B, c.free = true ∧ c.start = prev h x :=
  (T.linked.prev_mem hx).imp_right (T.listed _)

theorem avail_cases (T : Threaded h B fl) :
    h.avail = 0 ∨ ∃ c ∈ B, c.free = true ∧ c.start = h.avail := by
  by_cases h0 : h.avail = 0
  · exact Or.inl h0
  · exact Or.inr (T.listed _ (T.linked.head_mem h0))

theorem link_ne_tag (T : Threaded h B fl) {c : Block} (hc : c ∈ B) (hcf : c.free = true)
    (hb : b ∈ B) (hj : j = c.start + 1 ∨ j = c.start + 2) : j ≠ b.start ∧ j ≠ b.stop - 1 := by
  have hr := (T.room c hc hcf).1
  have hp := T.pos b hb
  rcases T.apart c hc b hb with rfl | hap
  · simp only [Block.stop]
    omega
  · simp only [Block.Apart, Block.stop] at hap ⊢
    omega

theorem frame (T : Threaded h B fl) {h' : Heap} (ha : h'.avail = h.avail)
    (htag : ∀ b ∈ B, h'.array b.start = h.array b.start ∧
      h'.array (b.stop - 1) = h.array (b.stop - 1))
    (hlink : ∀ j, IsLink B j → h'.array j = h.array j) : Threaded h' B fl where
  apart := T.apart
  pos := T.pos
  room := T.room
  header b hb := (htag b hb).1.trans (T.header b hb)
  footer b hb := (htag b hb).2.trans (T.footer b hb)
  nodup := T.nodup
  listed := T.listed
  linked := by
    rw [ha]
    refine T.linked.frame fun i hi => ?_
    obtain ⟨b, hb, hf, rfl⟩ := T.listed i hi
    exact ⟨hlink _ ⟨b, hb, hf, Or.inl rfl⟩, hlink _ ⟨b, hb, hf, Or.inr rfl⟩⟩

theorem restrict (T : Threaded h B fl) (hC : ∀ c ∈ C, c ∈ B)
    (hl : ∀ c ∈ B, c.free = true → c.start ∈ fl → c ∈ C) : Threaded h C fl where
  apart b hb c hc := T.apart b (hC b hb) c (hC c hc)
  pos b hb := T.pos b (hC b hb)
  room b hb := T.room b (hC b hb)
  header b hb := T.header b (hC b hb)
  footer b hb := T.footer b (hC b hb)
  linked := T.linked
  nodup := T.nodup
  listed i hi := by
    obtain ⟨b, hb, hf, rfl⟩ := T.listed i hi
    exact ⟨b, hl b hb hf hi, hf, rfl⟩

theorem write (T : Threaded h B fl) (hb : b ∈ B) (hf : b.free = false) (hj : Payload b j) (v : ℤ) :
    Threaded (h.store j v) B fl := by
  obtain ⟨h₁, h₂⟩ := hj
  refine T.frame rfl (fun c hc => ?_) (fun k hk => ?_)
  · have hp := T.pos c hc
    rcases T.apart b hb c hc with rfl | hap
    · exact ⟨h.store_of_ne v (by omega), h.store_of_ne v (by omega)⟩
    · simp only [Block.Apart, Block.stop] at hap h₂ ⊢
      exact ⟨h.store_of_ne v (by omega), h.store_of_ne v (by omega)⟩
  · obtain ⟨c, hc, hcf, hk⟩ := hk
    have hr := (T.room c hc hcf).1
    rcases T.apart b hb c hc with rfl | hap
    · exact absurd hcf (by simp [hf])
    · simp only [Block.Apart, Block.stop] at hap h₂
      exact h.store_of_ne v (by omega)

theorem remove_frame (T : Threaded h B fl) (hx : x ∈ fl) (hj : ¬ IsLink B j) :
    (remove h x).array j = h.array j := by
  obtain ⟨-, -, -, harr⟩ := remove_eq h x
  rw [harr j, if_neg, if_neg]
  · rintro ⟨hp, rfl⟩
    obtain ⟨c, hc, hcf, hcs⟩ := (T.prev_cases hx).resolve_left hp
    exact hj ⟨c, hc, hcf, Or.inl (by rw [hcs])⟩
  · rintro ⟨hn, rfl⟩
    obtain ⟨c, hc, hcf, hcs⟩ := (T.next_cases hx).resolve_left hn
    exact hj ⟨c, hc, hcf, Or.inr (by rw [hcs])⟩

theorem remove_nonneg (T : Threaded h B fl) (hpos : ∀ i ∈ fl, 0 ≤ i) (hx : x ∈ fl)
    (hj : 0 ≤ h.array j) : 0 ≤ (remove h x).array j := by
  obtain ⟨-, -, -, harr⟩ := remove_eq h x
  rw [harr j]
  split_ifs
  · rcases T.linked.prev_mem hx with h0 | hm
    exacts [h0.ge, hpos _ hm]
  · rcases T.linked.next_mem hx with h0 | hm
    exacts [h0.ge, hpos _ hm]
  · exact hj

theorem remove_tags (T : Threaded h B fl) (hx : x ∈ fl) (hb : b ∈ B) :
    (remove h x).array b.start = h.array b.start ∧
      (remove h x).array (b.stop - 1) = h.array (b.stop - 1) := by
  constructor <;> refine T.remove_frame hx ?_ <;> rintro ⟨c, hc, hcf, hj⟩
  · exact (T.link_ne_tag hc hcf hb hj).1 rfl
  · exact (T.link_ne_tag hc hcf hb hj).2 rfl

theorem nodes_apart (T : Threaded h B fl) (hi : i ∈ fl) (hj : j ∈ fl) :
    i = j ∨ i + 4 ≤ j ∨ j + 4 ≤ i := by
  obtain ⟨b, hb, hbf, rfl⟩ := T.listed i hi
  obtain ⟨c, hc, hcf, rfl⟩ := T.listed j hj
  have h₁ := (T.room b hb hbf).1
  have h₂ := (T.room c hc hcf).1
  rcases T.apart b hb c hc with rfl | hap
  · exact Or.inl rfl
  · simp only [Block.Apart, Block.stop] at hap
    omega

theorem remove (T : Threaded h B fl) (hx : x ∈ fl) :
    Threaded (remove h x) B (fl.erase x) where
  apart := T.apart
  pos := T.pos
  room := T.room
  header b hb := (T.remove_tags hx hb).1.trans (T.header b hb)
  footer b hb := (T.remove_tags hx hb).2.trans (T.footer b hb)
  nodup := T.nodup.erase x
  listed i hi := T.listed i (List.mem_of_mem_erase hi)
  linked := by
    obtain ⟨-, -, hav, harr⟩ := remove_eq h x
    obtain ⟨xs, ys, rfl⟩ := List.append_of_mem hx
    have hxs : x ∉ xs := fun hm => (List.nodup_append.mp T.nodup).2.2 x hm x (by simp) rfl
    rw [List.erase_append_right _ hxs, List.erase_cons_head, hav]
    refine T.linked.unlink T.nodup T.not_mem_zero (fun i hi => ?_) (fun i hi => ?_)
    all_goals
      have hil : i ∈ xs ++ x :: ys := by
        rcases List.mem_append.mp hi with hi | hi <;> simp [hi]
      have hi0 : i ≠ 0 := T.linked.ne_nil hil
      have hn : next h x ≠ 0 → i = next h x ∨ i + 4 ≤ next h x ∨ next h x + 4 ≤ i := fun hn =>
        T.nodes_apart hil ((T.linked.next_mem hx).resolve_left hn)
      have hp : prev h x ≠ 0 → i = prev h x ∨ i + 4 ≤ prev h x ∨ prev h x + 4 ≤ i := fun hp =>
        T.nodes_apart hil ((T.linked.prev_mem hx).resolve_left hp)
    · change (FirstFit.remove h x).array (i + 1) = _
      rw [harr (i + 1)]
      change _ = if i = prev h x then _ else h.array (i + 1)
      split_ifs <;> first | rfl | omega
    · change (FirstFit.remove h x).array (i + 2) = _
      rw [harr (i + 2)]
      change _ = if i = next h x then _ else h.array (i + 2)
      split_ifs <;> first | rfl | omega

theorem makeTaken_frame (hb : 0 < b.size) (hj : j < b.start ∨ b.stop ≤ j) :
    (makeTaken h b.start b.size).array j = h.array j := by
  rw [(makeTaken_eq h b.start hb).2.2.2 j, if_neg]
  simp only [Block.stop] at hj
  omega

theorem makeTaken (T : Threaded h B fl) (hb : 0 < b.size) (hf : b.free = false)
    (hap : ∀ c ∈ B, b.Apart c) : Threaded (makeTaken h b.start b.size) (insert b B) fl := by
  have harr := (makeTaken_eq h b.start hb).2.2.2
  have hT : Threaded (FirstFit.makeTaken h b.start b.size) B fl := by
    refine T.frame rfl (fun c hc => ?_) (fun j hj => makeTaken_frame hb ?_)
    · have hp := T.pos c hc
      have hap := hap c hc
      simp only [Block.Apart, Block.stop] at hap
      exact ⟨makeTaken_frame hb (by simp only [Block.stop]; omega),
        makeTaken_frame hb (by simp only [Block.stop]; omega)⟩
    · obtain ⟨c, hc, hcf, hj⟩ := hj
      have hr := (T.room c hc hcf).1
      have hap := hap c hc
      simp only [Block.Apart, Block.stop] at hap ⊢
      omega
  refine ⟨?_, ?_, ?_, ?_, ?_, hT.linked, hT.nodup, fun i hi => ?_⟩
  · rintro c (rfl | hc) d (rfl | hd)
    · exact Or.inl rfl
    · exact Or.inr (hap d hd)
    · exact Or.inr (hap c hc).symm
    · exact T.apart c hc d hd
  · rintro c (rfl | hc)
    exacts [hb, T.pos c hc]
  · rintro c (rfl | hc)
    exacts [fun h' => absurd h' (by simp [hf]), T.room c hc]
  · rintro c (rfl | hc)
    · simp [harr, tag, hf]
    · exact hT.header c hc
  · rintro c (rfl | hc)
    · simp [harr, tag, hf, Block.stop]
    · exact hT.footer c hc
  · obtain ⟨c, hc, hcf, hcs⟩ := T.listed i hi
    exact ⟨c, Or.inr hc, hcf, hcs⟩

theorem makeAvail_frame (T : Threaded h B fl) (hb : 4 ≤ b.size) (hj : j < b.start ∨ b.stop ≤ j)
    (hlink : ¬ IsLink B j) : (makeAvail h b.start b.size).array j = h.array j := by
  rw [(makeAvail_eq h b.start hb).2.2.2 j]
  simp only [Block.stop] at hj
  rw [if_neg, if_neg (by omega), if_neg (by omega), if_neg (by omega)]
  rintro ⟨ha, rfl⟩
  obtain ⟨c, hc, hcf, hcs⟩ := T.avail_cases.resolve_left ha
  exact hlink ⟨c, hc, hcf, Or.inr (by rw [hcs])⟩

theorem makeAvail (T : Threaded h B fl) (hb : 4 ≤ b.size) (h0 : b.start ≠ 0)
    (hf : b.free = true) (hap : ∀ c ∈ B, b.Apart c) :
    Threaded (makeAvail h b.start b.size) (insert b B) (b.start :: fl) := by
  obtain ⟨-, -, hav, harr⟩ := makeAvail_eq h b.start hb
  -- the link word written outside of `b` is no tag of another block
  have htags : ∀ c ∈ B, (FirstFit.makeAvail h b.start b.size).array c.start = h.array c.start ∧
      (FirstFit.makeAvail h b.start b.size).array (c.stop - 1) = h.array (c.stop - 1) := by
    intro c hc
    have hp := T.pos c hc
    have hap := hap c hc
    simp only [Block.Apart, Block.stop] at hap
    constructor <;> refine T.makeAvail_frame hb (by simp only [Block.stop]; omega) ?_ <;>
      rintro ⟨d, hd, hdf, hj⟩
    · exact (T.link_ne_tag hd hdf hc hj).1 rfl
    · exact (T.link_ne_tag hd hdf hc hj).2 rfl
  have hnode : ∀ i ∈ fl, i + 4 ≤ b.start ∨ b.stop ≤ i := by
    intro i hi
    obtain ⟨c, hc, hcf, rfl⟩ := T.listed i hi
    have hr := (T.room c hc hcf).1
    have hap := hap c hc
    simp only [Block.Apart, Block.stop] at hap ⊢
    omega
  have hhead : h.avail ≠ 0 → h.avail ∈ fl := T.linked.head_mem
  have hself : ∀ j, b.start ≤ j → j < b.stop → ¬ (h.avail ≠ 0 ∧ j = h.avail + 2) := by
    rintro j h₁ h₂ ⟨ha, rfl⟩
    have := hnode _ (hhead ha)
    omega
  have hstop : b.stop = b.start + b.size := rfl
  refine ⟨?_, ?_, ?_, ?_, ?_, ?_, ?_, fun i hi => ?_⟩
  · rintro c (rfl | hc) d (rfl | hd)
    · exact Or.inl rfl
    · exact Or.inr (hap d hd)
    · exact Or.inr (hap c hc).symm
    · exact T.apart c hc d hd
  · rintro c (rfl | hc)
    exacts [by omega, T.pos c hc]
  · rintro c (rfl | hc)
    exacts [fun _ => ⟨hb, h0⟩, T.room c hc]
  · rintro c (rfl | hc)
    · rw [harr, if_neg (hself _ (by omega) (by omega)), if_neg (by omega), if_neg (by omega),
        if_pos (Or.inl rfl), tag, if_pos hf]
    · exact (htags c hc).1.trans (T.header c hc)
  · rintro c (rfl | hc)
    · rw [harr, if_neg (hself _ (by omega) (by omega)), if_neg (by omega), if_neg (by omega),
        if_pos (Or.inr (by omega)), tag, if_pos hf]
    · exact (htags c hc).2.trans (T.footer c hc)
  · rw [hav]
    refine T.linked.push T.nodup h0 ?_ ?_ (fun i hi => ?_) (fun i hi => ?_)
    · change (FirstFit.makeAvail h b.start b.size).array (b.start + 1) = _
      rw [harr, if_neg (hself _ (by omega) (by omega)), if_neg (by omega), if_pos rfl]
    · change (FirstFit.makeAvail h b.start b.size).array (b.start + 2) = _
      rw [harr, if_neg (hself _ (by omega) (by omega)), if_pos rfl]
    all_goals
      have hi' := hnode i hi
      have hia : h.avail ≠ 0 → i = h.avail ∨ i + 4 ≤ h.avail ∨ h.avail + 4 ≤ i := fun ha =>
        T.nodes_apart hi (hhead ha)
      have hi0 := T.linked.ne_nil hi
    · change (FirstFit.makeAvail h b.start b.size).array (i + 1) = h.array (i + 1)
      rw [harr]
      split_ifs <;> first | rfl | omega
    · change (FirstFit.makeAvail h b.start b.size).array (i + 2) =
        if i = h.avail then b.start else h.array (i + 2)
      rw [harr]
      split_ifs <;> first | rfl | omega
  · refine List.nodup_cons.mpr ⟨fun hm => ?_, T.nodup⟩
    have := hnode _ hm
    omega
  · rcases List.mem_cons.mp hi with rfl | hi
    · exact ⟨b, Or.inl rfl, hf, rfl⟩
    · obtain ⟨c, hc, hcf, hcs⟩ := T.listed i hi
      exact ⟨c, Or.inr hc, hcf, hcs⟩

end Threaded

end OsShell.FirstFit
