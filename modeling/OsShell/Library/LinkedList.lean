import Mathlib

/-!
# Doubly linked lists threaded through two link functions

`Linked next prev nil before head l`: following `next` from `head` visits
exactly `l` and ends at `nil`, and each `prev` link points back at the node
visited before (at `before` for the first node). The links are arbitrary
functions, so an intrusive list in an array is an instance. The two edits are
`Linked.push` at the front and `Linked.unlink` anywhere.
-/

namespace OsShell.LinkedList

variable {ι : Type*}

def Linked (next prev : ι → ι) (nil : ι) : ι → ι → List ι → Prop
  | _, head, [] => head = nil
  | before, head, i :: l =>
    head = i ∧ i ≠ nil ∧ prev i = before ∧ Linked next prev nil i (next i) l

section Facts

variable {next prev next' prev' : ι → ι} {nil before head x : ι} {l xs ys : List ι}

theorem Linked.ne_nil (h : Linked next prev nil before head l) (hx : x ∈ l) : x ≠ nil := by
  induction l generalizing before head with
  | nil => cases hx
  | cons i l ih =>
    rcases List.mem_cons.mp hx with rfl | hx
    · exact h.2.1
    · exact ih h.2.2.2 hx

theorem Linked.head_mem (h : Linked next prev nil before head l) (hne : head ≠ nil) :
    head ∈ l := by
  cases l with
  | nil => exact absurd h hne
  | cons i l => exact h.1 ▸ List.mem_cons_self

/-- The links determine the list. -/
theorem Linked.unique {ms : List ι} (h : Linked next prev nil before head l) {before' : ι}
    (h' : Linked next prev nil before' head ms) : l = ms := by
  induction l generalizing before before' head ms with
  | nil =>
    cases ms with
    | nil => rfl
    | cons j ms => exact absurd (h'.1.symm.trans h) h'.2.1
  | cons i l ih =>
    obtain ⟨rfl, hi, -, ht⟩ := h
    cases ms with
    | nil => exact absurd h' hi
    | cons j ms =>
      obtain ⟨rfl, -, -, ht'⟩ := h'
      rw [ih ht ht']

theorem Linked.frame (h : Linked next prev nil before head l)
    (hl : ∀ i ∈ l, next' i = next i ∧ prev' i = prev i) :
    Linked next' prev' nil before head l := by
  induction l generalizing before head with
  | nil => exact h
  | cons i l ih =>
    obtain ⟨hh, hi, hp, ht⟩ := h
    obtain ⟨hn', hp'⟩ := hl i List.mem_cons_self
    refine ⟨hh, hi, hp'.trans hp, ?_⟩
    rw [hn']
    exact ih ht fun j hj => hl j (List.mem_cons_of_mem i hj)

theorem Linked.after (h : Linked next prev nil before head (xs ++ x :: ys)) :
    Linked next prev nil x (next x) ys := by
  induction xs generalizing before head with
  | nil => exact h.2.2.2
  | cons i xs ih => exact ih h.2.2.2

theorem Linked.next_mem (h : Linked next prev nil before head l) (hx : x ∈ l) :
    next x = nil ∨ next x ∈ l := by
  obtain ⟨xs, ys, rfl⟩ := List.append_of_mem hx
  by_cases hne : next x = nil
  · exact Or.inl hne
  · exact Or.inr (by simp [h.after.head_mem hne])

theorem Linked.prev_mem (h : Linked next prev nil before head l) (hx : x ∈ l) :
    prev x = before ∨ prev x ∈ l := by
  induction l generalizing before head with
  | nil => cases hx
  | cons i l ih =>
    rcases List.mem_cons.mp hx with rfl | hx
    · exact Or.inl h.2.2.1
    · rcases ih h.2.2.2 hx with hp | hp
      · exact Or.inr (by simp [hp])
      · exact Or.inr (List.mem_cons_of_mem i hp)

end Facts

variable [DecidableEq ι] {next prev next' prev' : ι → ι} {nil before head x : ι}
  {l xs ys : List ι}

theorem Linked.push (h : Linked next prev nil before head l) (hnd : l.Nodup) (hx : x ≠ nil)
    (hn : next' x = head) (hp : prev' x = before) (hn' : ∀ i ∈ l, next' i = next i)
    (hp' : ∀ i ∈ l, prev' i = if i = head then x else prev i) :
    Linked next' prev' nil before x (x :: l) := by
  refine ⟨rfl, hx, hp, ?_⟩
  rw [hn]
  cases l with
  | nil => exact h
  | cons i l =>
    obtain ⟨rfl, hi, -, ht⟩ := h
    have hil := (List.nodup_cons.mp hnd).1
    refine ⟨rfl, hi, by simp [hp'], ?_⟩
    rw [hn' head List.mem_cons_self]
    refine ht.frame fun j hj => ⟨hn' j (by simp [hj]), ?_⟩
    rw [hp' j (by simp [hj]), if_neg (fun heq : j = head => hil (heq ▸ hj))]

/-- Taking `x` out: its two neighbours are linked to each other, the head moves only when
`x` was first. -/
theorem Linked.unlink (h : Linked next prev nil before head (xs ++ x :: ys))
    (hnd : (xs ++ x :: ys).Nodup) (hb : before ∉ xs ++ x :: ys)
    (hn : ∀ i ∈ xs ++ ys, next' i = if i = prev x then next x else next i)
    (hp : ∀ i ∈ xs ++ ys, prev' i = if i = next x then prev x else prev i) :
    Linked next' prev' nil before (if prev x = before then next x else head) (xs ++ ys) := by
  induction xs generalizing before head with
  | nil =>
    obtain ⟨rfl, hx, hpx, ht⟩ := h
    simp only [List.nil_append] at hnd hb hn hp ⊢
    rw [if_pos hpx]
    cases ys with
    | nil => exact ht
    | cons y ys =>
      obtain ⟨hy, hyn, -, ht⟩ := ht
      have hnd' := (List.nodup_cons.mp hnd).2
      refine ⟨hy, hyn, by rw [hp y (by simp), if_pos hy.symm, hpx], ?_⟩
      rw [hn y (by simp), if_neg (by rintro rfl; simp [hpx] at hb)]
      refine ht.frame fun j hj => ⟨?_, ?_⟩
      · rw [hn j (by simp [hj]), if_neg (by rintro rfl; simp [← hpx, hj] at hb)]
      · rw [hp j (by simp [hj]), hy,
          if_neg (by rintro rfl; exact (List.nodup_cons.mp hnd').1 hj)]
  | cons i xs ih =>
    obtain ⟨rfl, hi, hpi, ht⟩ := h
    simp only [List.cons_append] at hnd hb hn hp ⊢
    obtain ⟨hil, hnd⟩ := List.nodup_cons.mp hnd
    -- the node before `x` is `i` or a later one, never the outer `before`
    have hpx : prev x ≠ before := by
      rcases ht.prev_mem (x := x) (by simp) with heq | hm
      · rw [heq]; rintro rfl; simp at hb
      · rintro heq; rw [heq] at hm; exact hb (by simp_all)
    have hnx : head ≠ next x := by
      rintro heq
      rcases ht.next_mem (x := x) (by simp) with hx | hm
      · exact hi (heq.trans hx)
      · exact hil (heq ▸ hm)
    have hstep := ih ht hnd hil (fun j hj => hn j (List.mem_cons_of_mem _ hj))
      (fun j hj => hp j (List.mem_cons_of_mem _ hj))
    rw [if_neg hpx]
    refine ⟨rfl, hi, by rw [hp head (by simp), if_neg hnx, hpi], ?_⟩
    rw [hn head (by simp)]
    simpa only [eq_comm] using hstep

end OsShell.LinkedList
