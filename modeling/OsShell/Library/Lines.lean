import Mathlib

/-!
# Lines

A line goes up to the next separator, which belongs to it; the last one may have none.
`Cut` says so of a list of lines.
-/

namespace OsShell.Lines

variable {α : Type*} [DecidableEq α]

def cut (sep : α) : List α → List α × List α
  | [] => ([], [])
  | c :: text => if c = sep then ([c], text) else (c :: (cut sep text).1, (cut sep text).2)

def lines (sep : α) : List α → List (List α)
  | [] => []
  | c :: text =>
    if c = sep then [c] :: lines sep text
    else
      match lines sep text with
      | [] => [[c]]
      | line :: rest => (c :: line) :: rest

structure Cut (sep : α) (text : List α) (ls : List (List α)) : Prop where
  flatten : ls.flatten = text
  nonempty : ∀ line ∈ ls, line ≠ []
  inner : ∀ line ∈ ls, sep ∉ line.dropLast
  ended : ∀ line ∈ ls.dropLast, line.getLast? = some sep

variable {sep : α} {text : List α}

theorem lines_eq_nil : lines sep text = [] ↔ text = [] := by
  cases text with
  | nil => simp [lines]
  | cons c text =>
    rw [lines]
    split
    · simp
    · split <;> simp

theorem cut_append (sep : α) (text : List α) : (cut sep text).1 ++ (cut sep text).2 = text := by
  induction text with
  | nil => rfl
  | cons c text ih =>
    rw [cut]
    split
    · rfl
    · exact congrArg (c :: ·) ih

theorem lines_eq (hne : text ≠ []) : lines sep text = (cut sep text).1 :: lines sep (cut sep text).2 := by
  induction text with
  | nil => exact absurd rfl hne
  | cons c text ih =>
    rw [lines, cut]
    by_cases hc : c = sep
    · rw [if_pos hc, if_pos hc]
    · rw [if_neg hc, if_neg hc]
      cases text with
      | nil => rfl
      | cons d text => rw [ih (List.cons_ne_nil d text)]

theorem cut_ne_nil (hne : text ≠ []) : (cut sep text).1 ≠ [] := by
  obtain ⟨c, text, rfl⟩ := List.exists_cons_of_ne_nil hne
  rw [cut]
  split <;> simp

theorem cut_length_lt (hne : text ≠ []) : (cut sep text).2.length < text.length := by
  have hlen := congrArg List.length (cut_append sep text)
  have hpos : 0 < (cut sep text).1.length := List.length_pos_of_ne_nil (cut_ne_nil hne)
  rw [List.length_append] at hlen
  omega

theorem lines_flatten (sep : α) (text : List α) : (lines sep text).flatten = text := by
  induction text with
  | nil => rfl
  | cons c text ih =>
    rw [lines]
    split
    · rw [List.flatten_cons, ih]
      rfl
    · cases hlines : lines sep text with
      | nil =>
        rw [lines_eq_nil.mp hlines]
        rfl
      | cons line rest =>
        rw [hlines] at ih
        exact congrArg (c :: ·) ih

theorem cut_inner (sep : α) (text : List α) : sep ∉ (cut sep text).1.dropLast := by
  induction text with
  | nil => simp [cut]
  | cons c text ih =>
    rw [cut]
    split
    · simp
    · rename_i hc
      cases hcut : (cut sep text).1 with
      | nil => simp
      | cons d line =>
        rw [hcut] at ih
        rw [List.dropLast_cons_cons, List.mem_cons, not_or]
        exact ⟨Ne.symm hc, ih⟩

theorem cut_ended (hrest : (cut sep text).2 ≠ []) : (cut sep text).1.getLast? = some sep := by
  induction text with
  | nil => exact absurd rfl hrest
  | cons c text ih =>
    rw [cut] at hrest ⊢
    split at hrest
    · rename_i hc
      rw [if_pos hc, hc]
      rfl
    · rename_i hc
      have hlast := ih hrest
      rw [if_neg hc]
      dsimp only
      rw [List.getLast?_cons, hlast]
      rfl

theorem lines_cut (sep : α) (text : List α) : Cut sep text (lines sep text) := by
  induction hlen : text.length using Nat.strong_induction_on generalizing text with
  | h n ih =>
    by_cases hne : text = []
    · subst hne
      exact ⟨rfl, by simp [lines], by simp [lines], by simp [lines]⟩
    · have hlt : (cut sep text).2.length < n := hlen ▸ cut_length_lt hne
      have hrest := ih _ hlt _ rfl
      refine ⟨lines_flatten sep text, ?_, ?_, ?_⟩
      · rw [lines_eq hne]
        exact List.forall_mem_cons.mpr ⟨cut_ne_nil hne, hrest.nonempty⟩
      · rw [lines_eq hne]
        exact List.forall_mem_cons.mpr ⟨cut_inner sep text, hrest.inner⟩
      · rw [lines_eq hne]
        cases hmore : lines sep (cut sep text).2 with
        | nil => simp
        | cons line rest =>
          rw [List.dropLast_cons_cons]
          refine List.forall_mem_cons.mpr ⟨cut_ended fun h => ?_, hmore ▸ hrest.ended⟩
          rw [h, lines] at hmore
          exact absurd hmore (List.cons_ne_nil _ _).symm

end OsShell.Lines
