import Mathlib

/-!
# Pieces handed over

A source is handed over piece by piece. What comes back for a piece is negative when the
piece is lost, and after a loss something foreign may be handed over before the next piece.
`Settled` says of what came back that nothing was taken any more after the first loss.
-/

namespace OsShell.Delivery

variable {α : Type*}

/-- The source, what has been accepted, and what came back. -/
inductive Delivered (foreign : α → Prop) : List α → List α → List ℤ → Prop
  | done : Delivered foreign [] [] []
  | moved {piece source accepted : List α} {results : List ℤ} {m : ℤ} (hm : 0 ≤ m)
    (hpiece : piece ≠ []) (rest : Delivered foreign source accepted results) :
    Delivered foreign (piece ++ source) (piece ++ accepted) (m :: results)
  | lost {piece text source accepted : List α} {answers results : List ℤ} {m : ℤ} (hm : m < 0)
    (hpiece : piece ≠ []) (htext : text = [] ↔ ∀ m ∈ answers, m < 0)
    (hforeign : ∀ x ∈ text, foreign x)
    (rest : Delivered foreign source accepted results) :
    Delivered foreign (piece ++ source) (text ++ accepted) (m :: (answers ++ results))

def Settled (results : List ℤ) : Prop := results.Pairwise fun m m' => m < 0 → m' < 0

variable {foreign : α → Prop} {source accepted : List α} {results : List ℤ}

theorem Delivered.eq_of_nonneg (h : Delivered foreign source accepted results)
    (hall : ∀ m ∈ results, 0 ≤ m) : accepted = source := by
  induction h with
  | done => rfl
  | moved hm hpiece rest ih => rw [ih fun m hm => hall m (List.mem_cons_of_mem _ hm)]
  | lost hm hpiece htext hforeign rest ih =>
    exact absurd (hall _ List.mem_cons_self) (Int.not_le.mpr hm)

theorem Delivered.eq_nil_iff (h : Delivered foreign source accepted results) :
    accepted = [] ↔ ∀ m ∈ results, m < 0 := by
  induction h with
  | done => exact iff_of_true rfl (by simp)
  | moved hm hpiece rest ih =>
    refine iff_of_false (fun h => hpiece (List.append_eq_nil_iff.mp h).1) fun h => ?_
    exact absurd (h _ List.mem_cons_self) (Int.not_lt.mpr hm)
  | lost hm hpiece htext hforeign rest ih =>
    rw [List.append_eq_nil_iff, htext, ih, List.forall_mem_cons, List.forall_mem_append,
      and_iff_right hm]

theorem Delivered.mem (h : Delivered foreign source accepted results) {x : α} (hx : x ∈ accepted) :
    x ∈ source ∨ foreign x := by
  induction h with
  | done => exact .inl hx
  | moved hm hpiece rest ih =>
    rcases List.mem_append.mp hx with hx | hx
    · exact .inl (List.mem_append_left _ hx)
    · exact (ih hx).imp_left (List.mem_append_right _)
  | lost hm hpiece htext hforeign rest ih =>
    rcases List.mem_append.mp hx with hx | hx
    · exact .inr (hforeign x hx)
    · exact (ih hx).imp_left (List.mem_append_right _)

theorem Settled.cons_neg_iff {m : ℤ} (hm : m < 0) :
    Settled (m :: results) ↔ ∀ m ∈ results, m < 0 := by
  rw [Settled, List.pairwise_cons]
  constructor
  · exact fun h m' hm' => h.1 m' hm' hm
  · intro h
    refine ⟨fun m' hm' _ => h m' hm', List.pairwise_of_forall_mem_list fun _ _ m' hm' _ => ?_⟩
    exact h m' hm'

theorem Settled.cons_nonneg_iff {m : ℤ} (hm : 0 ≤ m) :
    Settled (m :: results) ↔ Settled results := by
  rw [Settled, List.pairwise_cons]
  exact and_iff_right fun _ _ hneg => absurd hneg (Int.not_lt.mpr hm)

/-- When nothing is taken after a loss, the beginning of the source has been accepted. -/
theorem Delivered.prefix_of_settled (h : Delivered foreign source accepted results)
    (hsettled : Settled results) : accepted <+: source := by
  induction h with
  | done => exact List.prefix_rfl
  | moved hm hpiece rest ih =>
    exact (List.prefix_append_right_inj _).mpr (ih ((Settled.cons_nonneg_iff hm).mp hsettled))
  | lost hm hpiece htext hforeign rest ih =>
    have hneg := List.forall_mem_append.mp ((Settled.cons_neg_iff hm).mp hsettled)
    rw [htext.mpr hneg.1, rest.eq_nil_iff.mpr hneg.2]
    exact List.nil_prefix

/-- The converse, when the elements of the source can be told apart from each other and from what is
foreign. -/
theorem Delivered.settled_of_prefix (h : Delivered foreign source accepted results)
    (hnodup : source.Nodup) (hforeign : ∀ x ∈ source, ¬ foreign x) (hfront : accepted <+: source) :
    Settled results := by
  induction h with
  | done => exact List.Pairwise.nil
  | moved hm hpiece rest ih =>
    have hrest := ih hnodup.of_append_right (fun x hx => hforeign x (List.mem_append_right _ hx))
      ((List.prefix_append_right_inj _).mp hfront)
    exact (Settled.cons_nonneg_iff hm).mpr hrest
  | @lost piece text source accepted answers results m hm hpiece htext htext' rest ih =>
    obtain ⟨p, piece, rfl⟩ := List.exists_cons_of_ne_nil hpiece
    -- what is taken next would have to be the first element that has been lost
    have hnil : text ++ accepted = [] := by
      by_contra hne
      obtain ⟨x, xs, hcons⟩ := List.exists_cons_of_ne_nil hne
      rw [hcons, List.cons_append, List.cons_prefix_cons] at hfront
      obtain ⟨rfl, -⟩ := hfront
      rw [List.cons_append, List.nodup_cons, List.mem_append, not_or] at hnodup
      have hx : x ∈ text ++ accepted := hcons ▸ List.mem_cons_self
      have hnot := hforeign x List.mem_cons_self
      rcases List.mem_append.mp hx with hx | hx
      · exact hnot (htext' x hx)
      · exact (rest.mem hx).elim hnodup.1.2 hnot
    obtain ⟨htextNil, hacceptedNil⟩ := List.append_eq_nil_iff.mp hnil
    exact (Settled.cons_neg_iff hm).mpr
      (List.forall_mem_append.mpr ⟨htext.mp htextNil, rest.eq_nil_iff.mp hacceptedNil⟩)

/-- Places in a source and other values: they are the beginning of the source if and only if they are
so whatever values the source has. -/
theorem forall_map_prefix_iff {β : Type*} [Nontrivial β] {accepted : List (ℕ ⊕ β)} {n : ℕ} :
    (∀ content : ℕ → β, accepted.map (Sum.elim content id) <+: (List.range n).map content) ↔
      accepted <+: (List.range n).map Sum.inl := by
  constructor
  · intro h
    rw [List.prefix_iff_getElem?]
    intro i hi
    have hvalue : ∀ content : ℕ → β, i < n ∧ content i = Sum.elim content id accepted[i] := by
      intro content
      have hget := List.prefix_iff_getElem?.mp (h content) i (by rwa [List.length_map])
      rw [List.getElem_map, List.getElem?_map, Option.map_eq_some_iff] at hget
      obtain ⟨j, hj, hvalue⟩ := hget
      obtain ⟨hlt, rfl⟩ := List.getElem?_eq_some_iff.mp hj
      rw [List.getElem_range] at hvalue
      exact ⟨by simpa using hlt, hvalue⟩
    have hplace : accepted[i] = .inl i := by
      cases hcase : accepted[i] with
      | inl p =>
        by_contra hne
        obtain ⟨b, c, hbc⟩ := exists_pair_ne β
        have hupdate := (hvalue (Function.update (fun _ => b) p c)).2
        rw [hcase, Sum.elim_inl, Function.update_self,
          Function.update_of_ne fun hip => hne (congrArg Sum.inl hip.symm)] at hupdate
        exact hbc hupdate
      | inr x =>
        obtain ⟨y, hy⟩ := exists_ne x
        have hconst := (hvalue fun _ => y).2
        rw [hcase] at hconst
        exact absurd hconst hy
    obtain ⟨y, -⟩ := exists_pair_ne β
    rw [hplace, List.getElem?_map, List.getElem?_range (hvalue fun _ => y).1]
    rfl
  · rintro ⟨rest, hrest⟩ content
    have hmap := congrArg (List.map (Sum.elim content id)) hrest
    rw [List.map_append, List.map_map] at hmap
    exact ⟨_, hmap⟩

end OsShell.Delivery
