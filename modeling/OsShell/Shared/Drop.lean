import OsShell.Library.Holders
import OsShell.Shared.Code

/-!
# What a drop destroys

A drop may delete an object, which drops the handles in it, and so on. `Cascade`
holds between any two of these steps. The handles in `X` are those that have been
dropped and still stand; `D` are the objects that may go, and `K` are handles that
stay, one for each object that must not go.
-/

namespace OsShell.Shared

open Holders

variable {L : Type}

section Fields

variable {s : Memory L} {l r : L} {o o' : ℕ} {x : Object L}

namespace Memory

@[simp] theorem setCount_ptr (c : ℕ) : (s.setCount o x c).ptr = s.ptr := rfl
theorem setCount_objects_of_ne (ho : o' ≠ o) (c : ℕ) :
    (s.setCount o x c).objects o' = s.objects o' :=
  Function.update_of_ne ho ..

@[simp] theorem setCount_objects_self (c : ℕ) :
    (s.setCount o x c).objects o = some { x with refCount := c } :=
  Function.update_self ..

theorem member_setCount (hx : s.objects o = some x) (c : ℕ) :
    (s.setCount o x c).Member r o' ↔ s.Member r o' := by
  by_cases ho : o' = o
  · subst ho
    simp [Member, hx]
  · simp [Member, setCount_objects_of_ne ho]

theorem setCount_objects_eq_none (hx : s.objects o = some x) (c : ℕ) :
    (s.setCount o x c).objects o' = none ↔ s.objects o' = none := by
  by_cases ho : o' = o
  · subst ho
    simp [hx]
  · rw [setCount_objects_of_ne ho]

@[simp] theorem finish_objects_self : (s.finish o).objects o = none :=
  Function.update_self ..

theorem finish_objects_of_ne (ho : o' ≠ o) : (s.finish o).objects o' = s.objects o' :=
  Function.update_of_ne ho ..

theorem member_finish : (s.finish o).Member r o' ↔ o' ≠ o ∧ s.Member r o' := by
  by_cases ho : o' = o
  · subst ho
    simp [Member]
  · simp [Member, finish_objects_of_ne ho, ho]

theorem addFetch_minusOne (hx : s.objects o = some x) (hpos : 0 < x.refCount)
    (hlt : x.refCount < 2 ^ 32) :
    s.addFetch o minusOne = some (x.refCount - 1, s.setCount o x (x.refCount - 1)) := by
  have hcount : (x.refCount + minusOne) % 2 ^ 32 = x.refCount - 1 := by
    rw [minusOne]
    omega
  simp only [addFetch, hx, hcount]

theorem addFetch_one (hx : s.objects o = some x) (hlt : x.refCount + 1 < 2 ^ 32) :
    s.addFetch o 1 = some (x.refCount + 1, s.setCount o x (x.refCount + 1)) := by
  simp only [addFetch, hx, Nat.mod_eq_of_lt hlt]

variable [DecidableEq L]

@[simp] theorem put_ptr_self (h : Option (Option ℕ)) : (s.put l h).ptr l = h :=
  Function.update_self ..

theorem put_ptr_of_ne (hr : r ≠ l) (h : Option (Option ℕ)) : (s.put l h).ptr r = s.ptr r :=
  Function.update_of_ne hr ..

theorem store_eq (hl : s.ptr l ≠ none) (p : Option ℕ) : s.store l p = some (s.put l (some p)) :=
  if_pos (Option.isSome_iff_ne_none.mpr hl)

end Memory

end Fields

structure Shrinks (D : ℕ → Prop) (A : L → Prop) (s t : Memory L) : Prop where
  ptr : ∀ r, ¬ A r → (∀ o, D o → ¬ s.Member r o) → t.ptr r = s.ptr r
  less : ∀ r o, t.ptr r = some (some o) → s.ptr r = some (some o)
  member : ∀ r o, t.Member r o → s.Member r o
  kept : ∀ o, ¬ D o → s.objects o ≠ none → t.objects o ≠ none
  zero : ∀ o x, t.objects o = some x → x.refCount = 0 → ∃ y, s.objects o = some y ∧ y.refCount = 0
  next : t.next = s.next
  length : s.destroyed.length ≤ t.destroyed.length

namespace Shrinks

variable {D : ℕ → Prop} {A B C : L → Prop} {s t u : Memory L}

theorem refl (D : ℕ → Prop) (A : L → Prop) (s : Memory L) : Shrinks D A s s where
  ptr _ _ _ := rfl
  less _ _ h := h
  member _ _ h := h
  kept _ _ h := h
  zero _ x hx hzero := ⟨x, hx, hzero⟩
  next := rfl
  length := le_rfl

theorem trans (h : Shrinks D A s t) (h' : Shrinks D B t u) (hA : ∀ r, A r → C r)
    (hB : ∀ r, B r → (∀ o, D o → ¬ s.Member r o) → C r) : Shrinks D C s u where
  ptr r hC hr := by
    rw [h'.ptr r (fun hb => hC (hB r hb hr)) fun o ho hm => hr o ho (h.member r o hm),
      h.ptr r (fun ha => hC (hA r ha)) hr]
  less r o hr := h.less r o (h'.less r o hr)
  member r o hr := h.member r o (h'.member r o hr)
  kept o hD ho := h'.kept o hD (h.kept o hD ho)
  zero o x hx hzero := by
    obtain ⟨y, hy, hyzero⟩ := h'.zero o x hx hzero
    exact h.zero o y hy hyzero
  next := h'.next.trans h.next
  length := h.length.trans h'.length

theorem setCount {o : ℕ} {x : Object L} (hx : s.objects o = some x) {c : ℕ} (hc : c ≠ 0) :
    Shrinks D A s (s.setCount o x c) where
  ptr _ _ _ := rfl
  less _ _ h := h
  member _ _ h := (Memory.member_setCount hx c).mp h
  kept o' _ ho := (Memory.setCount_objects_eq_none hx c).not.mpr ho
  zero o' x' hx' hzero := by
    by_cases ho : o' = o
    · subst ho
      rw [Memory.setCount_objects_self] at hx'
      obtain rfl := Option.some.inj hx'
      exact absurd hzero hc
    · rw [Memory.setCount_objects_of_ne ho] at hx'
      exact ⟨x', hx', hzero⟩
  next := rfl
  length := le_rfl

theorem finish {o : ℕ} {x : Object L} (hx : s.objects o = some x) (hD : D o) (c : ℕ) :
    Shrinks D A s ((s.setCount o x c).finish o) where
  ptr _ _ _ := rfl
  less _ _ h := h
  member _ _ h := (Memory.member_setCount hx c).mp (Memory.member_finish.mp h).2
  kept o' hD' ho := by
    have hne : o' ≠ o := fun heq => hD' (heq ▸ hD)
    rwa [Memory.finish_objects_of_ne hne, Memory.setCount_objects_of_ne hne]
  zero o' x' hx' hzero := by
    by_cases ho : o' = o
    · subst ho
      simp at hx'
    · rw [Memory.finish_objects_of_ne ho, Memory.setCount_objects_of_ne ho] at hx'
      exact ⟨x', hx', hzero⟩
  next := rfl
  length := by simp [Memory.finish, Memory.setCount]

theorem put [DecidableEq L] {l : L} {w : Option (Option ℕ)} (hw : ∀ o, w ≠ some (some o)) :
    Shrinks D (· = l) s (s.put l w) where
  ptr r hr _ := Memory.put_ptr_of_ne hr w
  less r o hr := by
    by_cases hne : r = l
    · rw [hne, Memory.put_ptr_self] at hr
      exact absurd hr (hw o)
    · rwa [Memory.put_ptr_of_ne hne] at hr
  member _ _ h := h
  kept _ _ h := h
  zero _ x hx hzero := ⟨x, hx, hzero⟩
  next := rfl
  length := le_rfl

end Shrinks

variable [DecidableEq L] [Fintype L]

/-- Every object counts the handles that point to it, but for those in `X`. -/
structure Settled (X : Finset L) (s : Memory L) : Prop where
  counted : ∀ o x, s.objects o = some x → x.refCount = (holders s.ptr X (some o)).card
  live : ∀ l o, s.ptr l = some (some o) → l ∉ X → s.objects o ≠ none
  stands : ∀ l o, s.Member l o → s.ptr l ≠ none
  nodup : ∀ o x, s.objects o = some x → x.members.Nodup
  disjoint : ∀ l o o', s.Member l o → s.Member l o' → o = o'
  created : ∀ o, s.next ≤ o → s.objects o = none
  once : s.destroyed.Nodup
  destroyed : ∀ o, o ∈ s.destroyed ↔ o < s.next ∧ s.objects o = none

namespace Settled

variable {X Y : Finset L} {s : Memory L} {l : L} {o : ℕ} {x : Object L}

theorem length_le (h : Settled X s) : s.destroyed.length ≤ s.next := by
  have hsub : s.destroyed ⊆ List.range s.next := fun o ho =>
    List.mem_range.mpr ((h.destroyed o).mp ho).1
  simpa using (h.once.subperm hsub).length_le

theorem setCount (h : Settled X s) (hx : s.objects o = some x) {c : ℕ}
    (hcount : c = (holders s.ptr Y (some o)).card)
    (hother : ∀ o', o' ≠ o → holders s.ptr Y (some o') = holders s.ptr X (some o'))
    (hlive : ∀ r o', s.ptr r = some (some o') → r ∉ Y → o' ≠ o → r ∉ X) :
    Settled Y (s.setCount o x c) where
  counted o' x' hx' := by
    by_cases ho : o' = o
    · subst ho
      rw [Memory.setCount_objects_self] at hx'
      obtain rfl := Option.some.inj hx'
      exact hcount
    · rw [Memory.setCount_objects_of_ne ho] at hx'
      rw [h.counted o' x' hx', Memory.setCount_ptr, hother o' ho]
  live r o' hr hY := by
    rw [Ne, Memory.setCount_objects_eq_none hx]
    by_cases ho : o' = o
    · rw [ho, hx]
      exact Option.some_ne_none x
    · exact h.live r o' hr (hlive r o' hr hY ho)
  stands r o' hr := h.stands r o' ((Memory.member_setCount hx c).mp hr)
  nodup o' x' hx' := by
    by_cases ho : o' = o
    · subst ho
      rw [Memory.setCount_objects_self] at hx'
      obtain rfl := Option.some.inj hx'
      exact h.nodup o' x hx
    · rw [Memory.setCount_objects_of_ne ho] at hx'
      exact h.nodup o' x' hx'
  disjoint r o₁ o₂ h₁ h₂ :=
    h.disjoint r o₁ o₂ ((Memory.member_setCount hx c).mp h₁) ((Memory.member_setCount hx c).mp h₂)
  created o' ho' := (Memory.setCount_objects_eq_none hx c).mpr (h.created o' ho')
  once := h.once
  destroyed o' := by
    rw [Memory.setCount_objects_eq_none hx]
    exact h.destroyed o'

theorem leave (h : Settled X s) (hl : s.ptr l = some (some o)) (hX : l ∉ X)
    (hx : s.objects o = some x) : 0 < x.refCount ∧
      Settled (insert l X) (s.setCount o x (x.refCount - 1)) := by
  have hcard := card_leave hl hX
  have hcounted := h.counted o x hx
  refine ⟨by omega, h.setCount hx (by omega) (fun o' ho => ?_) fun r o' _ hr _ => ?_⟩
  · exact holders_leave fun heq => ho (Option.some.inj (Option.some.inj (heq.symm.trans hl)))
  · exact fun hrX => hr (Finset.mem_insert_of_mem hrX)

theorem join (h : Settled (insert l X) s) (hl : s.ptr l = some (some o)) (hX : l ∉ X)
    (hx : s.objects o = some x) : Settled X (s.setCount o x (x.refCount + 1)) := by
  have hcard := card_leave hl hX
  have hcounted := h.counted o x hx
  refine h.setCount hx (by omega) (fun o' ho => ?_) fun r o' hr hrX ho => ?_
  · exact (holders_leave fun heq =>
      ho (Option.some.inj (Option.some.inj (heq.symm.trans hl)))).symm
  · rw [Finset.mem_insert]
    rintro (rfl | hin)
    · exact ho (Option.some.inj (Option.some.inj (hr.symm.trans hl)))
    · exact hrX hin

theorem put (h : Settled X s) (hl : l ∈ X) {w : Option (Option ℕ)}
    (hw : w = none → ∀ o, ¬ s.Member l o) : Settled X (s.put l w) where
  counted o x hx := by
    rw [h.counted o x hx, Memory.put, holders_update hl]
  live r o hr hX := by
    have hne : r ≠ l := by
      rintro rfl
      exact hX hl
    rw [Memory.put_ptr_of_ne hne] at hr
    exact h.live r o hr hX
  stands r o hr := by
    by_cases hne : r = l
    · rw [hne, Memory.put_ptr_self]
      exact fun hnone => hw hnone o (hne ▸ hr)
    · rw [Memory.put_ptr_of_ne hne]
      exact h.stands r o hr
  nodup := h.nodup
  disjoint := h.disjoint
  created := h.created
  once := h.once
  destroyed := h.destroyed

theorem congr (h : Settled X s)
    (hcard : ∀ o, (holders s.ptr Y (some o)).card = (holders s.ptr X (some o)).card)
    (hlive : ∀ r o, s.ptr r = some (some o) → r ∉ Y → ∃ r', s.ptr r' = some (some o) ∧ r' ∉ X) :
    Settled Y s where
  counted o x hx := by rw [h.counted o x hx, hcard]
  live r o hr hY := by
    obtain ⟨r', hr', hX⟩ := hlive r o hr hY
    exact h.live r' o hr' hX
  stands := h.stands
  nodup := h.nodup
  disjoint := h.disjoint
  created := h.created
  once := h.once
  destroyed := h.destroyed

theorem of_null (h : Settled X s) (hl : ∀ o, s.ptr l ≠ some (some o)) :
    Settled (insert l X) s := by
  refine h.congr (fun o => by rw [holders_leave (hl o)]) fun r o hr hY => ⟨r, hr, fun hX => ?_⟩
  exact hY (Finset.mem_insert_of_mem hX)

theorem to_null (h : Settled (insert l X) s) (hl : ∀ o, s.ptr l ≠ some (some o)) :
    Settled X s := by
  refine h.congr (fun o => by rw [holders_leave (hl o)]) fun r o hr hY => ⟨r, hr, fun hX => ?_⟩
  rcases Finset.mem_insert.mp hX with rfl | hX
  · exact hl o hr
  · exact hY hX

theorem swap {r : L} (h : Settled (insert l X) s) (heq : s.ptr l = s.ptr r) (hl : l ∉ X)
    (hr : r ∉ X) : Settled (insert r X) s := by
  refine h.congr (fun o => card_swap heq.symm hr hl) fun r' o hr' hY => ?_
  by_cases hrl : r' = l
  · by_cases hne : r = l
    · exact absurd (Finset.mem_insert.mpr (.inl (hrl.trans hne.symm))) hY
    · refine ⟨r, heq ▸ hrl ▸ hr', fun hin => ?_⟩
      exact (Finset.mem_insert.mp hin).elim hne hr
  · refine ⟨r', hr', fun hin => (Finset.mem_insert.mp hin).elim hrl fun hX => ?_⟩
    exact hY (Finset.mem_insert_of_mem hX)

theorem remove (h : Settled (insert l X) s) (hl : ∀ o, ¬ s.Member l o) :
    Settled X (s.put l none) :=
  (h.put (Finset.mem_insert_self l X) fun _ => hl).to_null fun o => by simp

theorem finish (h : Settled X s) (hx : s.objects o = some x) (hzero : x.refCount = 0) :
    Settled X (s.finish o) where
  counted o' x' hx' := by
    have ho : o' ≠ o := by
      rintro rfl
      simp at hx'
    rw [Memory.finish_objects_of_ne ho] at hx'
    exact h.counted o' x' hx'
  live r o' hr hX := by
    have ho : o' ≠ o := by
      rintro rfl
      have := h.counted o' x hx
      rw [hzero] at this
      exact hX (holders_zero.mp this.symm r hr)
    rw [Memory.finish_objects_of_ne ho]
    exact h.live r o' hr hX
  stands r o' hr := h.stands r o' (Memory.member_finish.mp hr).2
  nodup o' x' hx' := by
    have ho : o' ≠ o := by
      rintro rfl
      simp at hx'
    rw [Memory.finish_objects_of_ne ho] at hx'
    exact h.nodup o' x' hx'
  disjoint r o₁ o₂ h₁ h₂ :=
    h.disjoint r o₁ o₂ (Memory.member_finish.mp h₁).2 (Memory.member_finish.mp h₂).2
  created o' ho' := by
    by_cases ho : o' = o
    · rw [ho, Memory.finish_objects_self]
    · rw [Memory.finish_objects_of_ne ho]
      exact h.created o' ho'
  once := by
    refine List.nodup_append.mpr ⟨h.once, List.nodup_singleton o, fun a ha b hb => ?_⟩
    rintro rfl
    rw [List.mem_singleton.mp hb, h.destroyed, hx] at ha
    exact nomatch ha.2
  destroyed o' := by
    rw [Memory.finish, List.mem_append, List.mem_singleton, h.destroyed]
    by_cases ho : o' = o
    · have hlt : o < s.next := by
        by_contra hle
        rw [h.created o (by omega)] at hx
        nomatch hx
      simp [ho, hlt]
    · simp [ho]

end Settled

/-- What holds during a drop that may destroy the objects in `D` only. -/
structure Cascade (D : ℕ → Prop) (K : L → Prop) (X : Finset L) (s : Memory L) : Prop
    extends Settled X s where
  spared : ∀ r o, K r → D o → ¬ s.Member r o
  keeps : ∀ r o, s.ptr r = some (some o) → ¬ D o → ∃ r', K r' ∧ s.ptr r' = some (some o)
  dropped : ∀ r ∈ X, ¬ K r ∧ ∀ o, D o → ¬ s.Member r o

namespace Cascade

variable {D : ℕ → Prop} {K : L → Prop} {X Y : Finset L} {A : L → Prop} {s t : Memory L} {l : L}

theorem of_shrinks (h : Cascade D K X s) (ht : Settled Y t) (hst : Shrinks D A s t)
    (hA : ∀ r, A r → ¬ K r) (hY : ∀ r ∈ Y, r ∈ X ∨ ¬ K r ∧ ∀ o, D o → ¬ s.Member r o) :
    Cascade D K Y t where
  toSettled := ht
  spared r o hr ho hm := h.spared r o hr ho (hst.member r o hm)
  keeps r o hr ho := by
    obtain ⟨r', hK, hr'⟩ := h.keeps r o (hst.less r o hr) ho
    refine ⟨r', hK, ?_⟩
    rw [hst.ptr r' (fun ha => hA r' ha hK) fun o' => h.spared r' o' hK]
    exact hr'
  dropped r hr := by
    obtain ⟨hK, hD⟩ := (hY r hr).elim (h.dropped r) id
    exact ⟨hK, fun o ho hm => hD o ho (hst.member r o hm)⟩

end Cascade

variable {D : ℕ → Prop} {K : L → Prop} {X : Finset L} {s : Memory L}

def Drops (D : ℕ → Prop) (K : L → Prop) (X : Finset L) (l : L) (s : Memory L)
    (result : Option (Memory L)) : Prop :=
  ∃ t, result = some t ∧ Cascade D K (insert l X) t ∧ Shrinks D (· = l) s t ∧ t.ptr l ≠ none

theorem members_spec {depth : ℕ}
    (hdrop : ∀ l s, Cascade D K X s → l ∉ X → ¬ K l → (∀ o, D o → ¬ s.Member l o) →
      s.ptr l ≠ none → s.next < s.destroyed.length + depth →
      Drops D K X l s (Memory.drop depth l s))
    (ms : List L) (s : Memory L) (h : Cascade D K X s) (hnodup : ms.Nodup)
    (hms : ∀ m ∈ ms, s.ptr m ≠ none ∧ m ∉ X ∧ ¬ K m ∧ ∀ o, ¬ s.Member m o)
    (hdepth : s.next < s.destroyed.length + depth) :
    ∃ t, ms.foldlM (fun s m => do
        let s ← Memory.drop depth m s
        return s.put m none) s = some t ∧ Cascade D K X t ∧ Shrinks D (· ∈ ms) s t := by
  induction ms generalizing s with
  | nil => exact ⟨s, rfl, h, .refl D _ s⟩
  | cons m ms ih =>
    obtain ⟨hstands, hX, hK, hloose⟩ := hms m List.mem_cons_self
    obtain ⟨t, ht, hcascade, hshrinks, hptr⟩ :=
      hdrop m s h hX hK (fun o _ => hloose o) hstands hdepth
    have hput : Shrinks D (· = m) t (t.put m none) := .put fun o => by simp
    have hall := hshrinks.trans (C := (· = m)) hput (fun _ hr => hr) fun _ hr _ => hr
    have hu : Cascade D K X (t.put m none) := by
      refine h.of_shrinks ?_ hall ?_ fun r hr => .inl hr
      · exact hcascade.toSettled.remove fun o hm => hloose o (hshrinks.member m o hm)
      · rintro r rfl
        exact hK
    obtain ⟨hm, hms'⟩ := List.nodup_cons.mp hnodup
    obtain ⟨u, hfold, hcascade', hshrinks'⟩ := ih (t.put m none) hu hms' (fun m' hm' => by
      obtain ⟨hstands', hX', hK', hloose'⟩ := hms m' (List.mem_cons_of_mem _ hm')
      refine ⟨?_, hX', hK', fun o ho => hloose' o (hall.member m' o ho)⟩
      rw [hall.ptr m' (fun heq => hm (heq ▸ hm')) fun o _ => hloose' o]
      exact hstands') (by
      have := hall.length
      have := hall.next
      omega)
    refine ⟨u, ?_, hcascade', hall.trans hshrinks' (fun r hr => ?_) fun r hr _ => ?_⟩
    · rw [List.foldlM_cons, ht]
      exact hfold
    · exact hr ▸ List.mem_cons_self
    · exact List.mem_cons_of_mem _ hr

theorem drop_spec (hroom : Fintype.card L < 2 ^ 32) (depth : ℕ) : ∀ (X : Finset L) (l : L)
    (s : Memory L), Cascade D K X s → l ∉ X → ¬ K l → (∀ o, D o → ¬ s.Member l o) →
    s.ptr l ≠ none → s.next < s.destroyed.length + depth →
    Drops D K X l s (Memory.drop depth l s) := by
  induction depth with
  | zero =>
    intro X l s h _ _ _ _ hdepth
    have := h.toSettled.length_le
    omega
  | succ depth ih =>
    intro X l s h hX hK hspared hstands hdepth
    have hdropped : ∀ r ∈ insert l X, r ∈ X ∨ ¬ K r ∧ ∀ o, D o → ¬ s.Member r o := by
      intro r hr
      rcases Finset.mem_insert.mp hr with rfl | hr
      · exact .inr ⟨hK, hspared⟩
      · exact .inl hr
    have hnot : ∀ r, r = l → ¬ K r := by
      rintro r rfl
      exact hK
    cases hl : s.ptr l with
    | none => exact absurd hl hstands
    | some p =>
      cases p with
      | none =>
        have hnull : Settled (insert l X) s := h.toSettled.of_null fun o => by simp [hl]
        exact ⟨s, by simp [Memory.drop, hl], h.of_shrinks hnull (.refl D _ s) hnot hdropped,
          .refl D _ s, hstands⟩
      | some o =>
        obtain ⟨x, hx⟩ := Option.ne_none_iff_exists'.mp (h.live l o hl hX)
        obtain ⟨hpos, hleave⟩ := h.toSettled.leave hl hX hx
        have hlt : x.refCount < 2 ^ 32 := by
          rw [h.counted o x hx]
          exact lt_of_le_of_lt (Finset.card_le_univ _) hroom
        have hfetch := Memory.addFetch_minusOne hx hpos hlt
        by_cases hzero : x.refCount - 1 = 0
        · have hD : D o := by
            by_contra hD
            obtain ⟨r, hr, hptr⟩ := h.keeps l o hl hD
            have hcount := hleave.counted o _ (Memory.setCount_objects_self _)
            rcases hdropped r (holders_zero.mp (hcount.symm.trans hzero) r hptr) with hin | hout
            · exact (h.dropped r hin).1 hr
            · exact hout.1 hr
          rw [hzero] at hfetch hleave
          have hfinish := hleave.finish (Memory.setCount_objects_self 0) rfl
          have hshrinks : Shrinks D (· = l) s ((s.setCount o x 0).finish o) := .finish hx hD 0
          have hlmem : l ∉ x.members := fun hm => hspared o hD ⟨x, hx, hm⟩
          -- nothing has the members of a deleted object, so that each is dropped and removed once
          obtain ⟨t, hfold, hcascade, hmembers⟩ := members_spec (ih (insert l X))
            x.members.reverse _ (h.of_shrinks hfinish hshrinks hnot hdropped)
            (List.nodup_reverse.mpr (h.nodup o x hx)) (fun m hm => by
              have hm : s.Member m o := ⟨x, hx, List.mem_reverse.mp hm⟩
              refine ⟨h.stands m o hm, fun hin => ?_, fun hKm => h.spared m o hKm hD hm,
                fun o' hm' => ?_⟩
              · rcases Finset.mem_insert.mp hin with rfl | hin
                · exact hspared o hD hm
                · exact (h.dropped m hin).2 o hD hm
              · obtain ⟨hne, hm'⟩ := Memory.member_finish.mp hm'
                exact hne (h.disjoint m o' o ((Memory.member_setCount hx 0).mp hm') hm)) (by
              simp only [Memory.finish, Memory.setCount, List.length_append, List.length_singleton]
              omega)
          have hptr : t.ptr l = some (some o) := by
            rw [hmembers.ptr l (fun hm => hlmem (List.mem_reverse.mp hm)) fun o' ho' hm =>
              hspared o' ho' (hshrinks.member l o' hm)]
            exact hl
          have hall := (hshrinks.trans (C := (· = l)) hmembers (fun _ hr => hr) fun r hr hout =>
            absurd ⟨x, hx, List.mem_reverse.mp hr⟩ (hout o hD)).trans (C := (· = l))
            (.put (l := l) (w := some none) fun o' => by simp) (fun _ hr => hr) fun _ hr _ => hr
          refine ⟨t.put l (some none), ?_, h.of_shrinks ?_ hall hnot hdropped, hall, by simp⟩
          · have hms : (s.setCount o x 0).members o = x.members := by simp [Memory.members]
            simp only [Memory.drop, hl, hfetch, if_true, hms, hfold]
            exact Memory.store_eq (by rw [hptr]; simp) none
          · exact hcascade.toSettled.put (Finset.mem_insert_self l X) (by simp)
        · have hshrinks : Shrinks D (· = l) s (s.setCount o x (x.refCount - 1)) :=
            .setCount hx hzero
          exact ⟨s.setCount o x (x.refCount - 1), by simp [Memory.drop, hl, hfetch, hzero],
            h.of_shrinks hleave hshrinks hnot hdropped, hshrinks, hstands⟩

end OsShell.Shared
