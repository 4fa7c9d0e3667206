import OsShell.Shared.Drop

/-!
# Reference counts

An assignment drops what its handle points to before it looks at the other side
or counts it. That is right as long as neither side goes down with the drop.
`Falls` says what goes down: an object that only `l` keeps, or handles in such
objects.
-/

namespace OsShell.Shared

open Holders Runs

variable {L : Type} [DecidableEq L]

/-- Every other handle to the object is a member of one that goes down too. -/
inductive Falls (s : Memory L) (l : L) : ℕ → Prop
  | intro {o : ℕ} (hlive : s.objects o ≠ none) (owner : L → ℕ)
      (hmember : ∀ r, s.ptr r = some (some o) → r ≠ l → s.Member r (owner r))
      (hfalls : ∀ r, s.ptr r = some (some o) → r ≠ l → Falls s l (owner r)) : Falls s l o

def Outside (s : Memory L) (l m : L) : Prop :=
  ∀ o, Falls s l o → ¬ s.Member m o

/-- An assignment that drops: the handle assigned to stays, so does the object assigned, and a
handle moved from stays. -/
def Op.Safe (s : Memory L) : Op L → Prop
  | .assignRaw l rhs => s.ptr l ≠ some rhs → Outside s l l ∧ ∀ o, rhs = some o → ¬ Falls s l o
  | .assignNew l _ => Outside s l l
  | .assign l rhs => ∀ p, s.ptr rhs = some p → s.ptr l ≠ some p →
      Outside s l l ∧ ∀ o, p = some o → ¬ Falls s l o
  | .moveAssign l rhs => Outside s l l ∧ Outside s l rhs
  | _ => True

def Keeps (D : ℕ → Prop) (l : L) (s : Memory L) : Prop :=
  ∀ r o, s.ptr r = some (some o) → ¬ D o →
    ∃ r', (r' ≠ l ∧ ∀ o', D o' → ¬ s.Member r' o') ∧ s.ptr r' = some (some o)

variable [Fintype L]

/-- The counts are exact, no handle points to a destroyed object, and an object is destroyed, once,
where no handle points to it. -/
structure Exact (s : Memory L) : Prop where
  counted : ∀ o x, s.objects o = some x →
    x.refCount = (Finset.univ.filter fun l => s.ptr l = some (some o)).card
  pointed : ∀ l o, s.ptr l = some (some o) → o < s.next ∧ s.objects o ≠ none ∧ o ∉ s.destroyed
  once : s.destroyed.Nodup
  destroyed : ∀ o, o ∈ s.destroyed ↔ o < s.next ∧ ∀ l, s.ptr l ≠ some (some o)

structure Steady (s : Memory L) : Prop extends Settled ∅ s where
  held : ∀ o x, s.objects o = some x → x.refCount ≠ 0

theorem Steady.exact {s : Memory L} (h : Steady s) : Exact s where
  counted o x hx := by
    rw [h.counted o x hx, holders]
    simp
  pointed l o hl := by
    have hlive := h.live l o hl (Finset.notMem_empty l)
    refine ⟨?_, hlive, fun ho => hlive ((h.destroyed o).mp ho).2⟩
    by_contra hle
    exact hlive (h.created o (by omega))
  once := h.once
  destroyed o := by
    rw [h.destroyed]
    refine and_congr_right fun ho => ⟨fun hnone l hl => ?_, fun hall => ?_⟩
    · exact h.live l o hl (Finset.notMem_empty l) hnone
    · by_contra hsome
      obtain ⟨x, hx⟩ := Option.ne_none_iff_exists'.mp hsome
      have hzero : (holders s.ptr ∅ (some o)).card = 0 :=
        holders_zero.mpr fun r hr => absurd hr (hall r)
      exact h.held o x hx ((h.counted o x hx).trans hzero)

section Operations

variable {s : Memory L} {l rhs : L} {p : Option ℕ}

theorem Settled.keeps (h : Settled ∅ s) : Keeps (Falls s l) l s := by
  intro r o hr hD
  by_contra hnone
  have howner : ∀ r', ∃ o', s.ptr r' = some (some o) → r' ≠ l → s.Member r' o' ∧ Falls s l o' := by
    intro r'
    by_contra hout
    push Not at hout
    obtain ⟨hr', hne, -⟩ := hout 0
    exact hnone ⟨r', ⟨hne, fun o' ho' hm => (hout o').2.2 hm ho'⟩, hr'⟩
  choose owner howner using howner
  exact hD (.intro (h.live r o hr (Finset.notMem_empty r)) owner
    (fun r' hr' hne => (howner r' hr' hne).1) fun r' hr' hne => (howner r' hr' hne).2)

theorem dropAt_spec (hroom : Fintype.card L < 2 ^ 32) {D : ℕ → Prop} (h : Settled ∅ s)
    (hkeeps : Keeps D l s) (hl : s.ptr l ≠ none) (hspared : ∀ o, D o → ¬ s.Member l o) :
    ∃ t, s.dropAt l = some t ∧ Settled (insert l ∅) t ∧ Shrinks D (· = l) s t ∧ t.ptr l ≠ none := by
  have hcascade : Cascade D (fun r => r ≠ l ∧ ∀ o, D o → ¬ s.Member r o) ∅ s := {
    toSettled := h
    spared := fun r o hr => hr.2 o
    keeps := hkeeps
    dropped := fun r hr => absurd hr (Finset.notMem_empty r) }
  obtain ⟨t, ht, hcascade', hshrinks, hptr⟩ := drop_spec hroom (s.next + 1) ∅ l s hcascade
    (Finset.notMem_empty l) (fun hK => hK.1 rfl) hspared hl (by omega)
  exact ⟨t, ht, hcascade'.toSettled, hshrinks, hptr⟩

theorem add_spec (hroom : Fintype.card L < 2 ^ 32) (h : Settled (insert l ∅) s)
    (hl : s.ptr l = some p) (hp : ∀ o, p = some o → s.objects o ≠ none)
    (hheld : ∀ o x, s.objects o = some x → x.refCount = 0 → p = some o) :
    ∃ t, s.add l = some t ∧ Steady t := by
  cases p with
  | none =>
    refine ⟨s, by simp [Memory.add, hl], h.to_null fun o => by simp [hl], fun o x hx hzero => ?_⟩
    exact nomatch hheld o x hx hzero
  | some o =>
    obtain ⟨x, hx⟩ := Option.ne_none_iff_exists'.mp (hp o rfl)
    have hlt : x.refCount + 1 < 2 ^ 32 := by
      have := h.counted o x hx
      have := card_holders_lt (f := s.ptr) (v := some o) (Finset.mem_insert_self l ∅)
      omega
    refine ⟨s.setCount o x (x.refCount + 1), ?_, h.join hl (Finset.notMem_empty l) hx,
      fun o' y hy hzero => ?_⟩
    · simp only [Memory.add, hl, Memory.addFetch_one hx hlt]
    · by_cases ho : o' = o
      · subst ho
        rw [Memory.setCount_objects_self] at hy
        obtain rfl := Option.some.inj hy
        simp at hzero
      · rw [Memory.setCount_objects_of_ne ho] at hy
        exact ho (Option.some.inj (hheld o' y hy hzero)).symm

theorem reassign (hroom : Fintype.card L < 2 ^ 32) {D : ℕ → Prop} (h : Settled ∅ s)
    (hheld : ∀ o x, s.objects o = some x → x.refCount = 0 → p = some o) (hkeeps : Keeps D l s)
    (hl : s.ptr l ≠ none) (hspared : ∀ o, D o → ¬ s.Member l o)
    (hp : ∀ o, p = some o → s.objects o ≠ none ∧ ¬ D o) :
    ∃ t, (do
      let s ← s.dropAt l
      let s ← s.store l p
      s.add l) = some t ∧ Steady t := by
  obtain ⟨t, ht, hsettled, hshrinks, hptr⟩ := dropAt_spec hroom h hkeeps hl hspared
  obtain ⟨u, hu, hsteady⟩ := add_spec hroom
    (hsettled.put (w := some p) (Finset.mem_insert_self l ∅) (by simp)) (by simp)
    (fun o ho => hshrinks.kept o (hp o ho).2 (hp o ho).1) fun o x hx hzero => by
      obtain ⟨y, hy, hyzero⟩ := hshrinks.zero o x hx hzero
      exact hheld o y hy hyzero
  refine ⟨u, ?_, hsteady⟩
  simp only [ht, Option.bind_eq_bind, Option.bind_some, Memory.store_eq hptr]
  exact hu

theorem assignRaw_spec (hroom : Fintype.card L < 2 ^ 32) (h : Steady s) (hl : s.ptr l ≠ none)
    (hp : ∀ o, p = some o → s.objects o ≠ none)
    (hsafe : s.ptr l ≠ some p → Outside s l l ∧ ∀ o, p = some o → ¬ Falls s l o) :
    ∃ t, s.assignRaw l p = some t ∧ Steady t := by
  by_cases heq : s.ptr l = some p
  · exact ⟨s, if_neg (not_not.mpr heq), h⟩
  · obtain ⟨hspared, hstays⟩ := hsafe heq
    rw [Memory.assignRaw, if_pos heq]
    exact reassign hroom h.toSettled (fun o x hx hzero => absurd hzero (h.held o x hx))
      h.toSettled.keeps hl hspared fun o ho => ⟨hp o ho, hstays o ho⟩

theorem assign_spec (hroom : Fintype.card L < 2 ^ 32) (h : Steady s) (hl : s.ptr l ≠ none)
    (hrhs : s.ptr rhs ≠ none) (hsafe : (Op.assign l rhs).Safe s) :
    ∃ t, s.assign l rhs = some t ∧ Steady t := by
  obtain ⟨p, hp⟩ := Option.ne_none_iff_exists'.mp hrhs
  have heq : s.assign l rhs = s.assignRaw l p := by simp [Memory.assign, Memory.assignRaw, hp]
  rw [heq]
  exact assignRaw_spec hroom h hl
    (fun o ho => h.live rhs o (ho ▸ hp) (Finset.notMem_empty rhs)) (hsafe p hp)

theorem Settled.release (h : Settled (insert rhs ∅) s) (hheld : ∀ o x, s.objects o = some x →
    x.refCount ≠ 0) : Steady (s.put rhs (some none)) where
  toSettled := (h.put (Finset.mem_insert_self rhs ∅) (by simp)).to_null fun o => by simp
  held := hheld

theorem moveAssign_spec (hroom : Fintype.card L < 2 ^ 32) (h : Steady s) (hl : s.ptr l ≠ none)
    (hrhs : s.ptr rhs ≠ none) (hsafe : (Op.moveAssign l rhs).Safe s) :
    ∃ t, s.moveAssign l rhs = some t ∧ Steady t := by
  obtain ⟨t, ht, hsettled, hshrinks, hptr⟩ :=
    dropAt_spec hroom h.toSettled h.toSettled.keeps hl hsafe.1
  have hrhs' : t.ptr rhs ≠ none := by
    by_cases hne : rhs = l
    · rwa [hne]
    · rwa [hshrinks.ptr rhs hne hsafe.2]
  obtain ⟨p, hp⟩ := Option.ne_none_iff_exists'.mp hrhs'
  have hput : Settled (insert l ∅) (t.put l (some p)) :=
    hsettled.put (Finset.mem_insert_self l ∅) (by simp)
  have hsame : (t.put l (some p)).ptr rhs = some p := by
    by_cases hne : rhs = l
    · rw [hne, Memory.put_ptr_self]
    · rw [Memory.put_ptr_of_ne hne, hp]
  refine ⟨(t.put l (some p)).put rhs (some none), ?_, Settled.release ?_ fun o x hx hzero => ?_⟩
  · simp only [Memory.moveAssign, ht, Option.bind_eq_bind, Option.bind_some, hp,
      Memory.store_eq hptr]
    exact Memory.store_eq (by simp [hsame]) none
  · exact hput.swap ((Memory.put_ptr_self _).trans hsame.symm) (Finset.notMem_empty l)
      (Finset.notMem_empty rhs)
  · obtain ⟨y, hy, hyzero⟩ := hshrinks.zero o x hx hzero
    exact h.held o y hy hyzero

theorem Settled.begin (h : Settled ∅ s) (hl : s.ptr l = none) (p : Option ℕ) :
    Settled (insert l ∅) (s.put l (some p)) :=
  (h.of_null fun o => by simp [hl]).put (Finset.mem_insert_self l ∅) (by simp)

theorem copy_spec (hroom : Fintype.card L < 2 ^ 32) (h : Steady s) (hl : s.ptr l = none)
    (hrhs : s.ptr rhs ≠ none) : ∃ t, s.copy l rhs = some t ∧ Steady t := by
  obtain ⟨p, hp⟩ := Option.ne_none_iff_exists'.mp hrhs
  simp only [Memory.copy, hp]
  exact add_spec hroom (h.toSettled.begin hl p) (Memory.put_ptr_self _)
    (fun o ho => h.live rhs o (ho ▸ hp) (Finset.notMem_empty rhs))
    fun o x hx hzero => absurd hzero (h.held o x hx)

theorem move_spec (h : Steady s) (hl : s.ptr l = none) (hrhs : s.ptr rhs ≠ none) :
    ∃ t, s.move l rhs = some t ∧ Steady t := by
  obtain ⟨p, hp⟩ := Option.ne_none_iff_exists'.mp hrhs
  have hne : rhs ≠ l := by
    rintro rfl
    exact hrhs hl
  have hptr : (s.put l (some p)).ptr rhs = some p := (Memory.put_ptr_of_ne hne _).trans hp
  refine ⟨(s.put l (some p)).put rhs (some none), ?_, Settled.release ?_ h.held⟩
  · simp only [Memory.move, hp]
    exact Memory.store_eq (by simp [hptr]) none
  · exact (h.toSettled.begin hl p).swap ((Memory.put_ptr_self _).trans hptr.symm)
      (Finset.notMem_empty l) (Finset.notMem_empty rhs)

theorem destruct_spec (hroom : Fintype.card L < 2 ^ 32) (h : Steady s) (hl : s.ptr l ≠ none)
    (hvariable : ∀ o, ¬ s.Member l o) : ∃ t, s.destruct l = some t ∧ Steady t := by
  obtain ⟨t, ht, hsettled, hshrinks, -⟩ :=
    dropAt_spec hroom h.toSettled h.toSettled.keeps hl fun o _ => hvariable o
  refine ⟨t.put l none, by simp [Memory.destruct, ht], ?_, fun o x hx hzero => ?_⟩
  · exact hsettled.remove fun o hm => hvariable o (hshrinks.member l o hm)
  · obtain ⟨y, hy, hyzero⟩ := hshrinks.zero o x hx hzero
    exact h.held o y hy hyzero

end Operations

section Create

variable {s : Memory L} {l r : L} {o : ℕ} {ms : List L}

omit [Fintype L] in
theorem create_ptr (hnull : ∀ m ∈ ms, s.ptr m = none) :
    (s.create ms).2.ptr r = some (some o) ↔ s.ptr r = some (some o) := by
  by_cases hr : r ∈ ms
  · simp [Memory.create, hr, hnull r hr]
  · simp [Memory.create, hr]

omit [Fintype L] in
theorem create_objects_of_ne (ho : o ≠ s.next) : (s.create ms).2.objects o = s.objects o :=
  Function.update_of_ne ho ..

omit [Fintype L] in
theorem create_objects_self : (s.create ms).2.objects s.next = some ⟨0, ms⟩ :=
  Function.update_self ..

omit [Fintype L] in
theorem create_member : (s.create ms).2.Member r o ↔
    o = s.next ∧ r ∈ ms ∨ o ≠ s.next ∧ s.Member r o := by
  by_cases ho : o = s.next
  · subst ho
    simp [Memory.Member, create_objects_self]
  · simp [Memory.Member, create_objects_of_ne ho, ho]

theorem Settled.create (h : Settled ∅ s) (hfree : s.Room ms) : Settled ∅ (s.create ms).2 where
  counted o x hx := by
    have hsame : holders (s.create ms).2.ptr ∅ (some o) = holders s.ptr ∅ (some o) := by
      ext r
      rw [mem_holders, mem_holders, create_ptr hfree.2]
    rw [hsame]
    by_cases ho : o = s.next
    · subst ho
      rw [create_objects_self] at hx
      obtain rfl := Option.some.inj hx
      refine (holders_zero.mpr fun r hr => ?_).symm
      exact absurd (h.created s.next le_rfl) (h.live r s.next hr (Finset.notMem_empty r))
    · rw [create_objects_of_ne ho] at hx
      exact h.counted o x hx
  live r o hr hX := by
    have hlive := h.live r o ((create_ptr hfree.2).mp hr) hX
    have ho : o ≠ s.next := by
      rintro rfl
      exact hlive (h.created s.next le_rfl)
    rwa [create_objects_of_ne ho]
  stands r o hr := by
    by_cases hm : r ∈ ms
    · simp [Memory.create, hm]
    · rcases create_member.mp hr with ⟨-, hin⟩ | ⟨-, hin⟩
      · exact absurd hin hm
      · simpa [Memory.create, hm] using h.stands r o hin
  nodup o x hx := by
    by_cases ho : o = s.next
    · subst ho
      rw [create_objects_self] at hx
      obtain rfl := Option.some.inj hx
      exact hfree.1
    · rw [create_objects_of_ne ho] at hx
      exact h.nodup o x hx
  disjoint r o o' hr hr' := by
    rcases create_member.mp hr with ⟨ho, hin⟩ | ⟨-, hin⟩ <;>
      rcases create_member.mp hr' with ⟨ho', hin'⟩ | ⟨-, hin'⟩
    · exact ho.trans ho'.symm
    · exact absurd (hfree.2 r hin) (h.stands r o' hin')
    · exact absurd (hfree.2 r hin') (h.stands r o hin)
    · exact h.disjoint r o o' hin hin'
  created o ho := by
    have ho : s.next + 1 ≤ o := ho
    rw [create_objects_of_ne (by omega)]
    exact h.created o (by omega)
  once := h.once
  destroyed o := by
    have hold := h.destroyed o
    change o ∈ s.destroyed ↔ o < s.next + 1 ∧ _
    by_cases ho : o = s.next
    · subst ho
      rw [create_objects_self, hold]
      simp
    · rw [create_objects_of_ne ho, hold]
      exact and_congr_left fun _ => by omega

theorem create_held (h : Steady s) (o : ℕ) (x : Object L) (hx : (s.create ms).2.objects o = some x)
    (hzero : x.refCount = 0) : some s.next = some o := by
  by_contra ho
  rw [create_objects_of_ne fun heq => ho (by rw [heq])] at hx
  exact h.held o x hx hzero

theorem construct_spec (hroom : Fintype.card L < 2 ^ 32) (h : Steady s)
    (hfree : s.Room (l :: ms)) : ∃ t, (Op.construct l ms).exec s = some t ∧ Steady t := by
  obtain ⟨hl, hms⟩ := List.nodup_cons.mp hfree.1
  have hroom' : s.Room ms := ⟨hms, fun m hm => hfree.2 m (List.mem_cons_of_mem l hm)⟩
  have hnone : (s.create ms).2.ptr l = none := by
    simpa [Memory.create, hl] using hfree.2 l List.mem_cons_self
  refine add_spec hroom ((h.toSettled.create hroom').begin hnone (some s.next))
    (Memory.put_ptr_self _) (fun o ho => ?_) (create_held h)
  obtain rfl := Option.some.inj ho
  change (s.create ms).2.objects s.next ≠ none
  rw [create_objects_self]
  exact Option.some_ne_none _

omit [Fintype L] in
theorem Keeps.create {D : ℕ → Prop} (h : Keeps D l s) (hD : ¬ D s.next)
    (hnull : ∀ m ∈ ms, s.ptr m = none) : Keeps D l (s.create ms).2 := by
  intro r o hr ho
  obtain ⟨r', ⟨hne, hout⟩, hr'⟩ := h r o ((create_ptr hnull).mp hr) ho
  refine ⟨r', ⟨hne, fun o' ho' hm => ?_⟩, (create_ptr hnull).mpr hr'⟩
  rcases create_member.mp hm with ⟨heq, -⟩ | ⟨-, hm⟩
  · exact hD (heq ▸ ho')
  · exact hout o' ho' hm

theorem assignNew_spec (hroom : Fintype.card L < 2 ^ 32) (h : Steady s) (hl : s.ptr l ≠ none)
    (hfree : s.Room ms) (hsafe : (Op.assignNew l ms).Safe s) :
    ∃ t, (Op.assignNew l ms).exec s = some t ∧ Steady t := by
  have hnot : ¬ Falls s l s.next := fun hfalls => by
    cases hfalls with
    | intro hlive => exact hlive (h.toSettled.created s.next le_rfl)
  have hnotin : l ∉ ms := fun hm => hl (hfree.2 l hm)
  have hptr : (s.create ms).2.ptr l = s.ptr l := by simp [Memory.create, hnotin]
  have hfresh : (s.create ms).2.ptr l ≠ some (some s.next) := by
    rw [hptr]
    exact fun heq => h.live l s.next heq (Finset.notMem_empty l) (h.created s.next le_rfl)
  change ∃ t, (s.create ms).2.assignRaw l (some s.next) = some t ∧ Steady t
  rw [Memory.assignRaw, if_pos hfresh]
  refine reassign hroom (h.toSettled.create hfree) (create_held h)
    (h.toSettled.keeps.create hnot hfree.2) (hptr ▸ hl) (fun o ho hm => ?_) fun o ho => ?_
  · rcases create_member.mp hm with ⟨-, hin⟩ | ⟨-, hin⟩
    · exact hnotin hin
    · exact hsafe o ho hin
  · obtain rfl := Option.some.inj ho
    rw [create_objects_self]
    exact ⟨Option.some_ne_none _, hnot⟩

end Create

theorem exec_spec (hroom : Fintype.card L < 2 ^ 32) {s : Memory L} (h : Steady s) {op : Op L}
    (hlegal : op.Legal s) (hsafe : op.Safe s) : ∃ t, op.exec s = some t ∧ Steady t := by
  cases op with
  | default l =>
    exact ⟨_, rfl, (h.toSettled.begin hlegal none).to_null fun o => by simp, h.held⟩
  | construct l ms => exact construct_spec hroom h hlegal
  | copy l rhs => exact copy_spec hroom h hlegal.1 hlegal.2
  | move l rhs => exact move_spec h hlegal.1 hlegal.2
  | assignRaw l p => exact assignRaw_spec hroom h hlegal.1 hlegal.2 hsafe
  | assignNew l ms => exact assignNew_spec hroom h hlegal.1 hlegal.2 hsafe
  | assign l rhs => exact assign_spec hroom h hlegal.1 hlegal.2 hsafe
  | moveAssign l rhs => exact moveAssign_spec hroom h hlegal.1 hlegal.2 hsafe
  | destruct l => exact destruct_spec hroom h hlegal.1 hlegal.2

/-- `L` are the words of a 32-bit memory, so there are fewer than `2 ^ 32` handles. -/
theorem counts_exact (hroom : Fintype.card L < 2 ^ 32) {es : List (Memory L × Op L)}
    {state : Option (Memory L)} (h : Trace Init Step es state)
    (hsafe : ∀ e ∈ es, e.2.Safe e.1) : ∃ s, state = some s ∧ Exact s := by
  have hrun : (∀ e ∈ es, e.2.Safe e.1) → ∃ s, state = some s ∧ Steady s := by
    refine h.invariant (I := fun es state => (∀ e ∈ es, e.2.Safe e.1) →
      ∃ s, state = some s ∧ Steady s) ?_ ?_
    · rintro _ ⟨⟩ -
      refine ⟨_, rfl, ⟨?_, ?_, ?_, ?_, ?_, ?_, ?_, ?_⟩, ?_⟩ <;> simp [Memory.Member]
    · intro es e state state' ih hst hsafe
      obtain ⟨s, rfl, hs⟩ := ih fun e he => hsafe e (List.mem_append_left _ he)
      cases hst with
      | op op hlegal =>
        refine exec_spec hroom hs hlegal (hsafe (s, _) ?_)
        exact List.mem_append_right es (List.mem_singleton_self _)
  obtain ⟨s, hs, hsteady⟩ := hrun hsafe
  exact ⟨s, hs, hsteady.exact⟩

omit [Fintype L] in
theorem trace_exec {es : List (Memory L × Op L)} {s t : Memory L}
    (h : Trace Init Step es (some s)) (op : Op L) (hlegal : op.Legal s)
    (ht : op.exec s = some t) : Trace Init Step (es ++ [(s, op)]) (some t) :=
  ht ▸ h.step (.op op hlegal)

def empty : Memory (Fin 2) := ⟨fun _ => none, fun _ => none, 0, []⟩
def oneNull : Memory (Fin 2) := ((Op.default 0).exec empty).getD empty
def oneObject : Memory (Fin 2) := ((Op.construct 1 []).exec oneNull).getD empty

/-- `x = y`, where `x` is null. -/
theorem assign_exact : ∃ s, (Op.assign 0 1).exec oneObject = some s ∧ Exact s := by
  have h0 : Trace Init Step [] (some empty) := .start .boot
  have h1 := trace_exec (t := oneNull) h0 (.default 0) rfl rfl
  have h2 := trace_exec (t := oneObject) h1 (.construct 1 []) (by
    refine ⟨by decide, ?_⟩
    decide) rfl
  have h3 := h2.step (.op (.assign 0 1) (by
    refine ⟨?_, ?_⟩ <;> decide))
  refine counts_exact (by simp) h3 fun e he => ?_
  simp only [List.nil_append, List.cons_append, List.mem_cons, List.not_mem_nil, or_false] at he
  rcases he with rfl | rfl | rfl
  · trivial
  · trivial
  · have hobjects : oneObject.objects =
        Function.update (Function.update (fun _ => none) 0 (some ⟨0, []⟩)) 0 (some ⟨1, []⟩) := rfl
    have hmember : ∀ r o, ¬ oneObject.Member r o := by
      rintro r o ⟨x, hx, hm⟩
      by_cases ho : o = 0
      · rw [hobjects, ho, Function.update_self] at hx
        obtain rfl := Option.some.inj hx
        simp at hm
      · simp [hobjects, ho] at hx
    have hfalls : ∀ o, ¬ Falls oneObject 0 o := by
      rintro o ⟨hlive, owner, howner, -⟩
      by_cases ho : o = 0
      · exact hmember 1 _ (howner 1 (by rw [ho]; rfl) (by decide))
      · simp [hobjects, ho] at hlive
    exact fun p _ _ => ⟨fun o ho => absurd ho (hfalls o), fun o _ => hfalls o⟩

def head : Memory (Fin 2) := ((Op.construct 0 [1]).exec empty).getD empty
def twoNodes : Memory (Fin 2) := ((Op.assignNew 1 []).exec head).getD empty

/-- `x = x->next`: when `x` is to be counted, it points to a node that the drop has destroyed. -/
theorem next_inexact :
    (∃ es state, Trace Init Step es state ∧ ¬ ∃ s : Memory (Fin 2), state = some s ∧ Exact s) ∧
    ∃ s, (twoNodes.dropAt 0 >>= fun s => s.store 0 (some 1)) = some s ∧
      s.ptr 0 = some (some 1) ∧ 1 ∈ s.destroyed := by
  have h0 : Trace Init Step [] (some empty) := .start .boot
  have h1 := trace_exec (t := head) h0 (.construct 0 [1]) (by
    refine ⟨by decide, ?_⟩
    decide) rfl
  have h2 := trace_exec (t := twoNodes) h1 (.assignNew 1 []) (by
    refine ⟨by decide, by decide, ?_⟩
    decide) rfl
  have h3 := h2.step (.op (.assign 0 1) (by
    refine ⟨?_, ?_⟩ <;> decide))
  have hnone : (Op.assign 0 1).exec twoNodes = none := by
    rw [← Option.isNone_iff_eq_none]
    decide +kernel
  refine ⟨⟨_, _, h3, ?_⟩, _, rfl, ?_⟩
  · rintro ⟨s, hs, -⟩
    rw [hnone] at hs
    nomatch hs
  · decide +kernel

end OsShell.Shared
