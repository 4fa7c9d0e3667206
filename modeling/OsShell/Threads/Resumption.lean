import OsShell.Library.Runs
import OsShell.Threads.ContextSwitch

/-!
# Threads leave off and go on

Any number of cores run threads, each with a save area and a kernel stack of its own.
A step is a stretch of code between two calls of `gheith_contextSwitch`, the
constructor of a thread, or one call of the routine on one core, run instruction by
instruction. Compiled code is open but for its calling convention, and for not
writing into the stack of a thread that is not running, above where that thread left
off, nor into its save area. `left` is what the routine found when it was called by a
thread that now waits; no code reads it.
-/

namespace OsShell.ContextSwitch

open AddressSpace Machine Runs
open Relation (ReflTransGen)

structure Layout (T : Type*) where
  area : T → Word
  stack : T → Set Word
  areas : ∀ t u, t ≠ u → Disjoint (span (area t) 36) (span (area u) 36)
  frames : ∀ t u, t ≠ u → Disjoint (stack t) (stack u)
  apart : ∀ t u, Disjoint (stack t) (span (area u) 36)

/-- The bytes that the threads which are not running rely on, and the page directories of all. -/
def kept {T : Type*} (L : Layout T) (left : T → Option Context) (directory : T → Option Word) :
    Set Word :=
  {x | (∃ t c, left t = some c ∧ x ∈ footprint (L.area t) c) ∨
    ∃ t d, directory t = some d ∧ x ∈ span (L.area t + 32) 4}

section Layout

variable {T : Type*} {L : Layout T} {t u : T} {c : Context} {x : Word}

theorem footprint_kept {left : T → Option Context} {directory : T → Option Word}
    (h : left t = some c) : footprint (L.area t) c ⊆ kept L left directory :=
  fun _ hx => Or.inl ⟨t, c, h, hx⟩

theorem directory_kept {left : T → Option Context} {directory : T → Option Word} {d : Word}
    (h : directory t = some d) : span (L.area t + 32) 4 ⊆ kept L left directory :=
  fun _ hx => Or.inr ⟨t, d, h, hx⟩

theorem footprint_cases (hframe : span c.esp 8 ⊆ L.stack t) (hx : x ∈ footprint (L.area t) c) :
    x ∈ span (L.area t) 36 ∨ x ∈ L.stack t := by
  rcases hx with (hx | hx) | hx
  · exact Or.inl (span_mono (by decide) hx)
  · exact Or.inl (span_subset (by decide) hx)
  · exact Or.inr (hframe hx)

theorem footprint_other (htu : t ≠ u) (hframe : span c.esp 8 ⊆ L.stack t)
    (hx : x ∈ footprint (L.area t) c) : x ∉ span (L.area u) 36 ∧ x ∉ L.stack u := by
  rcases footprint_cases hframe hx with harea | hstack
  · exact ⟨Set.disjoint_left.mp (L.areas t u htu) harea, Set.disjoint_right.mp (L.apart u t) harea⟩
  · exact ⟨Set.disjoint_left.mp (L.apart t u) hstack, Set.disjoint_left.mp (L.frames t u htu) hstack⟩

end Layout

structure System (K T : Type*) where
  mem : Memory
  cpu : K → Cpu
  current : K → T
  left : T → Option Context
  /-- the page directory that a thread was made with -/
  directory : T → Option Word

inductive Event (K T : Type*)
  | compute (k : K)
  | create (k : K) (u : T)
  | switch (k : K) (u : T)

variable {K T : Type*}

namespace System

def view (s : System K T) (k : K) : State := ⟨s.cpu k, s.mem⟩

/-- The constructors `TCB` and `TCBWithStack`: `STACK_WORDS` is 2048, and the stack starts with the
flags and the address of `entry`. -/
def constructed (m : Memory) (tcb area stack pd entry : Word) : Memory :=
  let m := store m (area + 24) tcb
  let m := store m (area + 32) pd
  let m := store m (stack + 4 * (2048 - 2)) 0x200
  let m := store m (stack + 4 * (2048 - 1)) entry
  let m := store m (area + 20) 0
  store m (area + 4) (stack + 4 * (2048 - 2))

/-- What a new thread finds when it is switched to: the registers are what the memory held. -/
def firstContext (m : Memory) (area stack entry : Word) : Context where
  ebx := load m (area + 0)
  esp := stack + 4 * (2048 - 2)
  ebp := load m (area + 8)
  esi := load m (area + 12)
  edi := load m (area + 16)
  cr2 := load m (area + 28)
  eflags := 0x200
  eip := entry

section Constructed

variable {m : Memory} {tcb area stack pd entry : Word}

theorem constructed_of_notMem {x : Word} (harea : x ∉ span area 36) (hstack : x ∉ span stack 8192) :
    constructed m tcb area stack pd entry x = m x := by
  have hfield : ∀ i : Word, i.toNat + 4 ≤ 36 → x ∉ span (area + i) 4 :=
    fun i hi hx => harea (span_subset hi hx)
  have hword : ∀ i : Word, i.toNat + 4 ≤ 8192 → x ∉ span (stack + i) 4 :=
    fun i hi hx => hstack (span_subset hi hx)
  rw [constructed, store_of_notMem (hfield _ (by decide)), store_of_notMem (hfield _ (by decide)),
    store_of_notMem (hword _ (by decide)), store_of_notMem (hword _ (by decide)),
    store_of_notMem (hfield _ (by decide)), store_of_notMem (hfield _ (by decide))]

theorem constructed_suspended (h : Disjoint (span stack 8192) (span area 36)) :
    Suspended (constructed m tcb area stack pd entry) area (firstContext m area stack entry) := by
  constructor
  case eflags =>
    change load _ (stack + 4 * (2048 - 2) + 0) = _
    rw [add_zero]
    simp (disch := decide) only [constructed, load_store_apart h, load_store_offset, load_store,
      firstContext]
  case eip =>
    change load _ (stack + 4 * (2048 - 2) + 4) = _
    rw [add_assoc, show (4 * (2048 - 2) + 4 : Word) = 4 * (2048 - 1) from rfl]
    simp (disch := decide) only [constructed, load_store_apart h, load_store, firstContext]
  all_goals
    simp (disch := decide) only [constructed, load_store_apart h.symm, load_store_offset,
      load_store, firstContext]

theorem constructed_directory (h : Disjoint (span stack 8192) (span area 36)) :
    load (constructed m tcb area stack pd entry) (area + 32) = pd := by
  simp (disch := decide) only [constructed, load_store_apart h.symm, load_store_offset, load_store]

end Constructed

variable [DecidableEq T]

def create (L : Layout T) (s : System K T) (u : T) (tcb stack pd entry : Word) : System K T :=
  { s with
    mem := constructed s.mem tcb (L.area u) stack pd entry
    left := Function.update s.left u (some (firstContext s.mem (L.area u) stack entry))
    directory := Function.update s.directory u (some pd) }

section Create

variable {L : Layout T} {s : System K T} {t u : T} {tcb stack pd entry : Word}

theorem create_left_self : (s.create L u tcb stack pd entry).left u =
    some (firstContext s.mem (L.area u) stack entry) :=
  Function.update_self ..

theorem create_left_other (h : t ≠ u) : (s.create L u tcb stack pd entry).left t = s.left t :=
  Function.update_of_ne h _ _

theorem create_directory_self : (s.create L u tcb stack pd entry).directory u = some pd :=
  Function.update_self ..

theorem create_directory_other (h : t ≠ u) :
    (s.create L u tcb stack pd entry).directory t = s.directory t :=
  Function.update_of_ne h _ _

end Create

def leftAfter (s : System K T) (k : K) (u : T) : T → Option Context :=
  Function.update (Function.update s.left u none) (s.current k) (some (.of (s.view k)))

variable [DecidableEq K]

def switched (s : System K T) (k : K) (u : T) (t : State) : System K T :=
  { s with
    mem := t.mem
    cpu := Function.update s.cpu k t.toCpu
    current := Function.update s.current k u
    left := s.leftAfter k u }

end System

structure Init (L : Layout T) (s : System K T) : Prop where
  current : Function.Injective s.current
  left : ∀ t, s.left t = none
  directory : ∀ t d, s.directory t = some d → load s.mem (L.area t + 32) = d
  exists_iff : ∀ t, s.directory t ≠ none ↔ ∃ k, s.current k = t

structure Inv (L : Layout T) (s : System K T) : Prop where
  current : Function.Injective s.current
  running : ∀ k, s.left (s.current k) = none
  suspended : ∀ t c, s.left t = some c → Suspended s.mem (L.area t) c
  frame : ∀ t c, s.left t = some c → span c.esp 8 ⊆ L.stack t
  directory : ∀ t d, s.directory t = some d → load s.mem (L.area t + 32) = d
  made : ∀ t, s.directory t = none → s.left t = none ∧ ∀ k, s.current k ≠ t

theorem Inv.of_init {L : Layout T} {s : System K T} (h : Init L s) : Inv L s where
  current := h.current
  running k := h.left _
  suspended t c hc := by rw [h.left t] at hc; nomatch hc
  frame t c hc := by rw [h.left t] at hc; nomatch hc
  directory := h.directory
  made t ht := ⟨h.left t, fun k hk => (h.exists_iff t).mpr ⟨k, hk⟩ ht⟩

namespace Inv

variable {L : Layout T} {s : System K T} {k : K} {u : T} {c : Context} {x : Word}
  {action arg back : Word}

theorem current_ne (I : Inv L s) (hleft : s.left u = some c) (j : K) : s.current j ≠ u := by
  intro h
  have hnone := I.running j
  rw [h, hleft] at hnone
  nomatch hnone

theorem apart (I : Inv L s) (hleft : s.left u = some c)
    (hsource : span ((s.view k).reg .esp - 4) 24 ⊆ L.stack (s.current k))
    (htarget : span (c.esp - 12) 20 ⊆ L.stack u) :
    Apart (s.view k) (L.area (s.current k)) (L.area u) c where
  areas := L.areas _ _ (I.current_ne hleft k)
  sourceSource := (L.apart _ _).mono_left hsource
  sourceTarget := (L.apart _ _).mono_left hsource
  targetSource := (L.apart _ _).mono_left htarget
  targetTarget := (L.apart _ _).mono_left htarget
  frames := (L.frames _ _ (I.current_ne hleft k)).mono hsource htarget

theorem entry_other (hsource : span ((s.view k).reg .esp - 4) 24 ⊆ L.stack (s.current k))
    (htarget : span (c.esp - 12) 20 ⊆ L.stack u)
    (hcurrent : x ∉ span (L.area (s.current k)) 36 ∧ x ∉ L.stack (s.current k))
    (hu : x ∉ span (L.area u) 36 ∧ x ∉ L.stack u) :
    (entry (s.view k) (L.area (s.current k)) (L.area u) action back arg c).mem x = s.mem x := by
  rw [entry_mem, pushed_of_notMem fun hx => hu.2 (htarget (span_mono (by decide) hx)),
    saved_of_notMem (fun hx => hcurrent.2 (hsource hx)) hcurrent.1 hu.1]
  rfl

theorem entry_directory (I : Inv L s) (hleft : s.left u = some c)
    (hsource : span ((s.view k).reg .esp - 4) 24 ⊆ L.stack (s.current k))
    (htarget : span (c.esp - 12) 20 ⊆ L.stack u) (t : T) :
    load (entry (s.view k) (L.area (s.current k)) (L.area u) action back arg c).mem
      (L.area t + 32) = load s.mem (L.area t + 32) := by
  have A := I.apart hleft hsource htarget
  have hfield : span (L.area t + 32) 4 ⊆ span (L.area t) 36 := span_subset (by decide)
  have hpushed : load (entry (s.view k) (L.area (s.current k)) (L.area u) action back arg c).mem
      (L.area t + 32) =
        load (saved (s.view k) (L.area (s.current k)) (L.area u)) (L.area t + 32) :=
    load_congr fun x hx => pushed_of_notMem fun hstack =>
      Set.disjoint_right.mp (L.apart u t) (hfield hx) (htarget (span_mono (by decide) hstack))
  rw [hpushed]
  by_cases ht : t = s.current k
  · rw [ht]
    exact source_directory A
  · by_cases htu : t = u
    · rw [htu]
      exact load_saved_target A (by decide) (by decide)
    · exact load_congr fun x hx => saved_of_notMem
        (fun h => Set.disjoint_right.mp (L.apart _ t) (hfield hx) (hsource h))
        (Set.disjoint_left.mp (L.areas t _ ht) (hfield hx))
        (Set.disjoint_left.mp (L.areas t u htu) (hfield hx))

end Inv

variable [DecidableEq K] [DecidableEq T]

inductive Step (L : Layout T) : System K T → Event K T → System K T → Prop
  | compute {s : System K T} {k : K} (cpu : Cpu) (mem : Memory)
      (hkept : ∀ x ∈ kept L s.left s.directory, mem x = s.mem x) :
    Step L s (.compute k) { s with mem, cpu := Function.update s.cpu k cpu }
  | create {s : System K T} {k : K} {u : T} (tcb stack pd entry : Word)
      (hnew : s.directory u = none) (hstack : span stack 8192 ⊆ L.stack u) :
    Step L s (.create k u) (s.create L u tcb stack pd entry)
  /-- The words that the call uses lie on the two stacks; the action leaves the threads that do not
  run and the address space alone. -/
  | switch {s : System K T} {k : K} {u : T} {c : Context} {t : State} (ext : Functions)
      (action arg back : Word) (hleft : s.left u = some c)
      (harguments : Arguments (s.view k) (L.area (s.current k)) (L.area u) action arg)
      (hsource : span ((s.view k).reg .esp - 4) 24 ⊆ L.stack (s.current k))
      (htarget : span (c.esp - 12) 20 ⊆ L.stack u)
      (haction : ∀ r, ext action (entry (s.view k) (L.area (s.current k)) (L.area u) action back arg
        c) = some r → Cdecl (kept L (s.leftAfter k u) s.directory ∪ span c.esp 8)
          (entry (s.view k) (L.area (s.current k)) (L.area u) action back arg c) r ∧
        r.cr3 = (entry (s.view k) (L.area (s.current k)) (L.area u) action back arg c).cr3)
      (hends : Ends ext (gheith_contextSwitch back) (s.view k) t) :
    Step L s (.switch k u) (s.switched k u t)

variable {L : Layout T} {s s' : System K T} {k : K} {t u : T} {c : Context}

namespace Inv

omit [DecidableEq T] in
theorem compute (I : Inv L s) (cpu : Cpu) {mem : Memory}
    (hkept : ∀ x ∈ kept L s.left s.directory, mem x = s.mem x) :
    Inv L { s with mem, cpu := Function.update s.cpu k cpu } where
  current := I.current
  running := I.running
  suspended t c hc := (I.suspended t c hc).congr fun x hx => hkept x (footprint_kept hc hx)
  frame := I.frame
  directory t d hd :=
    (load_congr fun x hx => hkept x (directory_kept hd hx)).trans (I.directory t d hd)
  made := I.made

omit [DecidableEq K] in
theorem create (I : Inv L s) (hnew : s.directory u = none) (tcb pd entry : Word) {stack : Word}
    (hstack : span stack 8192 ⊆ L.stack u) : Inv L (s.create L u tcb stack pd entry) := by
  have hother : ∀ x, x ∉ span (L.area u) 36 → x ∉ L.stack u →
      System.constructed s.mem tcb (L.area u) stack pd entry x = s.mem x := fun x harea hx =>
    System.constructed_of_notMem harea fun h => hx (hstack h)
  have hapart : Disjoint (span stack 8192) (span (L.area u) 36) := (L.apart u u).mono_left hstack
  exact {
    current := I.current
    running := fun k => (System.create_left_other ((I.made u hnew).2 k)).trans (I.running k)
    suspended := fun t c hc => by
      by_cases htu : t = u
      · rw [htu, System.create_left_self, Option.some.injEq] at hc
        rw [htu, ← hc]
        exact System.constructed_suspended hapart
      · rw [System.create_left_other htu] at hc
        refine (I.suspended t c hc).congr fun x hx => ?_
        obtain ⟨harea, hx⟩ := footprint_other htu (I.frame t c hc) hx
        exact hother x harea hx
    frame := fun t c hc => by
      by_cases htu : t = u
      · rw [htu, System.create_left_self, Option.some.injEq] at hc
        rw [htu, ← hc]
        exact (span_subset (by decide)).trans hstack
      · rw [System.create_left_other htu] at hc
        exact I.frame t c hc
    directory := fun t d hd => by
      by_cases htu : t = u
      · rw [htu, System.create_directory_self, Option.some.injEq] at hd
        rw [htu, ← hd]
        exact System.constructed_directory hapart
      · rw [System.create_directory_other htu] at hd
        refine (load_congr fun x hx => ?_).trans (I.directory t d hd)
        have harea : x ∈ span (L.area t) 36 := span_subset (by decide) hx
        exact hother x (Set.disjoint_left.mp (L.areas t u htu) harea)
          (Set.disjoint_right.mp (L.apart u t) harea)
    made := fun t ht => by
      by_cases htu : t = u
      · rw [htu, System.create_directory_self] at ht
        nomatch ht
      · rw [System.create_directory_other htu] at ht
        rw [System.create_left_other htu]
        exact I.made t ht }

theorem switch (I : Inv L s) {action arg back : Word} {r : State} (hleft : s.left u = some c)
    (hsource : span ((s.view k).reg .esp - 4) 24 ⊆ L.stack (s.current k))
    (htarget : span (c.esp - 12) 20 ⊆ L.stack u)
    (hr : Cdecl (kept L (s.leftAfter k u) s.directory ∪ span c.esp 8)
      (entry (s.view k) (L.area (s.current k)) (L.area u) action back arg c) r) :
    Inv L (s.switched k u (leave r)) := by
  have A := I.apart hleft hsource htarget
  have hne := I.current_ne hleft
  have e := entry_spec action back arg A (I.suspended u c hleft)
  have hkept : ∀ x ∈ kept L (s.leftAfter k u) s.directory,
      r.mem x = (entry (s.view k) (L.area (s.current k)) (L.area u) action back arg c).mem x :=
    fun x hx => hr.mem x (Or.inl hx)
  have hself : s.leftAfter k u (s.current k) = some (.of (s.view k)) := Function.update_self ..
  have hgone : s.leftAfter k u u = none := by
    rw [System.leftAfter, Function.update_of_ne (hne k).symm, Function.update_self]
  have hother : ∀ t, t ≠ s.current k → t ≠ u → s.leftAfter k u t = s.left t := fun t ht htu => by
    rw [System.leftAfter, Function.update_of_ne ht, Function.update_of_ne htu]
  exact {
    current := fun i j hij => by
      change Function.update s.current k u i = Function.update s.current k u j at hij
      by_cases hi : i = k <;> by_cases hj : j = k
      · rw [hi, hj]
      · rw [hi, Function.update_self, Function.update_of_ne hj] at hij
        exact absurd hij.symm (hne j)
      · rw [hj, Function.update_self, Function.update_of_ne hi] at hij
        exact absurd hij (hne i)
      · rw [Function.update_of_ne hi, Function.update_of_ne hj] at hij
        exact I.current hij
    running := fun j => by
      change s.leftAfter k u (Function.update s.current k u j) = none
      by_cases hj : j = k
      · rw [hj, Function.update_self, hgone]
      · rw [Function.update_of_ne hj, hother _ (fun h => hj (I.current h)) (hne j), I.running j]
    suspended := fun t d hd => by
      change s.leftAfter k u t = some d at hd
      by_cases ht : t = s.current k
      · rw [ht, hself, Option.some.injEq] at hd
        rw [ht, ← hd]
        exact e.sourceKept.congr fun x hx => hkept x (footprint_kept hself hx)
      · by_cases htu : t = u
        · rw [htu, hgone] at hd
          nomatch hd
        · have hleft' := (hother t ht htu).symm.trans hd
          refine (I.suspended t d hleft').congr fun x hx => ?_
          refine (hkept x (footprint_kept hd hx)).trans (entry_other hsource htarget ?_ ?_)
          · exact footprint_other ht (I.frame t d hleft') hx
          · exact footprint_other htu (I.frame t d hleft') hx
    frame := fun t d hd => by
      change s.leftAfter k u t = some d at hd
      by_cases ht : t = s.current k
      · rw [ht, hself, Option.some.injEq] at hd
        rw [ht, ← hd]
        exact (span_mono (by decide)).trans hsource
      · by_cases htu : t = u
        · rw [htu, hgone] at hd
          nomatch hd
        · exact I.frame t d ((hother t ht htu).symm.trans hd)
    directory := fun t d hd =>
      (load_congr fun x hx => hkept x (directory_kept hd hx)).trans
        ((I.entry_directory hleft hsource htarget t).trans (I.directory t d hd))
    made := fun t ht => by
      obtain ⟨hnone, hidle⟩ := I.made t ht
      have htu : t ≠ u := by
        rintro rfl
        rw [hleft] at hnone
        nomatch hnone
      refine ⟨(hother t (hidle k).symm htu).trans hnone, fun j => ?_⟩
      change Function.update s.current k u j ≠ t
      by_cases hj : j = k
      · rw [hj, Function.update_self]
        exact htu.symm
      · rw [Function.update_of_ne hj]
        exact hidle j }

theorem step {e : Event K T} (I : Inv L s) (hst : Step L s e s') : Inv L s' := by
  cases hst with
  | compute cpu mem hkept => exact I.compute cpu hkept
  | create tcb stack pd entry hnew hstack => exact I.create hnew tcb pd entry hstack
  | switch ext action arg back hleft harguments hsource htarget haction hends =>
    obtain ⟨r, hr, -, rfl⟩ :=
      (ends_iff harguments (I.apart hleft hsource htarget) (I.suspended _ _ hleft)).mp hends
    exact I.switch hleft hsource htarget (haction r hr).1

theorem of_trace {es : List (Event K T)} (h : Trace (Init L) (Step L) es s) : Inv L s :=
  h.invariant (I := fun _ s => Inv L s) (fun _ => of_init) fun _ _ _ _ I hst => I.step hst

theorem resumed (I : Inv L s) (hst : Step L s (.switch k u) s') : ∃ c, s.left u = some c ∧
    Resumed c (s'.cpu k) ∧ s.directory u = some (s'.cpu k).cr3 := by
  cases hst with
  | @switch _ _ c _ ext action arg back hleft harguments hsource htarget haction hends =>
    have A := I.apart hleft hsource htarget
    have ht := I.suspended _ _ hleft
    obtain ⟨r, hr, -, rfl⟩ := (ends_iff harguments A ht).mp hends
    obtain ⟨hcdecl, hcr3⟩ := haction r hr
    have hcpu : (s.switched k u (leave r)).cpu k = (leave r).toCpu := Function.update_self ..
    refine ⟨c, hleft, ?_, ?_⟩
    · rw [hcpu]
      exact resumed_of_cdecl A ht Set.subset_union_right hcdecl
    · have e := entry_spec action back arg A ht
      have hmade : s.directory u ≠ none := fun hnone => by
        rw [(I.made u hnone).1] at hleft
        nomatch hleft
      obtain ⟨d, hd⟩ := Option.ne_none_iff_exists'.mp hmade
      rw [hcpu, hd]
      change _ = some r.cr3
      rw [hcr3, e.cr3]
      exact congrArg some (I.directory u d hd).symm

end Inv

/-- Nothing stops a thread from giving way to one that waits: it puts the arguments on its stack at
`p`, and an action that only returns does what is asked of it. -/
theorem switch_possible (I : Inv L s) (hleft : s.left u = some c)
    (htarget : span (c.esp - 12) 20 ⊆ L.stack u) {p : Word}
    (hp : span p 24 ⊆ L.stack (s.current k)) : ∃ s₁ s₂, Step L s (.compute k) s₁ ∧
      s₁.current = s.current ∧ s₁.left = s.left ∧ Step L s₁ (.switch k u) s₂ ∧
      s₂.current k = u ∧ s₂.left (s.current k) = some (.of (s₁.view k)) ∧
      (Context.of (s₁.view k)).esp = p := by
  let mem := store (store (store (store s.mem (p + 8) (L.area (s.current k))) (p + 12) (L.area u))
    (p + 16) 0) (p + 20) 0
  let s₁ : System K T :=
    { s with
      mem
      cpu := Function.update s.cpu k
        { s.cpu k with reg := Function.update (s.cpu k).reg .esp (p + 4) } }
  have hview : s₁.view k =
      ⟨{ s.cpu k with reg := Function.update (s.cpu k).reg .esp (p + 4) }, mem⟩ := by
    exact congrArg (State.mk · mem) (Function.update_self ..)
  have hesp : (s₁.view k).reg .esp = p + 4 := by
    rw [hview]
    rfl
  have hpush : (s₁.view k).reg .esp - 4 = p := by rw [hesp, add_sub_cancel_right]
  have hsource : span ((s₁.view k).reg .esp - 4) 24 ⊆ L.stack (s₁.current k) := by rwa [hpush]
  have hmem : ∀ x ∉ L.stack (s.current k), mem x = s.mem x := by
    intro x hx
    have hword : ∀ i : Word, i.toNat + 4 ≤ 24 → x ∉ span (p + i) 4 :=
      fun i hi h => hx (hp (span_subset hi h))
    change store _ _ _ x = _
    rw [store_of_notMem (hword _ (by decide)), store_of_notMem (hword _ (by decide)),
      store_of_notMem (hword _ (by decide)), store_of_notMem (hword _ (by decide))]
  have hcompute : Step L s (.compute k) s₁ := by
    refine .compute _ _ fun x hx => hmem x fun hstack => ?_
    rcases hx with ⟨t, d, ht, hx⟩ | ⟨t, d, -, hx⟩
    · have hne : t ≠ s.current k := fun h => by
        have hnone := I.running k
        rw [← h, ht] at hnone
        nomatch hnone
      exact (footprint_other hne (I.frame t d ht) hx).2 hstack
    · exact Set.disjoint_left.mp (L.apart _ t) hstack (span_subset (by decide) hx)
  have I₁ : Inv L s₁ := I.step hcompute
  have hload : ∀ i : Word, load (s₁.view k).mem ((s₁.view k).reg .esp + i) =
      load mem (p + (4 + i)) := fun i => by rw [hesp, add_assoc]; rfl
  have harguments : Arguments (s₁.view k) (L.area (s₁.current k)) (L.area u) 0 0 := by
    refine ⟨(hload 4).trans ?_, (hload 8).trans ?_, (hload 12).trans ?_, (hload 16).trans ?_⟩
    · change load mem (p + 8) = _
      simp (disch := decide) only [mem, load_store_offset, load_store, s₁]
    · change load mem (p + 12) = _
      simp (disch := decide) only [mem, load_store_offset, load_store]
    · change load mem (p + 16) = _
      simp (disch := decide) only [mem, load_store_offset, load_store]
    · exact load_store _ _ _
  have A := I₁.apart (k := k) hleft hsource htarget
  have e := entry_spec 0 0 0 A (I₁.suspended u c hleft)
  let r := (entry (s₁.view k) (L.area (s₁.current k)) (L.area u) 0 0 0 c).ret
  refine ⟨s₁, s₁.switched k u (leave r), hcompute, rfl, rfl, .switch (c := c) (fun _ e => some e.ret)
    0 0 0 hleft harguments hsource htarget ?_ ?_, ?_, ?_, hpush⟩
  · intro r' hr
    obtain rfl := Option.some.inj hr
    exact ⟨⟨rfl, rfl, rfl, rfl, rfl, rfl, rfl, rfl, fun _ _ => rfl⟩, rfl⟩
  · exact (ends_iff harguments A (I₁.suspended u c hleft)).mpr ⟨r, rfl, e.back, rfl⟩
  · exact Function.update_self ..
  · exact Function.update_self ..

def Without (L : Layout T) (t : T) (s s' : System K T) : Prop :=
  ∃ e, (∀ k, e ≠ .switch k t) ∧ Step L s e s'

theorem left_of_without (I : Inv L s) (hst : Without L t s s') (hleft : s.left t = some c) :
    s'.left t = some c ∧ s'.directory t = s.directory t := by
  obtain ⟨e, hne, hst⟩ := hst
  cases hst with
  | compute cpu mem hkept => exact ⟨hleft, rfl⟩
  | @create _ u tcb stack pd entry hnew hstack =>
    have htu : t ≠ u := by
      rintro rfl
      rw [(I.made t hnew).1] at hleft
      nomatch hleft
    exact ⟨(System.create_left_other htu).trans hleft, System.create_directory_other htu⟩
  | @switch k u _ _ ext action arg back hu harguments hsource htarget haction hends =>
    have htu : t ≠ u := fun h => hne k (h ▸ rfl)
    refine ⟨?_, rfl⟩
    change s.leftAfter k u t = some c
    rw [System.leftAfter, Function.update_of_ne (I.current_ne hleft k).symm,
      Function.update_of_ne htu, hleft]

theorem still_left (I : Inv L s) (hleft : s.left t = some c)
    (h : ReflTransGen (Without L t) s s') :
    Inv L s' ∧ s'.left t = some c ∧ s'.directory t = s.directory t := by
  induction h with
  | refl => exact ⟨I, hleft, rfl⟩
  | tail _ hst ih =>
    obtain ⟨I', hleft', hdirectory⟩ := ih
    obtain ⟨hl, hd⟩ := left_of_without I' hst hleft'
    obtain ⟨e, -, hst⟩ := hst
    exact ⟨I'.step hst, hl, hd.trans hdirectory⟩

section Example

def twoThreads : Layout Bool where
  area t := if t then 0x2000 else 0x1000
  stack t := if t then span 0x8000 0x2000 else span 0x4000 0x2000
  areas := by
    rintro (_ | _) (_ | _) h
    · exact absurd rfl h
    · exact disjoint_span (by decide) (by decide)
    · exact disjoint_span (by decide) (by decide)
    · exact absurd rfl h
  frames := by
    rintro (_ | _) (_ | _) h
    · exact absurd rfl h
    · exact disjoint_span (by decide) (by decide)
    · exact disjoint_span (by decide) (by decide)
    · exact absurd rfl h
  apart := by
    rintro (_ | _) (_ | _)
    · exact disjoint_span (by decide) (by decide)
    · exact disjoint_span (by decide) (by decide)
    · exact disjoint_span (by decide) (by decide)
    · exact disjoint_span (by decide) (by decide)

def booted : System Unit Bool where
  mem _ := 0
  cpu _ := ⟨fun _ => 0, 0, 0, 8, 16, 0, 0⟩
  current _ := false
  left _ := none
  directory t := if t then none else some 0

theorem init_booted : Init twoThreads booted where
  current := Function.injective_of_subsingleton _
  left _ := rfl
  directory := by
    rintro (_ | _) d hd
    · exact (Option.some.inj hd).symm ▸ rfl
    · cases hd
  exists_iff := by
    rintro (_ | _)
    · exact ⟨fun _ => ⟨(), rfl⟩, fun _ h => by cases h⟩
    · exact ⟨fun h => absurd rfl h, fun ⟨_, h⟩ => by cases h⟩

def made : System Unit Bool := booted.create twoThreads true 0 0x8000 0 0x100000

theorem step_made : Step twoThreads booted (.create () true) made :=
  .create 0 0x8000 0 0x100000 rfl (span_mono (by decide))

theorem trace_made : Trace (Init twoThreads) (Step twoThreads) [.create () true] made :=
  (Trace.start init_booted).step step_made

theorem made_frame :
    span ((System.firstContext booted.mem 0x2000 0x8000 0x100000).esp - 12) 20 ⊆
      twoThreads.stack true := by
  have h : (System.firstContext booted.mem 0x2000 0x8000 0x100000).esp - 12 =
      (0x8000 : Word) + 0x1fec := by
    change (0x8000 + 4 * (2048 - 2) - 12 : Word) = _
    decide
  rw [h]
  exact span_subset (n := 0x2000) (by decide)

end Example

/-- Whatever runs in between and on whichever core the thread is taken up again: when its call of
`gheith_contextSwitch` returns, it has its registers, its stack, its flags and its address space
back. -/
theorem resumes_as_left {es : List (Event K T)} {s₀ s₁ s₂ s₃ : System K T} {j k : K} {u : T}
    (h : Trace (Init L) (Step L) es s₀) (hleave : Step L s₀ (.switch k u) s₁)
    (hbetween : ReflTransGen (Without L (s₀.current k)) s₁ s₂)
    (hreturn : Step L s₂ (.switch j (s₀.current k)) s₃) :
    Resumed (.of (s₀.view k)) (s₃.cpu j) ∧ s₀.directory (s₀.current k) = some (s₃.cpu j).cr3 := by
  have I := Inv.of_trace (h.step hleave)
  have hleft : s₁.left (s₀.current k) = some (.of (s₀.view k)) ∧
      s₁.directory (s₀.current k) = s₀.directory (s₀.current k) := by
    cases hleave with
    | switch ext action arg back hu harguments hsource htarget haction hends =>
      exact ⟨Function.update_self .., rfl⟩
  obtain ⟨I', hleft', hdirectory'⟩ := still_left I hleft.1 hbetween
  obtain ⟨c, hc, hresumed, hcr3⟩ := I'.resumed hreturn
  rw [hleft', Option.some.injEq] at hc
  exact ⟨hc ▸ hresumed, (hleft.2.symm.trans hdirectory'.symm).trans hcr3⟩

theorem resumes_as_left_twoThreads : ∃ (es : List (Event Unit Bool)) (s₀ s₁ s₂ s₃ : System Unit Bool),
    Trace (Init twoThreads) (Step twoThreads) es s₀ ∧ Step twoThreads s₀ (.switch () true) s₁ ∧
      ReflTransGen (Without twoThreads (s₀.current ())) s₁ s₂ ∧
      Step twoThreads s₂ (.switch () (s₀.current ())) s₃ ∧
      Resumed (.of (s₀.view ())) (s₃.cpu ()) ∧
      s₀.directory (s₀.current ()) = some (s₃.cpu ()).cr3 := by
  obtain ⟨s₀, s₁, hcompute, hcurrent, -, hleave, htrue, hleft, hesp⟩ :=
    switch_possible (u := true) (Inv.of_trace trace_made) rfl made_frame (p := 0x4100)
      (span_subset (n := 0x2000) (a := 0x4000) (i := 0x100) (by decide))
  have htrace := trace_made.step hcompute
  have hfalse : s₀.current () = false := congrFun hcurrent ()
  have hsource : span ((Context.of (s₀.view ())).esp - 12) 20 ⊆ span 0x4000 0x2000 := by
    rw [hesp]
    exact span_subset (a := 0x4000) (i := 0xf4) (by decide)
  obtain ⟨s₂, s₃, hcompute', hcurrent', hleft', hreturn, -⟩ :=
    switch_possible (u := false) (Inv.of_trace (htrace.step hleave)) hleft hsource (p := 0x8100)
      (by rw [htrue]; exact span_subset (a := 0x8000) (i := 0x100) (by decide))
  have hbetween : ReflTransGen (Without twoThreads (s₀.current ())) s₁ s₂ :=
    .single ⟨_, fun _ h => (by cases h), hcompute'⟩
  rw [← hfalse] at hreturn
  exact ⟨_, s₀, s₁, s₂, s₃, htrace, hleave, hbetween, hreturn,
    resumes_as_left htrace hleave hbetween hreturn⟩

/-- A thread that is taken up for the first time is at `entry`, with interrupts enabled. -/
theorem starts_at_entry {es : List (Event K T)} {s₀ s₁ s₂ : System K T} {j : K}
    {tcb stack pd entry : Word} (h : Trace (Init L) (Step L) es s₀) (hnew : s₀.directory t = none)
    (hstack : span stack 8192 ⊆ L.stack t)
    (hbetween : ReflTransGen (Without L t) (s₀.create L t tcb stack pd entry) s₁)
    (htake : Step L s₁ (.switch j t) s₂) : (s₂.cpu j).eip = entry ∧ (s₂.cpu j).eflags = 0x200 ∧
      (s₂.cpu j).reg .esp = stack + 8192 ∧ (s₂.cpu j).cr3 = pd := by
  have I := (Inv.of_trace h).create hnew tcb pd entry hstack
  obtain ⟨I', hleft', hdirectory'⟩ := still_left I System.create_left_self hbetween
  obtain ⟨c, hc, hresumed, hcr3⟩ := I'.resumed htake
  rw [hleft', Option.some.injEq] at hc
  rw [hdirectory', System.create_directory_self, Option.some.injEq] at hcr3
  refine ⟨?_, ?_, ?_, hcr3.symm⟩
  · rw [hresumed.eip, ← hc]
    rfl
  · rw [hresumed.eflags, ← hc]
    rfl
  · rw [hresumed.esp, ← hc]
    change stack + 4 * (2048 - 2) + 8 = _
    rw [add_assoc]
    rfl

theorem starts_at_entry_twoThreads : ∃ s₁ s₂ : System Unit Bool,
    ReflTransGen (Without twoThreads true) made s₁ ∧ Step twoThreads s₁ (.switch () true) s₂ ∧
      (s₂.cpu ()).eip = 0x100000 ∧ (s₂.cpu ()).eflags = 0x200 ∧
      (s₂.cpu ()).reg .esp = 0x8000 + 8192 ∧ (s₂.cpu ()).cr3 = 0 := by
  obtain ⟨s₁, s₂, hcompute, -, -, htake, -⟩ :=
    switch_possible (u := true) (Inv.of_trace trace_made) rfl made_frame (p := 0x4100)
      (span_subset (n := 0x2000) (a := 0x4000) (i := 0x100) (by decide))
  have hbetween : ReflTransGen (Without twoThreads true) made s₁ :=
    .single ⟨_, fun _ h => (by cases h), hcompute⟩
  exact ⟨s₁, s₂, hbetween, htake,
    starts_at_entry (.start init_booted) rfl (span_mono (by decide)) hbetween htake⟩

end OsShell.ContextSwitch
