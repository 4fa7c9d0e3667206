import OsShell.Library.Bytes
import OsShell.Library.Delivery

/-!
# Copying

`cp` reads up to a hundred bytes and writes them, until there is nothing left to read. How
many bytes a call moves is up to the descriptors. The texts about errors go to descriptor 1,
which may be the one that is written to. The loops do not look at the bytes, so that the
functions are given for bytes of any kind.
-/

namespace OsShell.Programs

open Bytes Delivery

/-- The two descriptors: how many bytes a call moves, or a negative number if a `write` fails. A
`read` goes by the number of bytes that are left. -/
structure Descriptors (σ : Type) where
  read : σ → ℕ → ℕ → ℤ × σ
  write : σ → ℕ → ℤ × σ
  read_end : ∀ s requested, (read s requested 0).1 = 0
  read_moves : ∀ s requested left, 0 < requested → 0 < left →
    1 ≤ (read s requested left).1 ∧ (read s requested left).1 ≤ min requested left
  write_moves : ∀ s requested, 0 < requested → 0 ≤ (write s requested).1 →
    1 ≤ (write s requested).1 ∧ (write s requested).1 ≤ requested

/-- A run of `cp`: what is left to read, what the writes have accepted and what they have
returned. -/
structure Copy (σ α : Type) where
  state : σ
  left : List α
  accepted : List α
  results : List ℤ

structure Texts (α : Type) where
  readError : List α
  writeError : List α

def cpTexts (fromFd toFd : ℤ) : Texts UInt8 where
  readError := chars "hello?\n" ++
    chars ("*** libc.c:28 read error, fd = " ++ toString fromFd ++ "\n")
  writeError := chars ("*** libc.c:35 write error, fd = " ++ toString toFd ++ "\n")

section Code

variable {σ α : Type} (d : Descriptors σ) (toFd : ℤ) (texts : Texts α)

/-- `write(to, ..)` -/
def Descriptors.writeBytes (bytes : List α) (c : Copy σ α) : ℤ × Copy σ α :=
  let r := d.write c.state bytes.length
  (r.1, { c with state := r.2, accepted := c.accepted ++ bytes.take r.1.toNat
                 results := c.results ++ [r.1] })

/-- `printf` writes a character at a time. -/
def Descriptors.print (text : List α) (c : Copy σ α) : Copy σ α :=
  if toFd = 1 then text.foldl (fun c x => (d.writeBytes [x] c).2) c else c

/-- `while (n > 0) { m = write(to, ptr, n); .. }`, where `ptr` and `n` are left with the list. -/
def Descriptors.cpWrite : ℕ → List α → Copy σ α → Option (Copy σ α)
  | _, [], c => some c
  | 0, _ :: _, _ => none
  | rounds + 1, x :: buf, c =>
    let r := d.writeBytes (x :: buf) c
    if r.1 < 0 then some (d.print toFd texts.writeError r.2)
    else cpWrite rounds ((x :: buf).drop r.1.toNat) r.2

def Descriptors.cp : ℕ → Copy σ α → Option (Copy σ α)
  | 0, _ => none
  | rounds + 1, c =>
    let r := d.read c.state 100 c.left.length
    let buf := c.left.take r.1.toNat
    let c := { c with state := r.2, left := c.left.drop r.1.toNat }
    if r.1 = 0 then some c
    else if r.1 < 0 then some (d.print toFd texts.readError c)
    -- a write that fails ends the inner loop only
    else (d.cpWrite toFd texts buf.length buf c).bind (cp rounds)

end Code

section Copies

variable {σ : Type} (d : Descriptors σ) (s : σ) (fromFd toFd : ℤ)

def Descriptors.copy (source : List UInt8) : Option (Copy σ UInt8) :=
  d.cp toFd (cpTexts fromFd toFd) (source.length + 1) ⟨s, source, [], []⟩

/-- What `write` returns in the run on `n` bytes, whatever the bytes are. -/
def Descriptors.results (n : ℕ) : List ℤ :=
  ((d.copy s fromFd toFd (List.replicate n 0)).map Copy.results).getD []

/-- The run ends; the source has been copied, or its beginning if a write has failed. -/
def Descriptors.Copies (source : List UInt8) : Prop :=
  ∃ c, d.copy s fromFd toFd source = some c ∧
    ((∀ m ∈ c.results, 0 ≤ m) → c.accepted = source) ∧
    ((∃ m ∈ c.results, m < 0) → c.accepted <+: source)

end Copies

/-! ## What a run delivers -/

section Delivery

variable {σ α : Type} {d : Descriptors σ} {toFd : ℤ} {texts : Texts α} {c c' c'' : Copy σ α}
  {xs ys : List α} {ms ns : List ℤ}

structure Copy.Extends (c c' : Copy σ α) (xs : List α) (ms : List ℤ) : Prop where
  accepted : c'.accepted = c.accepted ++ xs
  results : c'.results = c.results ++ ms

theorem Copy.Extends.refl (c : Copy σ α) : c.Extends c [] [] :=
  ⟨(List.append_nil _).symm, (List.append_nil _).symm⟩

theorem Copy.Extends.trans (h : c.Extends c' xs ms) (h' : c'.Extends c'' ys ns) :
    c.Extends c'' (xs ++ ys) (ms ++ ns) where
  accepted := by rw [h'.accepted, h.accepted, List.append_assoc]
  results := by rw [h'.results, h.results, List.append_assoc]

theorem Descriptors.writeBytes_extends (d : Descriptors σ) (bytes : List α) (c : Copy σ α) :
    c.Extends (d.writeBytes bytes c).2 (bytes.take (d.writeBytes bytes c).1.toNat)
      [(d.writeBytes bytes c).1] :=
  ⟨rfl, rfl⟩

theorem Descriptors.take_eq_nil_iff (d : Descriptors σ) {bytes : List α} (hne : bytes ≠ [])
    (c : Copy σ α) :
    bytes.take (d.writeBytes bytes c).1.toNat = [] ↔ (d.writeBytes bytes c).1 < 0 := by
  have hmoves := d.write_moves c.state bytes.length (List.length_pos_of_ne_nil hne)
  rw [List.take_eq_nil_iff, or_iff_left hne]
  change (d.write c.state bytes.length).1.toNat = 0 ↔ (d.write c.state bytes.length).1 < 0
  omega

theorem Descriptors.print_spec (d : Descriptors σ) (toFd : ℤ) (text : List α) (c : Copy σ α) :
    (d.print toFd text c).left = c.left ∧ ∃ xs ms, c.Extends (d.print toFd text c) xs ms ∧
      (xs = [] ↔ ∀ m ∈ ms, m < 0) ∧ ∀ x ∈ xs, x ∈ text := by
  rw [print]
  split
  · induction text generalizing c with
    | nil => exact ⟨rfl, [], [], .refl c, by simp, by simp⟩
    | cons x text ih =>
      obtain ⟨hleft, xs, ms, hextends, hnil, hmem⟩ := ih (d.writeBytes [x] c).2
      refine ⟨hleft, _, _, (d.writeBytes_extends [x] c).trans hextends, ?_, ?_⟩
      · rw [List.append_eq_nil_iff, d.take_eq_nil_iff (List.cons_ne_nil x []), hnil,
          List.forall_mem_append, List.forall_mem_singleton]
      · refine List.forall_mem_append.mpr ⟨fun y hy => ?_, fun y hy => ?_⟩
        · exact List.mem_cons.mpr (.inl (List.mem_singleton.mp (List.mem_of_mem_take hy)))
        · exact List.mem_cons_of_mem _ (hmem y hy)
  · exact ⟨rfl, [], [], .refl c, by simp, by simp⟩

theorem Descriptors.cpWrite_spec (d : Descriptors σ) (toFd : ℤ) (texts : Texts α) {rounds : ℕ}
    {buf : List α} (hrounds : buf.length ≤ rounds) (c : Copy σ α) :
    ∃ c', d.cpWrite toFd texts rounds buf c = some c' ∧ c'.left = c.left ∧
      ∃ xs ms, c.Extends c' xs ms ∧ ∀ source ys ns,
        Delivered (· ∈ texts.writeError) source ys ns →
        Delivered (· ∈ texts.writeError) (buf ++ source) (xs ++ ys) (ms ++ ns) := by
  induction rounds generalizing buf c with
  | zero =>
    obtain rfl := List.length_eq_zero_iff.mp (Nat.le_zero.mp hrounds)
    exact ⟨c, rfl, rfl, [], [], .refl c, fun _ _ _ h => h⟩
  | succ rounds ih =>
    cases buf with
    | nil => exact ⟨c, rfl, rfl, [], [], .refl c, fun _ _ _ h => h⟩
    | cons x buf =>
      have hwrite := d.writeBytes_extends (x :: buf) c
      have hnil := d.take_eq_nil_iff (List.cons_ne_nil x buf) c
      rw [cpWrite]
      by_cases hneg : (d.writeBytes (x :: buf) c).1 < 0
      · rw [if_pos hneg]
        obtain ⟨hleft, text, answers, hextends, htext, hmem⟩ :=
          d.print_spec toFd texts.writeError (d.writeBytes (x :: buf) c).2
        refine ⟨_, rfl, hleft, _, _, hwrite.trans hextends, fun source ys ns h => ?_⟩
        rw [hnil.mpr hneg]
        exact .lost hneg (List.cons_ne_nil x buf) htext hmem h
      · rw [if_neg hneg]
        have hlen : ((x :: buf).drop (d.writeBytes (x :: buf) c).1.toNat).length ≤ rounds := by
          have hpos := mt hnil.mp hneg
          rw [List.take_eq_nil_iff, not_or] at hpos
          rw [List.length_cons] at hrounds
          rw [List.length_drop, List.length_cons]
          omega
        obtain ⟨c', hloop, hleft, xs, ms, hextends, hrest⟩ :=
          ih hlen (d.writeBytes (x :: buf) c).2
        refine ⟨c', hloop, hleft, _, _, hwrite.trans hextends, fun source ys ns h => ?_⟩
        have hmoved := Delivered.moved (Int.not_lt.mp hneg) (mt hnil.mp hneg) (hrest source ys ns h)
        rw [← List.append_assoc, List.take_append_drop] at hmoved
        rwa [List.append_assoc]

theorem Descriptors.cp_spec (d : Descriptors σ) (toFd : ℤ) (texts : Texts α) {rounds : ℕ}
    {c : Copy σ α} (hrounds : c.left.length < rounds) :
    ∃ c', d.cp toFd texts rounds c = some c' ∧ ∃ xs ms, c.Extends c' xs ms ∧
      Delivered (· ∈ texts.writeError) c.left xs ms := by
  induction rounds generalizing c with
  | zero => exact absurd hrounds (Nat.not_lt_zero _)
  | succ rounds ih =>
    rw [cp]
    by_cases hend : c.left = []
    · have hread := d.read_end c.state 100
      rw [hend, List.length_nil, if_pos hread]
      exact ⟨_, rfl, [], [], ⟨(List.append_nil _).symm, (List.append_nil _).symm⟩, .done⟩
    · obtain ⟨hpos, hle⟩ := d.read_moves c.state 100 c.left.length (by decide)
        (List.length_pos_of_ne_nil hend)
      rw [if_neg (by omega), if_neg (by omega)]
      generalize d.read c.state 100 c.left.length = r at hpos hle
      obtain ⟨c', hwrite, hleft, xs, ms, hextends, hdelivered⟩ := d.cpWrite_spec toFd texts
        (le_refl (c.left.take r.1.toNat).length)
        { c with state := r.2, left := c.left.drop r.1.toNat }
      have hlen : c'.left.length < rounds := by
        rw [hleft, List.length_drop]
        omega
      obtain ⟨c'', hrun, ys, ns, hextends', hrest⟩ := ih hlen
      refine ⟨c'', ?_, _, _, Copy.Extends.trans ⟨hextends.accepted, hextends.results⟩ hextends', ?_⟩
      · rw [hwrite]
        exact hrun
      · have hall := hdelivered _ _ _ hrest
        rwa [hleft, List.take_append_drop] at hall

end Delivery

/-! ## Other bytes -/

section Map

variable {σ α β : Type} (f : α → β) (d : Descriptors σ) (toFd : ℤ) (texts : Texts α)

def Copy.map (c : Copy σ α) : Copy σ β := ⟨c.state, c.left.map f, c.accepted.map f, c.results⟩

def Texts.map : Texts β := ⟨texts.readError.map f, texts.writeError.map f⟩

theorem Descriptors.writeBytes_map (bytes : List α) (c : Copy σ α) :
    d.writeBytes (bytes.map f) (c.map f) =
      ((d.writeBytes bytes c).1, (d.writeBytes bytes c).2.map f) := by
  simp only [writeBytes, Copy.map, List.length_map, List.map_append, List.map_take]

theorem Descriptors.print_map (text : List α) (c : Copy σ α) :
    d.print toFd (text.map f) (c.map f) = (d.print toFd text c).map f := by
  rw [print, print]
  split
  · induction text generalizing c with
    | nil => rfl
    | cons x text ih =>
      have hwrite := d.writeBytes_map f [x] c
      rw [List.map_cons, List.foldl_cons, List.foldl_cons, ← ih]
      exact congrArg (fun r : ℤ × Copy σ β => List.foldl _ r.2 _) hwrite
  · rfl

theorem Descriptors.cpWrite_map (rounds : ℕ) (buf : List α) (c : Copy σ α) :
    d.cpWrite toFd (texts.map f) rounds (buf.map f) (c.map f) =
      (d.cpWrite toFd texts rounds buf c).map (Copy.map f) := by
  induction rounds generalizing buf c with
  | zero => cases buf <;> rfl
  | succ rounds ih =>
    cases buf with
    | nil => rfl
    | cons x buf =>
      have hwrite := d.writeBytes_map f (x :: buf) c
      rw [List.map_cons] at hwrite ⊢
      rw [cpWrite, cpWrite, hwrite]
      by_cases hneg : (d.writeBytes (x :: buf) c).1 < 0
      · rw [if_pos hneg, if_pos hneg]
        exact congrArg some (d.print_map f toFd texts.writeError _)
      · rw [if_neg hneg, if_neg hneg, ← List.map_cons, ← List.map_drop]
        exact ih _ _

theorem Descriptors.cp_map (rounds : ℕ) (c : Copy σ α) :
    d.cp toFd (texts.map f) rounds (c.map f) = (d.cp toFd texts rounds c).map (Copy.map f) := by
  induction rounds generalizing c with
  | zero => rfl
  | succ rounds ih =>
    rw [cp, cp]
    have hread : d.read (c.map f).state 100 (c.map f).left.length =
        d.read c.state 100 c.left.length := by
      rw [show (c.map f).left.length = c.left.length from List.length_map f]
      rfl
    rw [hread]
    generalize d.read c.state 100 c.left.length = r
    have hnext : { c.map f with state := r.2, left := (c.map f).left.drop r.1.toNat } =
        ({ c with state := r.2, left := c.left.drop r.1.toNat } : Copy σ α).map f := by
      rw [Copy.map, Copy.map, List.map_drop]
    have hbuf : (c.map f).left.take r.1.toNat = (c.left.take r.1.toNat).map f := List.map_take.symm
    rw [hnext, hbuf, List.length_map]
    split
    · rfl
    · split
      · exact congrArg some (d.print_map f toFd texts.readError _)
      · rw [cpWrite_map, Option.bind_map, Option.map_bind]
        exact Option.bind_congr fun c' _ => ih c'

end Map

section Places

variable {σ : Type} (d : Descriptors σ) (s : σ) (fromFd toFd : ℤ) (n : ℕ)

/-- A byte of the source for its place in it, or a byte of a text. -/
abbrev Place := ℕ ⊕ UInt8

def places : List Place := (List.range n).map Sum.inl

theorem map_places (content : ℕ → UInt8) :
    (places n).map (Sum.elim content id) = (List.range n).map content := by
  rw [places, List.map_map]
  rfl

theorem places_nodup : (places n).Nodup :=
  List.nodup_range.map Sum.inl_injective

def placeTexts : Texts Place := (cpTexts fromFd toFd).map Sum.inr

theorem placeTexts_map (content : ℕ → UInt8) :
    (placeTexts fromFd toFd).map (Sum.elim content id) = cpTexts fromFd toFd := by
  simp [placeTexts, Texts.map]

theorem not_mem_placeTexts : ∀ x ∈ places n, x ∉ (placeTexts fromFd toFd).writeError := by
  intro x hx htext
  obtain ⟨p, -, rfl⟩ := List.mem_map.mp hx
  obtain ⟨b, -, hb⟩ := List.mem_map.mp htext
  exact absurd hb (by simp)

theorem Descriptors.exists_places : ∃ c : Copy σ Place,
    (∀ content : ℕ → UInt8, d.copy s fromFd toFd ((List.range n).map content) =
      some (c.map (Sum.elim content id))) ∧
    Delivered (· ∈ (placeTexts fromFd toFd).writeError) (places n) c.accepted c.results := by
  have hlen : (places n).length < n + 1 := by
    rw [places, List.length_map, List.length_range]
    exact Nat.lt_succ_self n
  obtain ⟨c, hrun, xs, ms, hextends, hdelivered⟩ := d.cp_spec toFd (placeTexts fromFd toFd)
    (show (⟨s, places n, [], []⟩ : Copy σ Place).left.length < n + 1 from hlen)
  refine ⟨c, fun content => ?_, ?_⟩
  · have hmap := d.cp_map (Sum.elim content id) toFd (placeTexts fromFd toFd) (n + 1)
      ⟨s, places n, [], []⟩
    rw [placeTexts_map, hrun, Copy.map, map_places] at hmap
    rw [copy, List.length_map, List.length_range]
    exact hmap
  · have haccepted : c.accepted = xs := hextends.accepted
    have hresults : c.results = ms := hextends.results
    rwa [haccepted, hresults]

theorem exists_content {source : List UInt8} (hlen : source.length = n) :
    ∃ content : ℕ → UInt8, source = (List.range n).map content := by
  refine ⟨fun i => source.getD i 0, List.ext_getElem (by simp [hlen]) fun i hi hi' => ?_⟩
  simp [hi]

/-- A run always ends, and when no write fails it copies the source. After a failed write the runs on
`n` bytes have all copied the beginning of the source if and only if no write is accepted after one
that has failed. -/
theorem cp_correct_iff :
    (∀ source : List UInt8, source.length = n → ∃ c, d.copy s fromFd toFd source = some c ∧
      c.results = d.results s fromFd toFd n ∧
      ((∀ m ∈ c.results, 0 ≤ m) → c.accepted = source)) ∧
    ((∀ source : List UInt8, source.length = n → d.Copies s fromFd toFd source) ↔
      Settled (d.results s fromFd toFd n)) := by
  obtain ⟨c, hruns, hdelivered⟩ := d.exists_places s fromFd toFd n
  have hresults : d.results s fromFd toFd n = c.results := by
    obtain ⟨content, hcontent⟩ := exists_content n List.length_replicate
    rw [Descriptors.results, hcontent, hruns]
    rfl
  have hcopied : ∀ content : ℕ → UInt8, (∀ m ∈ c.results, 0 ≤ m) →
      c.accepted.map (Sum.elim content id) = (List.range n).map content := by
    intro content hall
    rw [hdelivered.eq_of_nonneg hall, map_places]
  have hcopies : ∀ content : ℕ → UInt8, d.Copies s fromFd toFd ((List.range n).map content) ↔
      c.accepted.map (Sum.elim content id) <+: (List.range n).map content := by
    intro content
    constructor
    · rintro ⟨c', hrun, hall, hsome⟩
      obtain rfl := Option.some.inj ((hruns content).symm.trans hrun)
      by_cases hfailed : ∃ m ∈ c.results, m < 0
      · exact hsome hfailed
      · simp only [not_exists, not_and, not_lt] at hfailed
        rw [hcopied content hfailed]
    · exact fun hfront => ⟨_, hruns content, hcopied content, fun _ => hfront⟩
  rw [hresults]
  refine ⟨fun source hlen => ?_, ?_⟩
  · obtain ⟨content, rfl⟩ := exists_content n hlen
    exact ⟨_, hruns content, rfl, hcopied content⟩
  · have : Nontrivial UInt8 := nontrivial_of_ne 0 1 (by decide)
    calc (∀ source : List UInt8, source.length = n → d.Copies s fromFd toFd source)
        ↔ ∀ content : ℕ → UInt8,
            c.accepted.map (Sum.elim content id) <+: (List.range n).map content := by
          refine ⟨fun h content => (hcopies content).mp (h _ (by simp)), fun h source hlen => ?_⟩
          obtain ⟨content, rfl⟩ := exists_content n hlen
          exact (hcopies content).mpr (h content)
      _ ↔ c.accepted <+: places n := forall_map_prefix_iff
      _ ↔ Settled c.results := ⟨hdelivered.settled_of_prefix (places_nodup n)
          (not_mem_placeTexts fromFd toFd n), hdelivered.prefix_of_settled⟩

end Places

/-- One byte a call; the first write fails. The state counts the writes. -/
def firstWriteFails : Descriptors ℕ where
  read k _ left := (min 1 left, k)
  write k _ := (if k = 0 then -1 else 1, k + 1)
  read_end _ _ := by simp
  read_moves _ requested left hrequested hleft := by simp; omega
  write_moves k requested hpos hnonneg := by
    dsimp only at hnonneg ⊢
    split at hnonneg
    · exact absurd hnonneg (by decide)
    · omega

/-- Of the bytes 1 and 2 only the second one arrives. -/
theorem firstWriteFails_not_copies : ¬ firstWriteFails.Copies 0 3 4 [1, 2] := by
  rintro ⟨c, hrun, -, hfront⟩
  have hdone : firstWriteFails.copy 0 3 4 [1, 2] = some ⟨2, [], [2], [-1, 1]⟩ := rfl
  obtain rfl := Option.some.inj (hdone.symm.trans hrun)
  exact absurd (hfront (by decide)) (by decide)

end OsShell.Programs
