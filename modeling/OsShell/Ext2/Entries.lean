import OsShell.Ext2.Files
import OsShell.Library.Loops

/-!
# The entries of a directory

`entries` goes from one entry to the next by the length that the entry gives for
itself, in 32 bits, and never looks at that length. Nothing but the number of
rounds bounds the loop here: a call that needs more has no result. The name of an
entry is the bytes that were read for it, with a zero behind them.
-/

namespace OsShell.Ext2.Node

open Bytes Stopping

/-- `K::streq`, for strings with a zero behind them. -/
def streq : List UInt8 → List UInt8 → Bool
  | [], b => b.headD 0 = 0
  | x :: a, b => if x ≠ b.headD 0 then false else if x = 0 then true else streq a b.tail

structure Read where
  inode : ℕ
  totalSize : ℕ
  name : List UInt8

def readEntry (node : Node) (junk : Buffer) (offset : ℕ) : Except Halt Read := do
  let inode ← (node.io junk).readThing junk offset 4
  let total_size ← (node.io junk).readThing junk ((offset + 4) % 2 ^ 32) 2
  let name_length ← (node.io junk).readThing junk ((offset + 6) % 2 ^ 32) 1
  let length := (name_length 0).toNat
  let (cnt, name) ← (node.io junk).readAll junk ((offset + 8) % 2 ^ 32) length 0 junk
  assert (cnt = length) "cnt == name_length"
  return ⟨le32 inode 0, le16 total_size 0, slice name 0 length⟩

section Loop

variable {σ : Type} (node : Node) (junk : Buffer) (work : ℕ → List UInt8 → σ → σ)

def entriesLoop : ℕ → ℕ → σ → Option (Except Halt σ)
  | 0, _, _ => none
  | rounds + 1, offset, s =>
    if offset < node.data.sizeLow then
      match node.readEntry junk offset with
      | .error e => some (.error e)
      | .ok e => entriesLoop rounds ((offset + e.totalSize) % 2 ^ 32) (work e.inode e.name s)
    else some (.ok s)

def entries (rounds : ℕ) (s : σ) : Option (Except Halt σ) :=
  if node.data.isDir then node.entriesLoop junk work rounds 0 s
  else some (.error (.assertion "is_dir()"))

def find (name : List UInt8) (rounds : ℕ) : Option (Except Halt ℕ) :=
  node.entries junk (fun number nm out => if streq name nm then number else out) rounds 0

def entryCount (rounds : ℕ) : Option (Except Halt ℕ) :=
  if node.data.isDir then node.entries junk (fun _ _ count => (count + 1) % 2 ^ 32) rounds 0
  else some (.error (.assertion "is_dir()"))

end Loop

theorem entriesLoop_add {σ : Type} {node : Node} {junk : Buffer} {work : ℕ → List UInt8 → σ → σ}
    {rounds offset : ℕ} {s : σ} {r : Except Halt σ} (k : ℕ)
    (h : node.entriesLoop junk work rounds offset s = some r) :
    node.entriesLoop junk work (rounds + k) offset s = some r := by
  induction rounds generalizing offset s with
  | zero => nomatch h
  | succ rounds ih =>
    rw [Nat.add_right_comm, entriesLoop]
    rw [entriesLoop] at h
    split at h
    · rename_i hlt
      rw [if_pos hlt]
      cases hread : node.readEntry junk offset with
      | error e => rwa [hread] at h
      | ok e =>
        rw [hread] at h
        exact ih h
    · rename_i hlt
      rwa [if_neg hlt]

theorem find_add {node : Node} {junk : Buffer} {name : List UInt8} {rounds : ℕ}
    {r : Except Halt ℕ} (k : ℕ) (h : node.find junk name rounds = some r) :
    node.find junk name (rounds + k) = some r := by
  unfold find entries at h ⊢
  by_cases hdir : node.data.isDir
  · rw [if_pos hdir] at h ⊢
    exact entriesLoop_add k h
  · rwa [if_neg hdir] at h ⊢

theorem find_unique {node : Node} {junk : Buffer} {name : List UInt8} {rounds rounds' : ℕ}
    {r r' : Except Halt ℕ} (h : node.find junk name rounds = some r)
    (h' : node.find junk name rounds' = some r') : r = r' := by
  have hmore := find_add rounds' h
  rw [Nat.add_comm, find_add rounds h'] at hmore
  exact (Option.some.inj hmore).symm

theorem readEntry_of_holds {node : Node} {content junk : Buffer} {offset : ℕ}
    (h : (node.io junk).Holds content)
    (hfit : offset + 8 + (content (offset + 6)).toNat ≤ node.data.sizeLow) :
    node.readEntry junk offset = .ok ⟨le32 content offset, le16 content (offset + 4),
      slice content (offset + 8) (content (offset + 6)).toNat⟩ := by
  have hsize : node.data.sizeLow < 2 ^ 32 := le32_lt _ _
  have hthing : ∀ p size, p + size ≤ node.data.sizeLow → (node.io junk).readThing junk p size =
      .ok (put 0 size (fun i => content (p + i)) junk) := fun p size hp => BlockIO.readThing_spec h hp
  have hname : (put 0 1 (fun i => content (offset + 6 + i)) junk) 0 = content (offset + 6) :=
    put_of_mem _ _ Nat.one_pos
  have hmin : min (content (offset + 6)).toNat ((node.io junk).sizeInBytes - (offset + 8)) =
      (content (offset + 6)).toNat := by
    change min _ (node.data.sizeLow - _) = _
    omega
  unfold readEntry
  rw [Nat.mod_eq_of_lt (show offset + 4 < 2 ^ 32 by omega),
    Nat.mod_eq_of_lt (show offset + 6 < 2 ^ 32 by omega),
    Nat.mod_eq_of_lt (show offset + 8 < 2 ^ 32 by omega), hthing offset 4 (by omega),
    hthing (offset + 4) 2 (by omega), hthing (offset + 6) 1 (by omega)]
  simp only [ok_bind, hname]
  rw [ BlockIO.readAll_spec h (by change _ ≤ node.data.sizeLow; omega), hmin]
  simp only [ok_bind, assert_true]
  have hinode := le32_congr (b := put 0 4 (fun i => content (offset + i)) junk) (c := content)
    (p := 0) (q := offset) fun i hi => put_of_mem _ _ hi
  have htotal := le16_congr (b := put 0 2 (fun i => content (offset + 4 + i)) junk) (c := content)
    (p := 0) (q := offset + 4) fun i hi => put_of_mem _ _ hi
  rw [hinode, htotal, slice_put]
  refine congrArg (fun name => Except.ok (Read.mk _ _ name)) (List.map_congr_left fun i _ => ?_)
  rw [Nat.zero_add]

/-! ## Whether it ends -/

section Rounds

variable {node : Node} {junk : Buffer} {offset : ℕ}

def nextEntry (node : Node) (junk : Buffer) (offset : ℕ) : Option ℕ :=
  if offset < node.data.sizeLow then
    match node.readEntry junk offset with
    | .error _ => none
    | .ok e => some ((offset + e.totalSize) % 2 ^ 32)
  else none

def OnChain (node : Node) (junk : Buffer) (offset : ℕ) : Prop :=
  Relation.ReflTransGen (Loops.Steps (node.nextEntry junk)) 0 offset

theorem entriesLoop_isSome {σ : Type} {work : ℕ → List UInt8 → σ → σ} {rounds : ℕ} {s : σ} :
    (node.entriesLoop junk work rounds offset s).isSome ↔
      Loops.after (node.nextEntry junk) rounds offset = none := by
  induction rounds generalizing offset s with
  | zero => simp [entriesLoop, Loops.after]
  | succ rounds ih =>
    rw [entriesLoop, Loops.after, nextEntry]
    by_cases hlt : offset < node.data.sizeLow
    · rw [if_pos hlt, if_pos hlt]
      cases node.readEntry junk offset with
      | error e => simp
      | ok e => exact ih
    · simp [hlt]

theorem OnChain.lt (h : node.OnChain junk offset) : offset < 2 ^ 32 := by
  cases h with
  | refl => decide
  | tail _ hstep =>
    unfold Loops.Steps nextEntry at hstep
    split at hstep
    · split at hstep
      · nomatch hstep
      · obtain rfl := Option.some.inj hstep
        exact Nat.mod_lt _ (by decide)
    · nomatch hstep

theorem ends_iff : Loops.Ends (node.nextEntry junk) 0 ↔ ¬ Loops.Returns (node.nextEntry junk) 0 :=
  Loops.ends_iff_of_finite ((Set.finite_lt_nat (2 ^ 32)).subset fun _ => OnChain.lt)

theorem totalSize_lt {e : Read} (h : node.readEntry junk offset = .ok e) : e.totalSize < 2 ^ 16 := by
  unfold readEntry at h
  obtain ⟨_, -, h⟩ := bind_eq_ok.mp h
  obtain ⟨_, -, h⟩ := bind_eq_ok.mp h
  obtain ⟨_, -, h⟩ := bind_eq_ok.mp h
  obtain ⟨_, -, h⟩ := bind_eq_ok.mp h
  obtain ⟨_, -, h⟩ := bind_eq_ok.mp h
  obtain rfl := Except.ok.inj h
  exact le16_lt _ _

theorem steps_iff {offset' : ℕ} : Loops.Steps (node.nextEntry junk) offset offset' ↔
    offset < node.data.sizeLow ∧ ∃ e, node.readEntry junk offset = .ok e ∧
      (offset + e.totalSize) % 2 ^ 32 = offset' := by
  unfold Loops.Steps nextEntry
  by_cases hlt : offset < node.data.sizeLow
  · rw [if_pos hlt, and_iff_right hlt]
    cases node.readEntry junk offset with
    | error e => simp
    | ok e => simp
  · simp [hlt]

def Advances (node : Node) (junk : Buffer) : Prop :=
  ∀ offset e, node.OnChain junk offset → offset < node.data.sizeLow →
    node.readEntry junk offset = .ok e → e.totalSize ≠ 0

theorem returns_iff (hsize : node.data.sizeLow ≤ 2 ^ 32 - 2 ^ 16) :
    ¬ Loops.Returns (node.nextEntry junk) 0 ↔ node.Advances junk := by
  constructor
  · intro hno offset e hchain hlt hread hzero
    refine hno ⟨offset, hchain, Relation.TransGen.single (steps_iff.mpr ⟨hlt, e, hread, ?_⟩)⟩
    rw [hzero, Nat.add_zero]
    exact Nat.mod_eq_of_lt hchain.lt
  · rintro hadvances ⟨offset, hchain, hcycle⟩
    have hlt : ∀ o, Relation.TransGen (Loops.Steps (node.nextEntry junk)) offset o →
        offset < o := by
      intro o ho
      have hstep : ∀ a b, node.OnChain junk a → Loops.Steps (node.nextEntry junk) a b → a < b := by
        intro a b ha hab
        obtain ⟨hlt, e, hread, rfl⟩ := steps_iff.mp hab
        have hpos := hadvances a e ha hlt hread
        have hshort := totalSize_lt hread
        rw [Nat.mod_eq_of_lt (by omega)]
        omega
      induction ho with
      | single h => exact hstep _ _ hchain h
      | tail hab hbc ih => exact ih.trans (hstep _ _ (hchain.trans hab.to_reflTransGen) hbc)
    exact absurd (hlt offset hcycle) (lt_irrefl offset)

end Rounds

def CallEnds {α : Type} (call : ℕ → Option (Except Halt α)) : Prop :=
  ∃ rounds, (call rounds).isSome

variable {node : Node}

/-- `entries` ends for every work, and so do `find` and `entry_count`, if and only if the chain does
not come back to an entry. Short of the last 64 KiB that means: no entry has the length zero. -/
theorem entries_ends_iff (hdir : node.data.isDir) (junk : Buffer) :
    (∀ (σ : Type) (work : ℕ → List UInt8 → σ → σ) (s : σ),
      CallEnds (fun rounds => node.entries junk work rounds s) ↔
        ¬ Loops.Returns (node.nextEntry junk) 0) ∧
    (∀ name, CallEnds (node.find junk name) ↔ ¬ Loops.Returns (node.nextEntry junk) 0) ∧
    (CallEnds (node.entryCount junk) ↔ ¬ Loops.Returns (node.nextEntry junk) 0) ∧
    (node.data.sizeLow ≤ 2 ^ 32 - 2 ^ 16 →
      (¬ Loops.Returns (node.nextEntry junk) 0 ↔ node.Advances junk)) := by
  have hends : ∀ (σ : Type) (work : ℕ → List UInt8 → σ → σ) (s : σ),
      CallEnds (fun rounds => node.entries junk work rounds s) ↔
        ¬ Loops.Returns (node.nextEntry junk) 0 := by
    intro σ work s
    rw [← ends_iff, Loops.Ends]
    simp only [CallEnds, entries, if_pos hdir, entriesLoop_isSome]
  refine ⟨hends, fun name => hends ℕ _ 0, ?_, returns_iff⟩
  have hcount : node.entryCount junk =
      fun rounds => node.entries junk (fun _ _ count => (count + 1) % 2 ^ 32) rounds 0 := by
    funext rounds
    rw [entryCount, if_pos hdir]
  rw [hcount]
  exact hends ℕ _ 0

def dirData : NodeData :=
  ⟨fun i =>
    if i = 1 then 0x40
    else if i = 5 then 4
    else if i = 28 then 2
    else if i = 40 then 20
    else 0⟩

def blankDir (totalSize : ℕ) : Node :=
  oneBlock dirData [0, 0, 0, 0, .ofNat totalSize, .ofNat (totalSize / 2 ^ 8)]

theorem blankDir_readEntry {totalSize : ℕ} (hlt : totalSize < 2 ^ 16) (junk : Buffer) :
    (blankDir totalSize).readEntry junk 0 = .ok ⟨0, totalSize, []⟩ := by
  let bytes : List UInt8 := [0, 0, 0, 0, .ofNat totalSize, .ofNat (totalSize / 2 ^ 8)]
  have hstored : (blankDir totalSize).Stored (oneBlock.disk bytes) :=
    oneBlock_stored (by decide) (by decide) (by decide) bytes
  have hholds : ((blankDir totalSize).io junk).Holds fun i => oneBlock.disk bytes (20 * 1024 + i) := by
    refine ⟨show 0 < 1024 by decide, le32_lt _ _, fun b hb p buffer => ?_⟩
    change b * 1024 < 1024 at hb
    obtain rfl : b = 0 := by omega
    refine (hstored.readBlock_spec hb rfl).trans ?_
    refine congrArg Except.ok (put_congr buffer fun i _ => ?_)
    rw [Nat.zero_mul, Nat.zero_add]
    rfl
  have hfit : 0 + 8 + 0 ≤ dirData.sizeLow := by decide
  have htotal : le16 (fun i => oneBlock.disk bytes (20 * 1024 + i)) (0 + 4) = totalSize := by
    have hlow : oneBlock.disk bytes (20 * 1024 + 4) = .ofNat totalSize := rfl
    have hhigh : oneBlock.disk bytes (20 * 1024 + 5) = .ofNat (totalSize / 2 ^ 8) := rfl
    simp only [le16, Nat.zero_add, Nat.reduceAdd] at hlow hhigh ⊢
    rw [hlow, hhigh, UInt8.toNat_ofNat', UInt8.toNat_ofNat']
    omega
  rw [readEntry_of_holds hholds hfit, htotal]
  rfl

/-- With an entry as long as the block the search ends. -/
theorem blankDir_find_ends : CallEnds ((blankDir 1024).find (fun _ => 7) [97]) := by
  have hread := blankDir_readEntry (show 1024 < 2 ^ 16 by decide) fun _ => 7
  have hchain : ∀ o, (blankDir 1024).OnChain (fun _ => 7) o → o = 0 ∨ o = 1024 := by
    intro o ho
    induction ho with
    | refl => exact Or.inl rfl
    | tail _ hstep ih =>
      obtain ⟨hlt, e, he, rfl⟩ := steps_iff.mp hstep
      rcases ih with rfl | rfl
      · obtain rfl := Except.ok.inj (hread.symm.trans he)
        exact Or.inr rfl
      · exact absurd hlt (by decide)
  have h := entries_ends_iff (show (blankDir 1024).data.isDir by decide) fun _ => 7
  refine (h.2.1 [97]).mpr ((h.2.2.2 (by decide)).mpr fun o e ho hlt he => ?_)
  rcases hchain o ho with rfl | rfl
  · obtain rfl := Except.ok.inj (hread.symm.trans he)
    decide
  · exact absurd hlt (by decide)

/-- With a length of zero the loop stays where it is for ever. -/
theorem blankDir_hangs : (blankDir 0).data.isDir ∧ ∀ junk name rounds,
    (blankDir 0).find junk name rounds = none := by
  refine ⟨by decide, fun junk name rounds => ?_⟩
  have hread := blankDir_readEntry (show 0 < 2 ^ 16 by decide) junk
  have hloop : ∀ s, (blankDir 0).entriesLoop junk
      (fun number nm out => if streq name nm then number else out) rounds 0 s = none := by
    induction rounds with
    | zero => intro s; rfl
    | succ rounds ih =>
      intro s
      rw [entriesLoop, if_pos (by decide), hread]
      exact ih _
  rw [find, entries, if_pos (by decide)]
  exact hloop 0

end OsShell.Ext2.Node
