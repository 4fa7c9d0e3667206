import OsShell.Ext2.Directory

/-!
# Walking a path

`find` goes through the path by one index that both inner loops move, and copies one
component after the other into the same buffer of 257 bytes. Both loops are read as
operations on the list that is left of the path, so that the walk is the fold of
the lookups over the components.
-/

namespace OsShell.Ext2

open Bytes Stopping

/-! ## The loops -/

section Loops

variable (path : List UInt8)

theorem lt_of_char {path : List UInt8} {idx : ℕ} (h : path.getD idx 0 ≠ 0) : idx < path.length := by
  by_contra hle
  rw [List.getD_eq_default _ _ (by omega)] at h
  exact h rfl

/-- `while (path[idx] == '/') idx++` -/
def skipSlashes (idx : ℕ) : ℕ :=
  if h : path.getD idx 0 = slash then skipSlashes (idx + 1) else idx
termination_by path.length - idx
decreasing_by
  have hne : path.getD idx 0 ≠ 0 := by
    rw [h]
    decide
  have := lt_of_char hne
  omega

/-- The loop that copies a component: the new `idx`, the new `i` and the buffer. -/
def copyPart (idx i : ℕ) (part : Buffer) : Except Halt (ℕ × ℕ × Buffer) :=
  let c := path.getD idx 0
  if _ : c = 0 ∨ c = slash then .ok (idx, i, part)
  else do
    assert (i < 256) "i < 256"
    copyPart (idx + 1) (i + 1) (Function.update part i c)
termination_by path.length - idx
decreasing_by
  have hne : path.getD idx 0 ≠ 0 := by tauto
  have := lt_of_char hne
  omega

def partString (part : Buffer) : List UInt8 :=
  (slice part 0 257).takeWhile (· != 0)

variable {path} {idx : ℕ}

theorem drop_eq_getD (h : path.getD idx 0 ≠ 0) :
    path.drop idx = path.getD idx 0 :: path.drop (idx + 1) := by
  have hlt := lt_of_char h
  rw [List.drop_eq_getElem_cons hlt, List.getD_eq_getElem _ _ hlt]

theorem drop_eq_nil (hpath : 0 ∉ path) (h : path.getD idx 0 = 0) : path.drop idx = [] := by
  by_contra hne
  have hlt : idx < path.length := by
    by_contra hle
    exact hne (List.drop_eq_nil_iff.mpr (by omega))
  rw [List.getD_eq_getElem _ _ hlt] at h
  exact hpath (h ▸ List.getElem_mem hlt)

theorem le_skipSlashes (path : List UInt8) (idx : ℕ) : idx ≤ skipSlashes path idx := by
  fun_induction skipSlashes path idx with
  | case1 idx h ih => omega
  | case2 idx h => exact le_rfl

theorem drop_skipSlashes (path : List UInt8) (idx : ℕ) :
    path.drop (skipSlashes path idx) = (path.drop idx).dropWhile (· == slash) := by
  fun_induction skipSlashes path idx with
  | case1 idx h ih =>
    have hne : path.getD idx 0 ≠ 0 := by
      rw [h]
      decide
    rw [ih, drop_eq_getD hne, h, List.dropWhile_cons_of_pos (by simp)]
  | case2 idx h =>
    cases hdrop : path.drop idx with
    | nil => rfl
    | cons c rest =>
      have hc : path.getD idx 0 = c := by
        rw [List.getD_eq_getElem?_getD, ← List.head?_drop, hdrop]
        rfl
      rw [hc] at h
      rw [List.dropWhile_cons_of_neg (by simpa using h)]

theorem copyPart_eq (hpath : 0 ∉ path) {i : ℕ} (hi : i ≤ 256) (part : Buffer) {word : List UInt8}
    (hword : (path.drop idx).takeWhile (fun c => !(c == slash)) = word) :
    copyPart path idx i part = if i + word.length ≤ 256 then
        .ok (idx + word.length, i + word.length, put i word.length (fun j => word.getD j 0) part)
      else .error (.assertion "i < 256") := by
  fun_induction copyPart path idx i part generalizing word with
  | case1 idx i part c h =>
    have hnil : (path.drop idx).takeWhile (fun c => !(c == slash)) = [] := by
      rcases h with h | h
      · rw [drop_eq_nil hpath h]
        rfl
      · have hc : path.getD idx 0 = slash := h
        rw [drop_eq_getD (by rw [hc]; decide), hc, List.takeWhile_cons_of_neg (by simp)]
    obtain rfl := hnil.symm.trans hword
    simp [hi]
  | case2 idx i part c h ih =>
    have hne : path.getD idx 0 ≠ 0 := fun h0 => h (Or.inl h0)
    have hslash : path.getD idx 0 ≠ slash := fun hs => h (Or.inr hs)
    rw [drop_eq_getD hne, List.takeWhile_cons_of_pos (by simpa using hslash)] at hword
    obtain ⟨rest, hrest⟩ : ∃ rest, (path.drop (idx + 1)).takeWhile (fun c => !(c == slash)) = rest :=
      ⟨_, rfl⟩
    obtain rfl : c :: rest = word := by rw [← hrest, ← hword]
    rw [List.length_cons]
    by_cases hlt : i < 256
    · rw [assert_true hlt, ok_bind, ih (by omega) hrest, put_cons,
        show idx + 1 + rest.length = idx + (rest.length + 1) by omega,
        show i + 1 + rest.length = i + (rest.length + 1) by omega]
    · rw [if_neg (by omega), assert, if_neg hlt]
      rfl

theorem not_slash_skipSlashes (path : List UInt8) (idx : ℕ) :
    path.getD (skipSlashes path idx) 0 ≠ slash := by
  fun_induction skipSlashes path idx with
  | case1 idx h ih => exact ih
  | case2 idx h => exact h

theorem le_of_copyPart {i idx' i' : ℕ} {part part' : Buffer}
    (h : copyPart path idx i part = .ok (idx', i', part')) : idx ≤ idx' := by
  fun_induction copyPart path idx i part with
  | case1 idx i part c hend =>
    obtain ⟨rfl, -⟩ := Prod.mk.inj (Except.ok.inj h)
    exact le_rfl
  | case2 idx i part c hend ih =>
    obtain ⟨_, -, h⟩ := bind_eq_ok.mp h
    exact (Nat.le_succ idx).trans (ih h)

theorem lt_of_copyPart {i idx' i' : ℕ} {part part' : Buffer} (hnul : path.getD idx 0 ≠ 0)
    (hslash : path.getD idx 0 ≠ slash) (h : copyPart path idx i part = .ok (idx', i', part')) :
    idx < idx' := by
  rw [copyPart] at h
  simp only [hnul, hslash, or_self, dif_neg, not_false_eq_true] at h
  obtain ⟨_, -, h⟩ := bind_eq_ok.mp h
  exact le_of_copyPart h

theorem partString_eq {word : List UInt8} (hlen : word.length ≤ 256) (hword : 0 ∉ word)
    (part : Buffer) :
    partString (Function.update (put 0 word.length (fun j => word.getD j 0) part) word.length 0) =
      word := by
  have hslice : slice (Function.update (put 0 word.length (fun j => word.getD j 0) part)
      word.length 0) 0 257 = word ++ 0 :: slice part (word.length + 1) (256 - word.length) := by
    refine List.ext_getElem? fun j => ?_
    rcases lt_trichotomy j word.length with hlt | rfl | hlt
    · rw [getElem?_slice _ _ (by omega), List.getElem?_append_left hlt, Nat.zero_add,
        Function.update_of_ne hlt.ne, List.getElem?_eq_getElem hlt]
      simp [put, hlt]
    · rw [getElem?_slice _ _ (by omega), List.getElem?_append_right le_rfl, Nat.zero_add,
        Function.update_self, Nat.sub_self, List.getElem?_cons_zero]
    · obtain ⟨k, rfl⟩ := Nat.exists_eq_add_of_lt hlt
      rw [List.getElem?_append_right (by omega), show word.length + k + 1 - word.length = k + 1 by omega,
        List.getElem?_cons_succ]
      by_cases hk : k < 256 - word.length
      · rw [getElem?_slice _ _ (by omega), getElem?_slice _ _ hk, Nat.zero_add,
          Function.update_of_ne (by omega), put_of_notMem _ _ (by omega), Nat.add_right_comm]
      · rw [List.getElem?_eq_none (by rw [length_slice]; omega),
          List.getElem?_eq_none (by rw [length_slice]; omega)]
  have hpos : ∀ b ∈ word, (b != 0) = true := by
    intro b hb
    rw [bne_iff_ne]
    rintro rfl
    exact hword hb
  rw [partString, hslice, List.takeWhile_append_of_pos hpos, List.takeWhile_cons_of_neg (by simp),
    List.append_nil]

theorem parts_drop (hend : path.getD (skipSlashes path idx) 0 ≠ 0) {word : List UInt8}
    (hword : (path.drop (skipSlashes path idx)).takeWhile (fun c => !(c == slash)) = word) :
    parts (path.drop idx) = word :: parts (path.drop (skipSlashes path idx + word.length)) := by
  have hrest := drop_skipSlashes path idx
  have hne : (path.drop idx).dropWhile (· == slash) ≠ [] := by
    rw [← hrest, drop_eq_getD hend]
    exact List.cons_ne_nil _ _
  have hback : path.drop (skipSlashes path idx + word.length) =
      (path.drop (skipSlashes path idx)).dropWhile fun c => !(c == slash) := by
    rw [← List.drop_drop, ← hword]
    nth_rewrite 2 [← List.takeWhile_append_dropWhile (p := fun c => !(c == slash))
      (l := path.drop (skipSlashes path idx))]
    rw [List.drop_left]
  rw [parts_split hne, ← hrest, hword, hback]

end Loops

/-! ## The walk -/

/-- What `find` asks of nodes: `current->find(part)` and `get_node(number)`. -/
structure Calls (N : Type) where
  findEntry : N → List UInt8 → Except Halt ℕ
  getNode : ℕ → Except Halt N

namespace Calls

variable {N : Type} (c : Calls N)

def findLoop (path : List UInt8) (idx : ℕ) (part : Buffer) (current : Option N) :
    Except Halt (Option N) :=
  match current with
  | none => .ok none
  | some node =>
    if _ : path.getD (skipSlashes path idx) 0 = 0 then .ok (some node)
    else
      match _ : copyPart path (skipSlashes path idx) 0 part with
      | .error e => .error e
      | .ok (idx', i, part) => do
        let part := Function.update part i 0
        let number ← c.findEntry node (partString part)
        if number = 0 then return none
        let node ← c.getNode number
        findLoop path idx' part (some node)
termination_by path.length - idx
decreasing_by
  have hend : path.getD (skipSlashes path idx) 0 ≠ 0 := ‹_›
  have hle := le_skipSlashes path idx
  have hlt := lt_of_char hend
  have hnext := lt_of_copyPart hend (not_slash_skipSlashes path idx) ‹copyPart _ _ _ _ = _›
  omega

/-- `find(current, path)`; `part` is what `new char[257]` finds in its block. -/
def find (part : Buffer) (current : Option N) (path : List UInt8) : Except Halt (Option N) :=
  c.findLoop path 0 part current

def step (current : Option N) (part : List UInt8) : Except Halt (Option N) :=
  match current with
  | none => .ok none
  | some node => do
    let number ← c.findEntry node part
    if number = 0 then return none
    let node ← c.getNode number
    return some node

def fold (current : Option N) (parts : List (List UInt8)) : Except Halt (Option N) :=
  parts.foldlM c.step current

def LooksUp (current : Option N) (parts : List (List UInt8)) (node : N) (part : List UInt8) : Prop :=
  ∃ pre post, parts = pre ++ part :: post ∧ c.fold current pre = .ok (some node)

def Answers (node : N) (part : List UInt8) : Prop :=
  ∃ number, c.findEntry node part = .ok number ∧ (number = 0 ∨ ∃ m, c.getNode number = .ok m)

theorem fold_none (parts : List (List UInt8)) : c.fold none parts = .ok none := by
  induction parts with
  | nil => rfl
  | cons part parts ih => exact ih

theorem fold_append (current : Option N) (parts parts' : List (List UInt8)) :
    c.fold current (parts ++ parts') = c.fold current parts >>= fun m => c.fold m parts' :=
  List.foldlM_append

/-- The walk with the path taken apart beforehand; a component that is too long stops it. -/
def walk : Option N → List (List UInt8) → Except Halt (Option N)
  | current, [] => .ok current
  | none, _ :: _ => .ok none
  | some node, part :: rest => do
    assert (part.length ≤ 256) "i < 256"
    let current ← c.step (some node) part
    walk current rest

theorem findLoop_eq_walk {path : List UInt8} (hpath : 0 ∉ path) (idx : ℕ) (part : Buffer)
    (current : Option N) :
    c.findLoop path idx part current = c.walk current (parts (path.drop idx)) := by
  fun_induction findLoop c path idx part current with
  | case1 idx part =>
    cases parts (path.drop idx) with
    | nil => rfl
    | cons word rest => rfl
  | case2 idx part node hend =>
    rw [← parts_dropWhile, ← drop_skipSlashes, drop_eq_nil hpath hend]
    rfl
  | case3 idx part node hend e hcopy =>
    obtain ⟨word, hword⟩ : ∃ word,
      (path.drop (skipSlashes path idx)).takeWhile (fun c => !(c == slash)) = word := ⟨_, rfl⟩
    rw [copyPart_eq hpath (by omega) part hword, Nat.zero_add] at hcopy
    rw [parts_drop hend hword, walk, assert]
    by_cases hlen : word.length ≤ 256
    · rw [if_pos hlen] at hcopy
      cases hcopy
    · rw [if_neg hlen] at hcopy
      rw [if_neg hlen, ← Except.error.inj hcopy]
      rfl
  | case4 idx part node hend idx' i part' hcopy part'' ih =>
    obtain ⟨word, hword⟩ : ∃ word,
      (path.drop (skipSlashes path idx)).takeWhile (fun c => !(c == slash)) = word := ⟨_, rfl⟩
    have hmem : ∀ b ∈ word, b ∈ path := by
      intro b hb
      rw [← hword] at hb
      exact List.mem_of_mem_drop ((List.takeWhile_sublist _).subset hb)
    rw [copyPart_eq hpath (by omega) part hword, Nat.zero_add] at hcopy
    by_cases hlen : word.length ≤ 256
    case neg =>
      rw [if_neg hlen] at hcopy
      cases hcopy
    rw [if_pos hlen] at hcopy
    obtain ⟨rfl, rfl, rfl⟩ : skipSlashes path idx + word.length = idx' ∧ word.length = i ∧
        put 0 word.length (fun j => word.getD j 0) part = part' := by simpa using hcopy
    have hstring : partString part'' = word := partString_eq hlen (fun h0 => hpath (hmem 0 h0)) part
    rw [parts_drop hend hword, walk, assert_true hlen, ok_bind, step, hstring]
    cases c.findEntry node word with
    | error e => rfl
    | ok number =>
      simp only [ok_bind]
      by_cases hzero : number = 0
      · rw [if_pos hzero, if_pos hzero]
        cases parts (path.drop (skipSlashes path idx + word.length)) with
        | nil => rfl
        | cons word' rest => rfl
      · rw [if_neg hzero, if_neg hzero]
        cases c.getNode number with
        | error e => rfl
        | ok m => exact ih m

theorem walk_eq_fold {words : List (List UInt8)} (hshort : ∀ word ∈ words, word.length ≤ 256)
    (current : Option N) : c.walk current words = c.fold current words := by
  induction words generalizing current with
  | nil =>
    cases current with
    | none => rfl
    | some node => rfl
  | cons word words ih =>
    cases current with
    | none => rw [fold_none, walk]
    | some node =>
      rw [walk, assert_true (hshort word List.mem_cons_self), ok_bind, fold, List.foldlM_cons]
      refine congrArg (c.step (some node) word >>= ·) (funext fun m => ?_)
      exact ih (fun w hw => hshort w (List.mem_cons_of_mem word hw)) m

theorem find_eq_fold {path : List UInt8} (hpath : 0 ∉ path)
    (hshort : ∀ word ∈ parts path, word.length ≤ 256) (part : Buffer) (current : Option N) :
    c.find part current path = c.fold current (parts path) := by
  rw [find, findLoop_eq_walk c hpath, List.drop_zero, walk_eq_fold c hshort]

theorem lookUp_cons {current next : Option N} {word : List UInt8}
    (hstep : c.step current word = .ok next) {words : List (List UInt8)} {node : N}
    {part : List UInt8} : c.LooksUp current (word :: words) node part ↔
      (current = some node ∧ part = word) ∨ c.LooksUp next words node part := by
  have hfold : ∀ pre, c.fold current (word :: pre) = c.fold next pre := by
    intro pre
    rw [fold, List.foldlM_cons, hstep, ok_bind, fold]
  constructor
  · rintro ⟨pre, post, heq, hpre⟩
    cases pre with
    | nil =>
      obtain ⟨rfl, rfl⟩ := List.cons.inj heq
      exact Or.inl ⟨Except.ok.inj hpre, rfl⟩
    | cons w pre =>
      obtain ⟨rfl, rfl⟩ := List.cons.inj heq
      rw [hfold] at hpre
      exact Or.inr ⟨pre, post, rfl, hpre⟩
  · rintro (⟨rfl, rfl⟩ | ⟨pre, post, rfl, hpre⟩)
    · exact ⟨[], words, rfl, rfl⟩
    · exact ⟨word :: pre, post, rfl, (hfold pre).trans hpre⟩

theorem fold_ok {current : Option N} {words : List (List UInt8)}
    (h : ∀ node part, c.LooksUp current words node part → c.Answers node part) :
    ∃ r, c.fold current words = .ok r ∧ (r = none ↔ current = none ∨
      ∃ node part, c.LooksUp current words node part ∧ c.findEntry node part = .ok 0) := by
  induction words generalizing current with
  | nil =>
    refine ⟨current, rfl, Or.inl, fun hor => hor.resolve_right ?_⟩
    rintro ⟨node, part, ⟨pre, post, heq, -⟩, -⟩
    exact List.append_ne_nil_of_right_ne_nil pre (List.cons_ne_nil part post) heq.symm
  | cons word words ih =>
    cases current with
    | none => exact ⟨none, c.fold_none _, iff_of_true rfl (Or.inl rfl)⟩
    | some node =>
      obtain ⟨number, hfind, hnode⟩ := h node word ⟨[], words, rfl, rfl⟩
      have hlook : c.LooksUp (some node) (word :: words) node word := ⟨[], words, rfl, rfl⟩
      by_cases hzero : number = 0
      · have hstep : c.step (some node) word = .ok none := by
          rw [step, hfind, ok_bind, if_pos hzero]
          rfl
        refine ⟨none, ?_, iff_of_true rfl (Or.inr ⟨node, word, hlook, hzero ▸ hfind⟩)⟩
        rw [fold, List.foldlM_cons, hstep, ok_bind]
        exact c.fold_none words
      · obtain ⟨m, hget⟩ := hnode.resolve_left hzero
        have hstep : c.step (some node) word = .ok (some m) := by
          rw [step, hfind, ok_bind, if_neg hzero, hget]
          rfl
        obtain ⟨r, hr, hnone⟩ := ih fun n p hnp => h n p ((c.lookUp_cons hstep).mpr (Or.inr hnp))
        refine ⟨r, ?_, hnone.trans ?_⟩
        · rw [fold, List.foldlM_cons, hstep, ok_bind]
          exact hr
        · simp only [reduceCtorEq, false_or]
          constructor
          · rintro ⟨n, p, hnp, hmissing⟩
            exact ⟨n, p, (c.lookUp_cons hstep).mpr (Or.inr hnp), hmissing⟩
          · rintro ⟨n, p, hnp, hmissing⟩
            rcases (c.lookUp_cons hstep).mp hnp with ⟨hn, rfl⟩ | hlater
            · obtain rfl := Option.some.inj hn
              exact absurd (Except.ok.inj (hfind.symm.trans hmissing)) hzero
            · exact ⟨n, p, hlater, hmissing⟩

end Calls

def Tree.calls (t : Tree) : Calls ℕ where
  findEntry := t.findEntry
  getNode := t.getNode

theorem Tree.find_eq_calls (t : Tree) (n : ℕ) {path : List UInt8} (hpath : 0 ∉ path)
    (part : Buffer) : t.find n path = t.calls.find part (some n) path := by
  rw [Tree.find_eq_walk, Calls.find, Calls.findLoop_eq_walk _ hpath, List.drop_zero]
  generalize parts path = words
  induction words generalizing n with
  | nil => rfl
  | cons word words ih =>
    rw [Tree.walk, Calls.walk, Calls.step]
    by_cases hlen : word.length ≤ 256
    case neg =>
      rw [assert, if_neg hlen]
      rfl
    rw [assert_true hlen, ok_bind, ok_bind]
    change t.findEntry n word >>= _ = (t.findEntry n word >>= _) >>= _
    cases t.findEntry n word with
    | error e => rfl
    | ok number =>
      simp only [ok_bind]
      by_cases hzero : number = 0
      · rw [if_pos hzero, if_pos hzero]
        cases words with
        | nil => rfl
        | cons word' words => rfl
      · rw [if_neg hzero, if_neg hzero]
        change t.getNode number >>= _ = (t.getNode number >>= _) >>= _
        cases t.getNode number with
        | error e => rfl
        | ok m => exact ih m

end OsShell.Ext2

/-! ## The mounted file system -/

namespace OsShell

open Bytes Stopping

structure Ext2 where
  ide : Ide
  blockSize : ℕ
  numberOfNodes : ℕ
  numberOfBlocks : ℕ
  iNodeSize : ℕ
  nGroups : ℕ
  iNodeTables : ℕ → ℕ
  iNodesPerGroup : ℕ

namespace Ext2

variable (fs : Ext2) (junk : Buffer) (rounds : ℕ)

/-- `NodeData` takes 128 bytes, whatever the size of the nodes in the table. -/
def getNode (number : ℕ) : Except Halt Node := do
  assert (0 < number) "number > 0"
  assert (number ≤ fs.numberOfNodes) "number <= numberOfNodes"
  let index := number - 1
  if fs.iNodesPerGroup = 0 then throw (.panic "divide error")
  let groupIndex := index / fs.iNodesPerGroup
  assert (groupIndex < fs.nGroups) "groupIndex < nGroups"
  let indexInGroup := index % fs.iNodesPerGroup
  let iTableBase := fs.iNodeTables groupIndex
  assert (iTableBase ≤ fs.numberOfBlocks) "iTableBase <= numberOfBlocks"
  let nodeOffset := (iTableBase * fs.blockSize + indexInGroup * fs.iNodeSize) % 2 ^ 32
  let data ← fs.ide.io.readThing junk nodeOffset 128
  return ⟨fs.ide, fs.blockSize, ⟨data⟩⟩

/-- A search that is not over after `rounds` entries has no result; here it counts as a stop. -/
def calls : Calls Node where
  findEntry node name := (node.find junk name rounds).getD (.error (.panic "rounds"))
  getNode := fs.getNode junk

def find (part : Buffer) (current : Option Node) (path : List UInt8) : Except Halt (Option Node) :=
  (fs.calls junk rounds).find part current path

def lookups (current : Option Node) (path : List UInt8) : Except Halt (Option Node) :=
  (fs.calls junk rounds).fold current (parts path)

def LooksUp (current : Option Node) (path : List UInt8) (node : Node) (part : List UInt8) : Prop :=
  (fs.calls junk rounds).LooksUp current (parts path) node part

structure Walkable (current : Option Node) (path : List UInt8) : Prop where
  nulFree : 0 ∉ path
  short : ∀ part ∈ parts path, part.length ≤ 256
  isDir : ∀ node part, fs.LooksUp junk rounds current path node part → node.data.isDir
  search : ∀ node part, fs.LooksUp junk rounds current path node part → node.data.isDir →
    ∃ number, node.find junk part rounds = some (.ok number) ∧
      (number = 0 ∨ ∃ m, fs.getNode junk number = .ok m)

def Missing (current : Option Node) (path : List UInt8) : Prop :=
  ∃ node part, fs.LooksUp junk rounds current path node part ∧
    node.find junk part rounds = some (.ok 0)

variable {fs junk rounds} {current : Option Node} {path : List UInt8}

theorem find_eq_lookups (hpath : 0 ∉ path) (hshort : ∀ part ∈ parts path, part.length ≤ 256)
    (part : Buffer) : fs.find junk rounds part current path = fs.lookups junk rounds current path :=
  (fs.calls junk rounds).find_eq_fold hpath hshort part current

theorem find_congr {path' : List UInt8} (hpath : 0 ∉ path) (hpath' : 0 ∉ path')
    (hshort : ∀ part ∈ parts path, part.length ≤ 256) (hparts : parts path' = parts path)
    (part part' : Buffer) :
    fs.find junk rounds part' current path' = fs.find junk rounds part current path := by
  rw [find_eq_lookups hpath hshort, find_eq_lookups hpath' (hparts ▸ hshort), lookups, lookups, hparts]

theorem Walkable.lookups_ok (h : fs.Walkable junk rounds current path) :
    ∃ r, fs.lookups junk rounds current path = .ok r ∧
      (r = none ↔ current = none ∨ fs.Missing junk rounds current path) := by
  have hfind : ∀ node part, fs.LooksUp junk rounds current path node part →
      ∃ number, node.find junk part rounds = some (.ok number) ∧
        (number = 0 ∨ ∃ m, fs.getNode junk number = .ok m) :=
    fun node part hlook => h.search node part hlook (h.isDir node part hlook)
  have hanswer : ∀ {node part number}, node.find junk part rounds = some (.ok number) →
      (fs.calls junk rounds).findEntry node part = .ok number := by
    intro node part number hnumber
    exact congrArg (Option.getD · _) hnumber
  have hanswers : ∀ node part, (fs.calls junk rounds).LooksUp current (parts path) node part →
      (fs.calls junk rounds).Answers node part := by
    intro node part hlook
    obtain ⟨number, hnumber, hnode⟩ := hfind node part hlook
    exact ⟨number, hanswer hnumber, hnode⟩
  obtain ⟨r, hr, hnone⟩ := (fs.calls junk rounds).fold_ok hanswers
  refine ⟨r, hr, hnone.trans (or_congr_right (exists₂_congr fun node part => and_congr_right ?_))⟩
  intro hlook
  obtain ⟨number, hnumber, -⟩ := hfind node part hlook
  rw [hanswer hnumber, hnumber, Option.some.injEq]

/-- `find` is the fold of the lookups over the components; it finds nothing if and only if the start
is no node or a component is missing; a path may be walked in two parts; and slashes at the ends and
in a row make no difference. -/
theorem find_correct (h : fs.Walkable junk rounds current path) (part : Buffer) :
    fs.find junk rounds part current path = fs.lookups junk rounds current path ∧
    (∃ r, fs.find junk rounds part current path = .ok r ∧
      (r = none ↔ current = none ∨ fs.Missing junk rounds current path)) ∧
    (∀ p q part₁ part₂, path = p ++ slash :: q → fs.find junk rounds part current path =
      fs.find junk rounds part₁ current p >>= fun m => fs.find junk rounds part₂ m q) ∧
    (∀ k part', fs.find junk rounds part' current (List.replicate k slash ++ path) =
      fs.find junk rounds part current path) ∧
    (∀ k part', fs.find junk rounds part' current (path ++ List.replicate k slash) =
      fs.find junk rounds part current path) ∧
    ∀ p q k part', path = p ++ slash :: q →
      fs.find junk rounds part' current (p ++ slash :: (List.replicate k slash ++ q)) =
        fs.find junk rounds part current path := by
  have hslashes : ∀ k, 0 ∉ List.replicate k slash := fun k h0 =>
    absurd (List.eq_of_mem_replicate h0) (by decide)
  have hfind : fs.find junk rounds part current path = fs.lookups junk rounds current path :=
    find_eq_lookups h.nulFree h.short part
  have hsame : ∀ path' part', 0 ∉ path' → parts path' = parts path →
      fs.find junk rounds part' current path' = fs.find junk rounds part current path :=
    fun path' part' hpath' hparts => find_congr h.nulFree hpath' h.short hparts part part'
  refine ⟨hfind, hfind ▸ h.lookups_ok, ?_, fun k part' => ?_, fun k part' => ?_, ?_⟩
  · rintro p q part₁ part₂ rfl
    obtain ⟨hp, -, hq⟩ : 0 ∉ p ∧ 0 ≠ slash ∧ 0 ∉ q := by simpa using h.nulFree
    have hshort := h.short
    rw [parts_append] at hshort
    rw [hfind, lookups, parts_append, Calls.fold_append,
      find_eq_lookups hp fun w hw => hshort w (List.mem_append_left _ hw)]
    refine congrArg (fs.lookups junk rounds current p >>= ·) (funext fun m => ?_)
    exact (find_eq_lookups hq (fun w hw => hshort w (List.mem_append_right _ hw)) part₂).symm
  · exact hsame _ part' (by simp [h.nulFree, hslashes k]) (parts_replicate_append k path)
  · exact hsame _ part' (by simp [h.nulFree, hslashes k]) (parts_append_replicate path k)
  · rintro p q k part' rfl
    obtain ⟨hp, -, hq⟩ : 0 ∉ p ∧ 0 ≠ slash ∧ 0 ∉ q := by simpa using h.nulFree
    have hfree : 0 ∉ p ++ slash :: (List.replicate k slash ++ q) := by
      simp [hp, hq, hslashes k, show (0 : UInt8) ≠ slash by decide]
    exact hsame _ part' hfree (by rw [parts_append, parts_append, parts_replicate_append])

theorem Directory.search {node : Node} {disk : Buffer} {es : List Entry}
    (D : Directory node disk es) (hrounds : es.length < rounds)
    (hlive : ∀ e ∈ es, e.inode ≠ 0 → ∃ m, fs.getNode junk e.inode = .ok m) {part : List UInt8}
    (hpart : 0 ∉ part) : ∃ number, node.find junk part rounds = some (.ok number) ∧
      (number = 0 ∨ ∃ m, fs.getNode junk number = .ok m) := by
  obtain ⟨k, rfl⟩ := Nat.exists_eq_add_of_le hrounds
  refine ⟨_, Node.find_add k (Node.find_eq_lookup D hpart), ?_⟩
  by_cases hzero : Tree.lookup (es.map Entry.pair) part = 0
  · exact Or.inl hzero
  · obtain ⟨pair, hmem, heq⟩ := (Tree.foldl_lookup (es.map Entry.pair) part 0).resolve_left hzero
    obtain ⟨e, he, rfl⟩ := List.mem_map.mp hmem
    have hnumber : Tree.lookup (es.map Entry.pair) part = e.inode := heq
    rw [hnumber] at hzero ⊢
    exact Or.inr (hlive e he hzero)

end Ext2

end OsShell
