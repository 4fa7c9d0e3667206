import OsShell.Ext2.Tree
import OsShell.Sys.Strings

/-!
# Changing the directory

`cd` makes the new path in the buffer of its caller: the current directory, a slash
and the argument, which is kept at the literal `""` meanwhile, or for `..` the current
directory up to its last slash. A second call makes the path the current directory,
in the memory where the current directory stands. `separator` is where the literal
`"/"` of the handler stands. A call that is in a loop for ever has no result.
-/

namespace OsShell.Sys

open Bytes Exec
open Ext2 (slash)

namespace Caller

variable (k : Caller) (separator addedPath : ℕ)

def setCwd (newCwd : ℕ) : Option Buffer := do
  let length ← strlen k.mem newCwd
  return setByte (memcpy k.mem k.cwd newCwd length) (k.cwd + length) 0

def cdParent : Option Buffer := do
  let size ← strlen k.mem k.cwd
  let index ← k.parentIndex size
  return if index ≠ 0 then memcpy k.mem addedPath k.cwd index else k.mem

def cdChild (addedLength : ℕ) : Option Buffer := do
  let mem := k.addition addedPath addedLength
  let prevLen ← strlen mem k.cwd
  let mem := memcpy mem addedPath k.cwd prevLen
  let mem := memcpy mem (addedPath + prevLen) separator 1
  let mem := memcpy mem (addedPath + prevLen + 1) k.literal addedLength
  return setByte mem (addedPath + prevLen + 1 + addedLength) 0

def cd (pathChecked : ℕ) : Option Buffer :=
  if pathChecked = 0 then do
    let added ← cstring k.mem addedPath
    if added = [46, 46] then k.cdParent addedPath
    else if added = [46] then return k.mem
    else k.cdChild separator addedPath added.length
  else k.setCwd addedPath

/-- What `pwd(buffer)` returns, and the memory with the current directory in the buffer. -/
def pwd (buffer : ℕ) : Option (ℤ × Buffer) :=
  if k.cwd = 0 then some (-1, k.mem)
  else do
    let length ← strlen k.mem k.cwd
    return (0, setByte (memcpy k.mem buffer k.cwd length) (buffer + length) 0)

theorem addition_eq (addedLength : ℕ) : k.addition addedPath addedLength =
    setByte (memcpy k.mem k.literal addedPath addedLength) (k.literal + addedLength) 0 :=
  rfl

end Caller

/-- The current directory `c` is in the kernel's half of the memory; the argument `s` is in the
user's, in a buffer with room for the new path. -/
structure Placed (k : Caller) (b : ℕ) (c s : List UInt8) : Prop where
  directory : cstring k.mem k.cwd = some c
  argument : cstring k.mem b = some s
  cwd_lt : k.cwd + c.length < 2 ^ 31
  user : 2 ^ 31 ≤ b
  room : b + c.length + s.length + 2 ≤ 2 ^ 32

/-- The literals are in the kernel's half too, and there is memory for the argument behind `""`. -/
structure ChildPlaced (k : Caller) (separator b : ℕ) (c s : List UInt8) : Prop
    extends Placed k b c s where
  literal_lt : k.literal + s.length < 2 ^ 31
  separator_lt : separator < 2 ^ 31

/-- The separator is a slash and stays one when the argument is written to the literal, and where the
argument meets the current directory it happens to agree with it. -/
structure Spared (k : Caller) (separator : ℕ) (c s : List UInt8) : Prop where
  slash : byteAt k.mem separator = slash
  separator : ∀ i ≤ s.length, k.literal + i ≠ separator
  directory : ∀ i ≤ s.length, ∀ j ≤ c.length, k.literal + i = k.cwd + j →
    (s ++ [0]).getD i 0 = (c ++ [0]).getD j 0

variable {k : Caller} {separator b : ℕ} {c s : List UInt8}

namespace ChildPlaced

variable (h : ChildPlaced k separator b c s)
include h

theorem spells_addition :
    Spells (byteAt (k.addition b s.length)) k.literal (s ++ [0]) := by
  obtain ⟨hlen, hnul, hs⟩ := cstring_eq_some_iff.mp h.argument
  obtain ⟨hs, -⟩ := spells_append.mp hs
  have hlit := h.literal_lt
  have huser := h.user
  have hroom := h.room
  rw [Caller.addition_eq]
  refine spells_append.mpr ⟨?_, spells_setByte _ _⟩
  exact spells_setByte_of_apart (spells_memcpy k.literal hs (by omega) (by omega) (by omega) (by omega))
    (by omega) (by omega) (by omega) 0

theorem byteAt_addition {a : ℕ} (ha : a < 2 ^ 32)
    (hapart : ∀ i ≤ s.length, k.literal + i ≠ a) :
    byteAt (k.addition b s.length) a = byteAt k.mem a := by
  have hlit := h.literal_lt
  have hlast := hapart s.length le_rfl
  rw [Caller.addition_eq, byteAt_setByte_of_ne (by omega), byteAt_memcpy_of_notMem]
  intro i hi
  unfold copied at hi
  have := hapart i (by split at hi <;> omega)
  split at hi <;> omega

theorem getD_addition {i : ℕ} (hi : i ≤ s.length) :
    byteAt (k.addition b s.length) (k.literal + i) = (s ++ [0]).getD i 0 :=
  spells_iff_getD.mp h.spells_addition i (by rw [List.length_append]; simpa using Nat.lt_succ_of_le hi)

theorem spared_iff (hslash : slash ∉ s) : Spared k separator c s ↔
    Spells (byteAt (k.addition b s.length)) k.cwd (c ++ [0]) ∧
      byteAt (k.addition b s.length) separator = slash := by
  obtain ⟨-, -, hc⟩ := cstring_eq_some_iff.mp h.directory
  have hlt := h.cwd_lt
  have hsep := h.separator_lt
  have hlen : (c ++ [0]).length = c.length + 1 := by simp
  rw [spells_iff_getD, hlen] at hc ⊢
  constructor
  · intro hspared
    refine ⟨fun j hj => ?_, ?_⟩
    · by_cases hmeet : ∃ i ≤ s.length, k.literal + i = k.cwd + j
      · obtain ⟨i, hi, heq⟩ := hmeet
        rw [← heq, h.getD_addition hi]
        exact hspared.directory i hi j (by omega) heq
      · push Not at hmeet
        rw [h.byteAt_addition (by omega) hmeet]
        exact hc j hj
    · rw [h.byteAt_addition (by omega) hspared.separator]
      exact hspared.slash
  · rintro ⟨hdirectory, hslash'⟩
    have hapart : ∀ i ≤ s.length, k.literal + i ≠ separator := by
      intro i hi heq
      rw [← heq, h.getD_addition hi] at hslash'
      rcases Nat.lt_succ_iff_lt_or_eq.mp (Nat.lt_succ_of_le hi) with hlt | rfl
      · rw [List.getD_append _ _ _ _ hlt, List.getD_eq_getElem _ _ hlt] at hslash'
        exact hslash (hslash' ▸ List.getElem_mem hlt)
      · rw [List.getD_append_right _ _ _ _ le_rfl, Nat.sub_self] at hslash'
        exact absurd hslash' (by decide)
    refine ⟨by rw [← h.byteAt_addition (by omega) hapart]; exact hslash', hapart, ?_⟩
    intro i hi j hj heq
    rw [← h.getD_addition hi, heq]
    exact hdirectory j (by omega)

theorem cdChild_spells {c' : List UInt8} {x : UInt8}
    (hc' : cstring (k.addition b s.length) k.cwd = some c') (hle : c'.length ≤ c.length)
    (hx : byteAt (k.addition b s.length) separator = x) :
    ∃ mem', k.cdChild separator b s.length = some mem' ∧
      Spells (byteAt mem') b (c' ++ ([x] ++ (s ++ [0]))) := by
  obtain ⟨-, -, hspells⟩ := cstring_eq_some_iff.mp hc'
  obtain ⟨hc₁, -⟩ := spells_append.mp hspells
  obtain ⟨hs₁, -⟩ := spells_append.mp h.spells_addition
  have hcwd := h.cwd_lt
  have hlit := h.literal_lt
  have hsep := h.separator_lt
  have huser := h.user
  have hroom := h.room
  have hx₁ : Spells (byteAt (k.addition b s.length)) separator [x] := by
    intro i hi
    obtain rfl : i = 0 := by simpa using hi
    exact hx
  rw [Caller.cdChild, strlen_of_cstring hc']
  refine ⟨_, rfl, ?_⟩
  generalize k.addition b s.length = mem₁ at hc₁ hs₁ hx₁ ⊢
  have hc₂ := spells_memcpy b hc₁ (by omega) (by omega) (by omega) (by omega)
  have hs₂ := spells_memcpy_of_apart b k.cwd c'.length hs₁ (by omega)
    (by omega) (by omega)
  have hx₂ := spells_memcpy_of_apart b k.cwd c'.length hx₁
    (by simp; omega) (by omega) (by simp; omega)
  generalize memcpy mem₁ b k.cwd c'.length = mem₂ at hc₂ hs₂ hx₂ ⊢
  have hx₃ := spells_memcpy (b + c'.length) hx₂ (by simp) (by simp; omega) (by simp; omega)
    (by simp; omega)
  have hc₃ := spells_memcpy_of_apart (b + c'.length) separator 1 hc₂
    (by omega) (by omega) (by omega)
  have hs₃ := spells_memcpy_of_apart (b + c'.length) separator 1 hs₂
    (by omega) (by omega) (by omega)
  rw [List.length_singleton] at hx₃
  generalize memcpy mem₂ (b + c'.length) separator 1 = mem₃ at hc₃ hs₃ hx₃ ⊢
  have hs₄ := spells_memcpy (b + c'.length + 1) hs₃ (by omega) (by omega) (by omega)
    (by omega)
  have hc₄ := spells_memcpy_of_apart (b + c'.length + 1) k.literal s.length
    hc₃ (by omega) (by omega) (by omega)
  have hx₄ := spells_memcpy_of_apart (b + c'.length + 1) k.literal s.length
    hx₃ (by simp; omega) (by omega) (by simp)
  generalize memcpy mem₃ (b + c'.length + 1) k.literal s.length = mem₄ at hc₄ hs₄ hx₄ ⊢
  have hpath : Spells (byteAt mem₄) b (c' ++ ([x] ++ s)) :=
    spells_append.mpr ⟨hc₄, spells_append.mpr ⟨hx₄, hs₄⟩⟩
  have hlen : (c' ++ ([x] ++ s)).length = c'.length + 1 + s.length := by
    simp only [List.length_append, List.length_singleton]
    omega
  have hlast : b + c'.length + 1 + s.length = b + (c' ++ ([x] ++ s)).length := by omega
  have hassoc : c' ++ ([x] ++ (s ++ [0])) = c' ++ ([x] ++ s) ++ [0] := by
    simp only [List.append_assoc]
  rw [hlast, hassoc]
  refine spells_append.mpr ⟨?_, spells_setByte _ _⟩
  exact spells_setByte_of_apart hpath (by omega) (by omega) (by omega) 0

theorem cd_child (hself : s ≠ [46]) (hparent : s ≠ [46, 46]) :
    k.cd separator b 0 = k.cdChild separator b s.length := by
  rw [Caller.cd, if_pos rfl, h.argument]
  simp [hself, hparent]

/-- The argument is long enough to write over the end of the current directory: then the path has one
of its characters where the slash should be. -/
theorem cdChild_of_covered (hslash : slash ∉ s)
    (hcovered : byteAt (k.addition b s.length) (k.cwd + c.length) ≠ 0) {mem' : Buffer}
    (hmem' : k.cdChild separator b s.length = some mem') :
    byteAt mem' (b + c.length) ≠ slash := by
  obtain ⟨-, hnul, hc⟩ := cstring_eq_some_iff.mp h.directory
  obtain ⟨-, hsnul, -⟩ := cstring_eq_some_iff.mp h.argument
  have hcwd := h.cwd_lt
  have hlit := h.literal_lt
  have huser := h.user
  have hroom := h.room
  have hend : byteAt k.mem (k.cwd + c.length) = 0 := (spells_append.mp hc).2 0 (by simp)
  have hwritten : ∀ i < s.length, byteAt (k.addition b s.length) (k.literal + i) ∈ s := by
    intro i hi
    rw [h.getD_addition hi.le, List.getD_append _ _ _ _ hi, List.getD_eq_getElem _ _ hi]
    exact List.getElem_mem hi
  have hzero : byteAt (k.addition b s.length) (k.literal + s.length) = 0 := by
    rw [h.getD_addition le_rfl, List.getD_append_right _ _ _ _ le_rfl, Nat.sub_self]
    rfl
  obtain ⟨i, hi, hmeet⟩ : ∃ i < s.length, k.literal + i = k.cwd + c.length := by
    by_contra! hapart
    by_cases hlast : k.literal + s.length = k.cwd + c.length
    · exact hcovered (hlast ▸ hzero)
    · refine hcovered ((h.byteAt_addition (by omega) fun i hi => ?_).trans hend)
      rcases hi.lt_or_eq with hlt | rfl
      · exact hapart i hlt
      · exact hlast
  have hbefore : ∀ j ≤ c.length, byteAt (k.addition b s.length) (k.cwd + j) ≠ 0 := by
    intro j hj hj0
    by_cases hin : k.literal ≤ k.cwd + j
    · have hw := hwritten (k.cwd + j - k.literal) (by omega)
      rw [show k.literal + (k.cwd + j - k.literal) = k.cwd + j by omega, hj0] at hw
      exact hsnul hw
    · rw [h.byteAt_addition (by omega) fun i _ => by omega] at hj0
      have hlt : j < c.length := by omega
      rw [(spells_append.mp hc).1 j hlt] at hj0
      exact hnul (hj0 ▸ List.getElem_mem hlt)
  obtain ⟨prevLen, hprev, hmem'⟩ := Option.bind_eq_some_iff.mp hmem'
  obtain ⟨-, hstop, hnonzero⟩ := strlen_eq_some_iff.mp hprev
  have hlong : c.length < prevLen := by
    by_contra hle
    exact hbefore prevLen (by omega) hstop
  have hshort : prevLen ≤ k.literal + s.length - k.cwd := by
    by_contra hlt
    refine hnonzero (k.literal + s.length - k.cwd) (by omega) ?_
    rw [show k.cwd + (k.literal + s.length - k.cwd) = k.literal + s.length by omega, hzero]
  obtain rfl := Option.some.inj hmem'
  -- the byte comes with the first copy, and the others go behind it
  rw [byteAt_setByte_of_ne (by omega), byteAt_memcpy_of_notMem fun j hj => ?_,
    byteAt_memcpy_of_notMem fun j hj => ?_, byteAt_memcpy (by omega) hlong fun j hj => by omega]
  · rw [← hmeet]
    intro heq
    exact hslash (heq ▸ hwritten i hi)
  · rw [copied, if_pos (by omega)] at hj
    omega
  · rw [copied, if_pos (by omega)] at hj
    omega

end ChildPlaced

def ChildRight (k : Caller) (separator b : ℕ) (c s : List UInt8) : Prop :=
  ∃ mem', k.cd separator b 0 = some mem' ∧ cstring mem' b = some (c ++ slash :: s)

theorem child_right_iff (h : ChildPlaced k separator b c s) (hslash : slash ∉ s) (hself : s ≠ [46])
    (hparent : s ≠ [46, 46]) : ChildRight k separator b c s ↔ Spared k separator c s := by
  rw [h.spared_iff hslash, ChildRight, h.cd_child hself hparent]
  obtain ⟨hlen, hnul, -⟩ := cstring_eq_some_iff.mp h.directory
  obtain ⟨-, hsnul, -⟩ := cstring_eq_some_iff.mp h.argument
  have hroom := h.room
  have huser := h.user
  constructor
  · rintro ⟨mem', hmem', hpath⟩
    obtain ⟨-, -, hspells⟩ := cstring_eq_some_iff.mp hpath
    obtain ⟨-, hrest⟩ := spells_append.mp (spells_append.mp hspells).1
    have hbyte : byteAt mem' (b + c.length) = slash := hrest 0 (by simp)
    have hend : byteAt (k.addition b s.length) (k.cwd + c.length) = 0 := by
      by_contra hcovered
      exact h.cdChild_of_covered hslash hcovered hmem' hbyte
    obtain ⟨n, hle, hn⟩ := exists_strlen (by omega) hend
    obtain ⟨c', hc', rfl⟩ : ∃ c', cstring (k.addition b s.length) k.cwd = some c' ∧ c'.length = n := by
      rw [cstring, hn]
      exact ⟨_, rfl, length_slice _ _ _⟩
    obtain ⟨mem'', hmem'', hspells'⟩ := h.cdChild_spells hc' hle (x := _) rfl
    obtain rfl := Option.some.inj (hmem'.symm.trans hmem'')
    -- both end at the first zero
    have hsame : c'.length = c.length := by
      by_contra hne
      have hlast : byteAt mem' (b + (c'.length + 1 + s.length)) = 0 := by
        rw [← List.append_assoc, ← List.append_assoc] at hspells'
        have := (spells_append.mp hspells').2 0 (by simp)
        simpa [Nat.add_assoc, Nat.add_comm, Nat.add_left_comm] using this
      refine (strlen_eq_some_iff.mp (strlen_of_cstring hpath)).2.2 _ ?_ hlast
      rw [List.length_append, List.length_cons]
      omega
    rw [List.append_assoc, List.cons_append] at hspells
    have heq := hspells'.unique hspells (by simp [hsame])
    obtain ⟨rfl, htail⟩ := List.append_inj heq hsame
    exact ⟨(cstring_eq_some_iff.mp hc').2.2, (List.cons.inj htail).1⟩
  · rintro ⟨hspells, hsep⟩
    have hc : cstring (k.addition b s.length) k.cwd = some c :=
      cstring_eq_some_iff.mpr ⟨hlen, hnul, hspells⟩
    obtain ⟨mem', hmem', hpath⟩ := h.cdChild_spells hc le_rfl hsep
    refine ⟨mem', hmem', cstring_eq_some_iff.mpr ⟨?_, ?_, ?_⟩⟩
    · rw [List.length_append, List.length_cons]
      omega
    · simp [hnul, hsnul, slash]
    · simpa using hpath

/-! ## The parent -/

def joined (comps : List (List UInt8)) : List UInt8 :=
  [slash].intercalate comps

theorem joined_cons (w : List UInt8) {rest : List (List UInt8)} (hne : rest ≠ []) :
    joined (w :: rest) = w ++ slash :: joined rest := by
  rw [joined, List.intercalate_cons_of_ne_nil hne, List.append_assoc]
  rfl

theorem joined_singleton (w : List UInt8) : joined [w] = w :=
  List.intercalate_singleton

theorem joined_concat {init : List (List UInt8)} (hne : init ≠ []) (last : List UInt8) :
    joined (init ++ [last]) = joined init ++ slash :: last := by
  induction init with
  | nil => exact absurd rfl hne
  | cons w init ih =>
    cases init with
    | nil => rw [List.singleton_append, joined_cons w (List.cons_ne_nil _ _), joined_singleton,
        joined_singleton]
    | cons w' init =>
      have hmore := List.cons_ne_nil w' init
      rw [List.cons_append, joined_cons w (by simp), ih hmore, joined_cons w hmore, List.append_assoc,
        List.cons_append]

theorem joined_ne_nil {comps : List (List UInt8)} (hne : comps ≠ []) (hcomps : ∀ w ∈ comps, w ≠ []) :
    joined comps ≠ [] := by
  obtain ⟨w, rest, rfl⟩ := List.exists_cons_of_ne_nil hne
  have hw := hcomps w List.mem_cons_self
  cases rest with
  | nil => rwa [joined_singleton]
  | cons w' rest =>
    rw [joined_cons w (List.cons_ne_nil _ _)]
    exact List.append_ne_nil_of_left_ne_nil hw _

/-- What `curr_cwd[index]` has been after `n` rounds of `index--`. -/
def backIndex (size n : ℕ) : ℕ := (size + (2 ^ 32 - 1 - n)) % 2 ^ 32

def Examines (k : Caller) (size n : ℕ) : Prop :=
  ∀ m < n, byteAt k.mem (k.cwd + backIndex size m) ≠ slash

/-- For `..` nothing before the current directory is read, and if it has more than one component the
buffer gets the path of its parent. -/
def ParentRight (k : Caller) (separator b : ℕ) (comps : List (List UInt8)) : Prop :=
  (∀ n, Examines k (joined comps).length n →
    backIndex (joined comps).length n < (joined comps).length) ∧
  (2 ≤ comps.length → ∃ mem', k.cd separator b 0 = some mem' ∧
    cstring mem' b = some (joined comps.dropLast))

theorem parentIndex_eq_some {size n : ℕ} (hn : n < 2 ^ 32) (hbefore : Examines k size n)
    (hslash : byteAt k.mem (k.cwd + backIndex size n) = slash) :
    k.parentIndex size = some (backIndex size n) := by
  have hfind : findFrom (fun n => byteAt k.mem (k.cwd + backIndex size n) == 47) (2 ^ 32) 0 = some n :=
    findFrom_eq_some hn (beq_iff_eq.mpr hslash) fun j hj => beq_eq_false_iff_ne.mpr (hbefore j hj)
  rw [Caller.parentIndex]
  exact congrArg (Option.map _) hfind

section Search

variable {p l : List UInt8}

theorem backIndex_eq {size n : ℕ} (hsize : size < 2 ^ 32) (hn : n < size) :
    backIndex size n = size - 1 - n := by
  unfold backIndex
  omega

theorem byteAt_backIndex (hc : Spells (byteAt k.mem) k.cwd c) (hlen : c.length < 2 ^ 32) {n : ℕ}
    (hn : n < c.length) :
    byteAt k.mem (k.cwd + backIndex c.length n) = c.getD (c.length - 1 - n) 0 := by
  rw [backIndex_eq hlen hn]
  exact spells_iff_getD.mp hc _ (by omega)

theorem examines_last (hc : Spells (byteAt k.mem) k.cwd (p ++ slash :: l))
    (hlen : (p ++ slash :: l).length < 2 ^ 32) (hl : slash ∉ l) :
    Examines k (p ++ slash :: l).length l.length ∧
      byteAt k.mem (k.cwd + backIndex (p ++ slash :: l).length l.length) = slash := by
  have hlength : (p ++ slash :: l).length = p.length + 1 + l.length := by
    rw [List.length_append, List.length_cons]
    omega
  constructor
  · intro m hm heq
    rw [byteAt_backIndex hc hlen (by omega), List.getD_append_right _ _ _ _ (by omega),
      show (p ++ slash :: l).length - 1 - m - p.length = l.length - 1 - m + 1 by omega,
      List.getD_cons_succ, List.getD_eq_getElem _ _ (by omega)] at heq
    exact hl (heq ▸ List.getElem_mem _)
  · rw [byteAt_backIndex hc hlen (by omega), List.getD_append_right _ _ _ _ (by omega),
      show (p ++ slash :: l).length - 1 - l.length - p.length = 0 by omega]
    rfl

theorem examines_beyond (hc : Spells (byteAt k.mem) k.cwd l) (hlen : l.length < 2 ^ 32 - 1)
    (hl : slash ∉ l) : Examines k l.length l.length ∧ ¬ backIndex l.length l.length < l.length := by
  refine ⟨fun m hm heq => ?_, by unfold backIndex; omega⟩
  rw [byteAt_backIndex hc (by omega) hm, List.getD_eq_getElem _ _ (by omega)] at heq
  exact hl (heq ▸ List.getElem_mem _)

theorem cd_parent (h : Placed k b (p ++ slash :: l) [46, 46]) (hl : slash ∉ l)
    (hp : p ≠ []) : k.cd separator b 0 = some (memcpy k.mem b k.cwd p.length) := by
  obtain ⟨hlen, -, hc⟩ := cstring_eq_some_iff.mp h.directory
  obtain ⟨hc, -⟩ := spells_append.mp hc
  have hlength : (p ++ slash :: l).length = p.length + 1 + l.length := by
    rw [List.length_append, List.length_cons]
    omega
  obtain ⟨hbefore, hslash⟩ := examines_last hc hlen hl
  have hindex : backIndex (p ++ slash :: l).length l.length = p.length := by
    rw [backIndex_eq hlen (by omega)]
    omega
  have hne : p.length ≠ 0 := fun h0 => hp (List.length_eq_zero_iff.mp h0)
  have hparent := parentIndex_eq_some (by omega) hbefore hslash
  rw [hindex] at hparent
  rw [Caller.cd, if_pos rfl, h.argument, Option.bind_eq_bind, Option.bind_some, if_pos rfl,
    Caller.cdParent, strlen_of_cstring h.directory, Option.bind_eq_bind, Option.bind_some, hparent,
    Option.bind_some, if_pos hne]
  rfl

theorem cstring_parent_iff (h : Placed k b (p ++ slash :: l) s) :
    cstring (memcpy k.mem b k.cwd p.length) b = some p ↔ byteAt k.mem (b + p.length) = 0 := by
  obtain ⟨hlen, hnul, hc⟩ := cstring_eq_some_iff.mp h.directory
  obtain ⟨hp, -⟩ := spells_append.mp (spells_append.mp hc).1
  have hlength : (p ++ slash :: l).length = p.length + 1 + l.length := by
    rw [List.length_append, List.length_cons]
    omega
  have hcwd := h.cwd_lt
  have huser := h.user
  have hroom := h.room
  have hcopy := spells_memcpy b hp (by omega) (by omega) (by omega) (by omega)
  have hbehind : byteAt (memcpy k.mem b k.cwd p.length) (b + p.length) =
      byteAt k.mem (b + p.length) := byteAt_memcpy_of_notMem fun i hi => by
    rw [copied, if_pos (by omega)] at hi
    omega
  rw [cstring_eq_some_iff, spells_append, ← hbehind]
  constructor
  · rintro ⟨-, -, -, hzero⟩
    exact hzero 0 (by simp)
  · intro hzero
    refine ⟨by omega, fun h0 => hnul (List.mem_append_left _ h0), hcopy, fun i hi => ?_⟩
    obtain rfl : i = 0 := by simpa using hi
    exact hzero

end Search

theorem parent_right_iff {comps : List (List UInt8)} (hne : comps ≠ [])
    (hcomps : ∀ w ∈ comps, w ≠ [] ∧ slash ∉ w) (h : Placed k b (joined comps) [46, 46]) :
    ParentRight k separator b comps ↔
      2 ≤ comps.length ∧ byteAt k.mem (b + (joined comps.dropLast).length) = 0 := by
  obtain ⟨hlen, -, hc⟩ := cstring_eq_some_iff.mp h.directory
  obtain ⟨hc, -⟩ := spells_append.mp hc
  have hcwd := h.cwd_lt
  obtain ⟨init, last, rfl⟩ := (List.eq_nil_or_concat comps).resolve_left hne
  have hlast := (hcomps last (by simp)).2
  rw [ParentRight, List.concat_eq_append, List.dropLast_concat]
  by_cases hinit : init = []
  · subst hinit
    rw [List.concat_eq_append, List.nil_append, joined_singleton] at hc hcwd
    obtain ⟨hexamines, hbeyond⟩ := examines_beyond hc (by omega) hlast
    refine iff_of_false (fun hright => hbeyond ?_) fun hmore => by simp at hmore
    simpa [joined_singleton] using hright.1 last.length (by simpa [joined_singleton] using hexamines)
  · rw [List.concat_eq_append, joined_concat hinit] at h hc hlen
    rw [joined_concat hinit]
    have hp : joined init ≠ [] := joined_ne_nil hinit fun w hw => (hcomps w (by simp [hw])).1
    have hpos := List.length_pos_of_ne_nil hinit
    have htwo : 2 ≤ (init ++ [last]).length := by
      rw [List.length_append, List.length_singleton]
      omega
    obtain ⟨hbefore, hslash⟩ := examines_last hc hlen hlast
    have hinside : ∀ n, Examines k (joined init ++ slash :: last).length n →
        backIndex (joined init ++ slash :: last).length n < (joined init ++ slash :: last).length := by
      intro n hn
      have hle : n ≤ last.length := by
        by_contra hlt
        exact hn last.length (by omega) hslash
      have hlength : (joined init ++ slash :: last).length = (joined init).length + 1 + last.length := by
        rw [List.length_append, List.length_cons]
        omega
      rw [backIndex_eq hlen (by omega)]
      omega
    rw [and_iff_right hinside, imp_iff_right htwo, and_iff_right htwo, cd_parent h hlast hp,
      ← cstring_parent_iff h]
    simp

/-! ## There and back -/

/-- The kernel's half of the memory, with the memory of another program. -/
def switchTo (mem user : Buffer) : Buffer :=
  fun a => if a < 2 ^ 31 then mem a else user a

def Caller.withMem (k : Caller) (mem : Buffer) : Caller := { k with mem := mem }

/-- `cd s`, whose buffer is `b`, and then `cd ..` by another program, with its buffer `b'` in the
memory `user`, make `c` the current directory. -/
def Restores (k : Caller) (separator b b' : ℕ) (user : Buffer) (c : List UInt8) : Prop :=
  ∃ mem₁ mem₂ mem₃ mem₄, k.cd separator b 0 = some mem₁ ∧
    (k.withMem mem₁).cd separator b 1 = some mem₂ ∧
    (k.withMem (switchTo mem₂ user)).cd separator b' 0 = some mem₃ ∧
    (k.withMem mem₃).cd separator b' 1 = some mem₄ ∧ cstring mem₄ k.cwd = some c

theorem pwd_of_cstring (hcwd : k.cwd ≠ 0) (hc : cstring k.mem k.cwd = some c) {buffer : ℕ}
    (hlt : k.cwd + c.length < 2 ^ 31) (huser : 2 ^ 31 ≤ buffer)
    (hroom : buffer + c.length + 1 ≤ 2 ^ 32) :
    ∃ mem', k.pwd buffer = some (0, mem') ∧ cstring mem' buffer = some c := by
  obtain ⟨hlen, hnul, hspells⟩ := cstring_eq_some_iff.mp hc
  obtain ⟨hspells, -⟩ := spells_append.mp hspells
  have hcopy := spells_memcpy buffer hspells (by omega) (by omega) (by omega) (by omega)
  refine ⟨setByte (memcpy k.mem buffer k.cwd c.length) (buffer + c.length) 0, ?_, ?_⟩
  · rw [Caller.pwd, if_neg hcwd, strlen_of_cstring hc]
    rfl
  · refine cstring_eq_some_iff.mpr ⟨hlen, hnul, spells_append.mpr ⟨?_, spells_setByte _ _⟩⟩
    exact spells_setByte_of_apart hcopy (by omega) (by omega) (by omega) 0

theorem setCwd_of_cstring (separator : ℕ) (hs : cstring k.mem b = some s) (hcwd : k.cwd + s.length < 2 ^ 31)
    (huser : 2 ^ 31 ≤ b) (hroom : b + s.length + 1 ≤ 2 ^ 32) :
    ∃ mem', k.cd separator b 1 = some mem' ∧ cstring mem' k.cwd = some s := by
  obtain ⟨hlen, hnul, hspells⟩ := cstring_eq_some_iff.mp hs
  obtain ⟨hspells, -⟩ := spells_append.mp hspells
  have hcopy := spells_memcpy k.cwd hspells (by omega) (by omega) (by omega) (by omega)
  refine ⟨setByte (memcpy k.mem k.cwd b s.length) (k.cwd + s.length) 0, ?_, ?_⟩
  · rw [Caller.cd, if_neg Nat.one_ne_zero, Caller.setCwd, strlen_of_cstring hs]
    rfl
  · refine cstring_eq_some_iff.mpr ⟨hlen, hnul, spells_append.mpr ⟨?_, spells_setByte _ _⟩⟩
    exact spells_setByte_of_apart hcopy (by omega) (by omega) (by omega) 0

theorem setCwd_longer {n : ℕ} (hn : k.cwd + n < 2 ^ 31) (huser : 2 ^ 31 ≤ b) (hroom : b + n < 2 ^ 32)
    (hbefore : ∀ i ≤ n, byteAt k.mem (b + i) ≠ 0) (hold : byteAt k.mem (k.cwd + n) ≠ 0)
    {mem' : Buffer} (hcd : k.cd separator b 1 = some mem') : byteAt mem' (k.cwd + n) ≠ 0 := by
  rw [Caller.cd, if_neg Nat.one_ne_zero, Caller.setCwd] at hcd
  obtain ⟨length, hlength, hcd⟩ := Option.bind_eq_some_iff.mp hcd
  obtain ⟨hlt, hzero, -⟩ := strlen_eq_some_iff.mp hlength
  obtain rfl := Option.some.inj hcd
  have hlong : n < length := by
    by_contra hle
    exact hbefore length (by omega) hzero
  rw [byteAt_setByte_of_ne (by omega)]
  by_cases hcopied : length < 2 ^ 31
  · rw [byteAt_memcpy hcopied hlong fun j hj => by omega]
    exact hbefore n le_rfl
  · -- nothing is copied then
    rw [memcpy_of_le (by omega)]
    exact hold

section Switch

variable {mem user : Buffer} {a : ℕ} {xs : List UInt8}

theorem byteAt_switchTo_kernel (ha : a < 2 ^ 31) : byteAt (switchTo mem user) a = byteAt mem a := by
  rw [byteAt_eq (by omega), byteAt_eq (by omega), switchTo, if_pos ha]

theorem byteAt_switchTo_user (ha : 2 ^ 31 ≤ a) (hlt : a < 2 ^ 32) :
    byteAt (switchTo mem user) a = byteAt user a := by
  rw [byteAt_eq hlt, byteAt_eq hlt, switchTo, if_neg (by omega)]

theorem cstring_switchTo_kernel (h : cstring mem a = some xs) (ha : a + xs.length < 2 ^ 31) :
    cstring (switchTo mem user) a = some xs := by
  obtain ⟨hlen, hnul, hspells⟩ := cstring_eq_some_iff.mp h
  refine cstring_eq_some_iff.mpr ⟨hlen, hnul, hspells.congr fun i hi => ?_⟩
  rw [List.length_append, List.length_singleton] at hi
  exact byteAt_switchTo_kernel (by omega)

theorem cstring_switchTo_user (h : cstring user a = some xs) (ha : 2 ^ 31 ≤ a)
    (hlt : a + xs.length < 2 ^ 32) : cstring (switchTo mem user) a = some xs := by
  obtain ⟨hlen, hnul, hspells⟩ := cstring_eq_some_iff.mp h
  refine cstring_eq_some_iff.mpr ⟨hlen, hnul, hspells.congr fun i hi => ?_⟩
  rw [List.length_append, List.length_singleton] at hi
  exact byteAt_switchTo_user (by omega) (by omega)

end Switch

structure BackPlaced (k : Caller) (b' : ℕ) (user : Buffer) (c s : List UInt8) : Prop where
  argument : cstring user b' = some [46, 46]
  cwd_lt : k.cwd + c.length + 1 + s.length < 2 ^ 31
  user : 2 ^ 31 ≤ b'
  room : b' + c.length + s.length + 5 ≤ 2 ^ 32

theorem restores_iff {b' : ℕ} {user : Buffer} (h : Placed k b c s) (h' : BackPlaced k b' user c s)
    (hslash : slash ∉ s) (hne : c ≠ []) (hchild : ChildRight k separator b c s) :
    Restores k separator b b' user c ↔ byteAt user (b' + c.length) = 0 := by
  obtain ⟨mem₁, hmem₁, hpath⟩ := hchild
  obtain ⟨-, hnul, -⟩ := cstring_eq_some_iff.mp h.directory
  have hlength : (c ++ slash :: s).length = c.length + 1 + s.length := by
    rw [List.length_append, List.length_cons]
    omega
  have hroom := h.room
  have hcwd' := h'.cwd_lt
  have huser' := h'.user
  have hroom' := h'.room
  obtain ⟨mem₂, hmem₂, hdirectory⟩ := setCwd_of_cstring (k := k.withMem mem₁) separator
    hpath (show k.cwd + _ < _ by omega) h.user (by omega)
  have hback : Placed (k.withMem (switchTo mem₂ user)) b' (c ++ slash :: s) [46, 46] :=
    ⟨cstring_switchTo_kernel hdirectory (show k.cwd + _ < _ by omega),
      cstring_switchTo_user h'.argument huser' (by simp; omega), show k.cwd + _ < _ by omega, huser',
      by simp; omega⟩
  have hmem₃ : (k.withMem (switchTo mem₂ user)).cd separator b' 0 =
      some (memcpy (switchTo mem₂ user) b' k.cwd c.length) := cd_parent hback hslash hne
  have hparent : cstring (memcpy (switchTo mem₂ user) b' k.cwd c.length) b' = some c ↔
      byteAt (switchTo mem₂ user) (b' + c.length) = 0 := cstring_parent_iff hback
  have hbehind : byteAt (switchTo mem₂ user) (b' + c.length) = byteAt user (b' + c.length) :=
    byteAt_switchTo_user (by omega) (by omega)
  rw [← hbehind, ← hparent]
  constructor
  · rintro ⟨m₁, m₂, m₃, m₄, h₁, h₂, h₃, h₄, hend⟩
    obtain rfl := Option.some.inj (h₁.symm.trans hmem₁)
    obtain rfl := Option.some.inj (h₂.symm.trans hmem₂)
    obtain rfl := Option.some.inj (h₃.symm.trans hmem₃)
    by_contra hnot
    -- the path of the child is still there, and longer
    have hpath₂ : ∀ i ≤ c.length, byteAt (switchTo m₂ user) (k.cwd + i) ≠ 0 := fun i hi =>
      (strlen_eq_some_iff.mp (strlen_of_cstring hback.directory)).2.2 i (by omega)
    have hlast : byteAt (memcpy (switchTo m₂ user) b' k.cwd c.length) (b' + c.length) ≠ 0 := by
      rw [byteAt_memcpy_of_notMem fun j hj => ?_]
      · exact fun h0 => hnot (hparent.mpr h0)
      · rw [copied, if_pos (by omega)] at hj
        omega
    have hcopied : ∀ i ≤ c.length,
        byteAt (memcpy (switchTo m₂ user) b' k.cwd c.length) (b' + i) ≠ 0 := by
      intro i hi
      rcases hi.lt_or_eq with hlt | rfl
      · rw [byteAt_memcpy (by omega) hlt fun j hj => by omega]
        exact hpath₂ i hi
      · exact hlast
    have hold : byteAt (memcpy (switchTo m₂ user) b' k.cwd c.length) (k.cwd + c.length) ≠ 0 := by
      rw [byteAt_memcpy_of_notMem fun j hj => ?_]
      · exact hpath₂ c.length le_rfl
      · rw [copied, if_pos (by omega)] at hj
        omega
    have hzero : byteAt m₄ (k.cwd + c.length) = 0 :=
      (spells_append.mp (cstring_eq_some_iff.mp hend).2.2).2 0 (by simp)
    exact setCwd_longer (k := k.withMem (memcpy (switchTo m₂ user) b' k.cwd c.length))
      (show k.cwd + c.length < 2 ^ 31 by omega) huser' (by omega) hcopied hold h₄ hzero
  · intro hc
    obtain ⟨mem₄, hmem₄, hend⟩ := setCwd_of_cstring separator
      (k := k.withMem (memcpy (switchTo mem₂ user) b' k.cwd c.length)) hc
      (show k.cwd + c.length < 2 ^ 31 by omega) huser' (by omega)
    exact ⟨mem₁, mem₂, _, mem₄, hmem₁, hmem₂, hmem₃, hmem₄, hend⟩

/-- The buffer gets the path of a child if and only if the argument spares the kernel's strings. It
gets the path of the parent, without a look at what is in front of the directory, if and only if the
directory has more than one component and the byte behind the parent's path is a zero already. And
`cd ..` undoes `cd s` if and only if both hold. -/
theorem cd_correct_iff {comps : List (List UInt8)} (hne : comps ≠ [])
    (hcomps : ∀ w ∈ comps, w ≠ [] ∧ slash ∉ w) (k : Caller) (separator b : ℕ) :
    (∀ s, slash ∉ s → s ≠ [46] → s ≠ [46, 46] → ChildPlaced k separator b (joined comps) s →
      (ChildRight k separator b (joined comps) s ↔ Spared k separator (joined comps) s)) ∧
    (Placed k b (joined comps) [46, 46] → (ParentRight k separator b comps ↔
      2 ≤ comps.length ∧ byteAt k.mem (b + (joined comps.dropLast).length) = 0)) ∧
    ∀ s b' user, slash ∉ s → s ≠ [46] → s ≠ [46, 46] →
      ChildPlaced k separator b (joined comps) s → BackPlaced k b' user (joined comps) s →
      (ChildRight k separator b (joined comps) s ∧ Restores k separator b b' user (joined comps) ↔
        Spared k separator (joined comps) s ∧ byteAt user (b' + (joined comps).length) = 0) := by
  refine ⟨fun s hslash hself hparent h => child_right_iff h hslash hself hparent,
    parent_right_iff hne hcomps, fun s b' user hslash hself hparent h h' => ?_⟩
  have hpath := joined_ne_nil hne fun w hw => (hcomps w hw).1
  rw [← child_right_iff h hslash hself hparent]
  exact and_congr_right fun hchild => restores_iff h.toPlaced h' hslash hpath hchild

/-- The directory `sbin/testfolder`, and a caller that passes `..` in a buffer whose fifth byte is
`behind`. -/
def inTestfolder (behind : UInt8) : Caller :=
  { kernelPointers with
    cwd := 0x100000
    literal := 0x200000
    mem := [⟨0x100000, [115, 98, 105, 110, 47, 116, 101, 115, 116, 102, 111, 108, 100, 101, 114, 0]⟩,
      ⟨0x200010, [47]⟩, ⟨0x90000000, [46, 46, 0, 0, behind]⟩].foldl Store.apply fun _ => 0 }

def testfolder : List (List UInt8) :=
  [[115, 98, 105, 110], [116, 101, 115, 116, 102, 111, 108, 100, 101, 114]]

theorem inTestfolder_placed {behind : UInt8} (h : behind = 0 ∨ behind = 120) :
    Placed (inTestfolder behind) 0x90000000 (joined testfolder) [46, 46] := by
  rcases h with rfl | rfl
  · exact ⟨by decide +kernel, by decide +kernel, by decide, by decide, by decide⟩
  · exact ⟨by decide +kernel, by decide +kernel, by decide, by decide, by decide⟩

def bob : List UInt8 := [98, 111, 98]

def toBob : Caller :=
  { inTestfolder 0 with mem := Store.apply (inTestfolder 0).mem ⟨0x90000000, bob ++ [0, 0]⟩ }

def backFromBob : Buffer := Store.apply (fun _ => 0) ⟨0xA0000000, [46, 46]⟩

/-- From `sbin/testfolder` the buffer gets `sbin` for `..`, `sbin/testfolder/bob` for `bob`, and `..`
comes back from there. -/
theorem testfolder_moves : ParentRight (inTestfolder 0) 0x200010 0x90000000 testfolder ∧
    ChildRight toBob 0x200010 0x90000000 (joined testfolder) bob ∧
    Restores toBob 0x200010 0x90000000 0xA0000000 backFromBob (joined testfolder) := by
  have hplaced : ChildPlaced toBob 0x200010 0x90000000 (joined testfolder) bob :=
    ⟨⟨by decide +kernel, by decide +kernel, by decide, by decide, by decide⟩, by decide, by decide⟩
  have hback : BackPlaced toBob 0xA0000000 backFromBob (joined testfolder) bob :=
    ⟨by decide +kernel, by decide, by decide, by decide⟩
  have hspared : Spared toBob 0x200010 (joined testfolder) bob := by
    refine ⟨by decide +kernel, by decide, fun i hi j hj heq => ?_⟩
    have hi : i ≤ 3 := hi
    have hj : j ≤ 15 := hj
    have heq : 0x200000 + i = 0x100000 + j := heq
    omega
  have hround := (cd_correct_iff (show testfolder ≠ [] by decide) (by decide) toBob 0x200010
    0x90000000).2.2
  exact ⟨((cd_correct_iff (by decide) (by decide) (inTestfolder 0) 0x200010 0x90000000).2.1
      (inTestfolder_placed (Or.inl rfl))).mpr (by decide +kernel),
    (hround bob 0xA0000000 backFromBob (by decide) (by decide) (by decide) hplaced hback).mpr
      ⟨hspared, by decide +kernel⟩⟩

/-- With an `x` there the buffer gets `sbinx`. -/
theorem inTestfolder_wrong :
    Placed (inTestfolder 120) 0x90000000 (joined testfolder) [46, 46] ∧
    ¬ ParentRight (inTestfolder 120) 0x200010 0x90000000 testfolder ∧
    ((inTestfolder 120).cd 0x200010 0x90000000 0).bind (cstring · 0x90000000) =
      some [115, 98, 105, 110, 120] := by
  have hbuffer : ((inTestfolder 120).cd 0x200010 0x90000000 0).bind (cstring · 0x90000000) =
      some [115, 98, 105, 110, 120] := by decide +kernel
  refine ⟨inTestfolder_placed (Or.inr rfl), fun hright => ?_, hbuffer⟩
  obtain ⟨mem', hcd, hpath⟩ := hright.2 (by decide)
  rw [hcd, Option.bind_some, hpath] at hbuffer
  exact absurd hbuffer (by decide)

end OsShell.Sys
