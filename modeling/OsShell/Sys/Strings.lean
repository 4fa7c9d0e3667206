import OsShell.Sys.UserMemory

/-!
# Strings in memory

A string stands where its bytes do, with a zero behind them. `memcpy` goes byte by
byte from the low end, so that what it copies arrives unless the two ranges overlap,
and what lies outside of the range it writes stays.
-/

namespace OsShell.Sys

open Bytes Exec

variable {mem : Buffer} {a n : ℕ} {xs : List UInt8}

theorem byteAt_eq (ha : a < 2 ^ 32) : byteAt mem a = mem a := by
  rw [byteAt, Nat.mod_eq_of_lt ha]

theorem findFrom_eq_some {stop : ℕ → Bool} {fuel : ℕ} (hn : n < fuel) (hstop : stop n = true)
    (hbefore : ∀ j < n, stop j = false) : findFrom stop fuel 0 = some n := by
  cases h : findFrom stop fuel 0 with
  | none =>
    have := findFrom_eq_none.mp h n hn
    simp [hstop] at this
  | some m =>
    obtain ⟨-, hm, hfirst⟩ := findFrom_spec h
    rcases lt_trichotomy m n with hlt | rfl | hlt
    · simp [hbefore m hlt] at hm
    · rfl
    · simp [hfirst n (Nat.zero_le n) hlt] at hstop

theorem exists_strlen (hn : n < 2 ^ 32) (hzero : byteAt mem (a + n) = 0) :
    ∃ m ≤ n, strlen mem a = some m := by
  cases h : strlen mem a with
  | none =>
    have := findFrom_eq_none.mp h n hn
    simp [hzero] at this
  | some m =>
    refine ⟨m, ?_, rfl⟩
    by_contra hlt
    have := (findFrom_spec h).2.2 n (Nat.zero_le n) (by omega)
    simp [hzero] at this

theorem strlen_eq_some_iff : strlen mem a = some n ↔
    n < 2 ^ 32 ∧ byteAt mem (a + n) = 0 ∧ ∀ i < n, byteAt mem (a + i) ≠ 0 := by
  constructor
  · intro h
    obtain ⟨-, hzero, hbefore⟩ := findFrom_spec h
    have hbefore : ∀ i < n, byteAt mem (a + i) ≠ 0 := fun i hi => by
      simpa using hbefore i (Nat.zero_le i) hi
    refine ⟨?_, by simpa using hzero, hbefore⟩
    by_contra hlt
    -- a search that is not over after one round has met no zero
    have hround : byteAt mem (a + n) = byteAt mem (a + n % 2 ^ 32) := by
      rw [byteAt, byteAt, Nat.add_mod, ← Nat.mod_mod n, ← Nat.add_mod, Nat.mod_mod]
    have hmod := Nat.mod_lt n (show 0 < 2 ^ 32 by decide)
    have hzero : byteAt mem (a + n) = 0 := by simpa using hzero
    exact hbefore (n % 2 ^ 32) (by omega) (hround ▸ hzero)
  · rintro ⟨hlt, hzero, hbefore⟩
    exact findFrom_eq_some hlt (by simpa using hzero) fun j hj => by simpa using hbefore j hj

theorem cstring_eq_some_iff : cstring mem a = some xs ↔
    xs.length < 2 ^ 32 ∧ 0 ∉ xs ∧ Spells (byteAt mem) a (xs ++ [0]) := by
  rw [cstring, Option.map_eq_some_iff]
  constructor
  · rintro ⟨n, hn, rfl⟩
    obtain ⟨hlt, hzero, hbefore⟩ := strlen_eq_some_iff.mp hn
    refine ⟨by rwa [length_slice], fun hmem => ?_, spells_append.mpr ⟨?_, ?_⟩⟩
    · obtain ⟨i, hi, heq⟩ := List.mem_map.mp hmem
      exact hbefore i (List.mem_range.mp hi) heq
    · intro i hi
      simp [slice]
    · intro i hi
      rw [List.length_singleton] at hi
      obtain rfl : i = 0 := by omega
      rw [length_slice]
      exact hzero
  · rintro ⟨hlt, hnul, hspells⟩
    obtain ⟨hxs, hzero⟩ := spells_append.mp hspells
    refine ⟨xs.length, strlen_eq_some_iff.mpr ⟨hlt, hzero 0 (by simp), fun i hi heq => ?_⟩, ?_⟩
    · rw [hxs i hi] at heq
      exact hnul (heq ▸ List.getElem_mem hi)
    · refine List.ext_getElem (length_slice _ _ _) fun i hi hi' => ?_
      simpa [slice] using hxs i hi'

theorem strlen_of_cstring (h : cstring mem a = some xs) : strlen mem a = some xs.length := by
  obtain ⟨n, hn, rfl⟩ := Option.map_eq_some_iff.mp h
  rw [length_slice]
  exact hn

/-- A copy of `n` bytes, from the low end on. -/
def memcpy (mem : Buffer) (dest src n : ℕ) : Buffer :=
  (List.range (copied n)).foldl (fun mem i =>
    Function.update mem ((dest + i) % 2 ^ 32) (byteAt mem (src + i))) mem

def setByte (mem : Buffer) (str : ℕ) (c : UInt8) : Buffer :=
  Function.update mem (str % 2 ^ 32) c

variable {dest src : ℕ}

theorem byteAt_setByte (str : ℕ) (c : UInt8) : byteAt (setByte mem str c) str = c :=
  Function.update_self _ _ _

theorem byteAt_setByte_of_ne {str : ℕ} (h : a % 2 ^ 32 ≠ str % 2 ^ 32) (c : UInt8) :
    byteAt (setByte mem str c) a = byteAt mem a :=
  Function.update_of_ne h _ _

theorem memcpy_succ (hn : n + 1 < 2 ^ 31) : memcpy mem dest src (n + 1) =
    setByte (memcpy mem dest src n) (dest + n) (byteAt (memcpy mem dest src n) (src + n)) := by
  rw [memcpy, copied, if_pos hn, List.range_succ, List.foldl_append, memcpy, copied,
    if_pos (by omega)]
  rfl

theorem memcpy_of_le (hn : 2 ^ 31 ≤ n) : memcpy mem dest src n = mem := by
  rw [memcpy, copied, if_neg (by omega)]
  rfl

theorem byteAt_memcpy_of_notMem (h : ∀ i < copied n, a % 2 ^ 32 ≠ (dest + i) % 2 ^ 32) :
    byteAt (memcpy mem dest src n) a = byteAt mem a := by
  by_cases hn : n < 2 ^ 31
  · rw [copied, if_pos hn] at h
    induction n with
    | zero => rfl
    | succ n ih =>
      rw [memcpy_succ hn, byteAt_setByte_of_ne (h n (Nat.lt_succ_self n))]
      exact ih (fun i hi => h i (by omega)) (by omega)
  · rw [memcpy_of_le (by omega)]

theorem byteAt_memcpy (hn : n < 2 ^ 31) {i : ℕ} (hi : i < n)
    (hsrc : ∀ j < i, (src + i) % 2 ^ 32 ≠ (dest + j) % 2 ^ 32) :
    byteAt (memcpy mem dest src n) (dest + i) = byteAt mem (src + i) := by
  induction n with
  | zero => exact absurd hi (Nat.not_lt_zero i)
  | succ n ih =>
    rw [memcpy_succ hn]
    by_cases hlast : i = n
    · subst hlast
      rw [byteAt_setByte, byteAt_memcpy_of_notMem]
      intro j hj
      rw [copied, if_pos (by omega)] at hj
      exact hsrc j hj
    · rw [byteAt_setByte_of_ne (by omega)]
      exact ih (by omega) (by omega)

theorem spells_memcpy (dest : ℕ) (h : Spells (byteAt mem) src xs) (hn : xs.length < 2 ^ 31)
    (hdest : dest + xs.length ≤ 2 ^ 32) (hsrc : src + xs.length ≤ 2 ^ 32)
    (hapart : src + xs.length ≤ dest ∨ dest + xs.length ≤ src) :
    Spells (byteAt (memcpy mem dest src xs.length)) dest xs :=
  fun i hi => (byteAt_memcpy hn hi fun j hj => by omega).trans (h i hi)

theorem spells_memcpy_of_apart (dest src n : ℕ) (h : Spells (byteAt mem) a xs) (ha : a + xs.length ≤ 2 ^ 32)
    (hdest : dest + n ≤ 2 ^ 32) (hapart : a + xs.length ≤ dest ∨ dest + n ≤ a) :
    Spells (byteAt (memcpy mem dest src n)) a xs :=
  h.congr fun i hi => byteAt_memcpy_of_notMem fun j hj => by
    unfold copied at hj
    split at hj <;> omega

theorem spells_setByte_of_apart (h : Spells (byteAt mem) a xs) (ha : a + xs.length ≤ 2 ^ 32)
    {str : ℕ} (hstr : str < 2 ^ 32) (hapart : a + xs.length ≤ str ∨ str < a) (c : UInt8) :
    Spells (byteAt (setByte mem str c)) a xs :=
  h.congr fun i hi => byteAt_setByte_of_ne (by omega) c

theorem spells_setByte (str : ℕ) (c : UInt8) : Spells (byteAt (setByte mem str c)) str [c] := by
  intro i hi
  obtain rfl : i = 0 := by simpa using hi
  exact byteAt_setByte str c

end OsShell.Sys
