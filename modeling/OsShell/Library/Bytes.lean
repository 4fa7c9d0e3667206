import Mathlib

/-!
# Byte buffers

A buffer is its content, position by position. Writing changes a range of
positions and reading a range gives a list; a list of equally long blocks is
read like a buffer, by dividing the position by the length.
-/

namespace OsShell.Bytes

abbrev Buffer := ℕ → UInt8

def put (p n : ℕ) (src buffer : Buffer) : Buffer :=
  fun i => if p ≤ i ∧ i < p + n then src (i - p) else buffer i

def slice (b : Buffer) (p n : ℕ) : List UInt8 :=
  (List.range n).map fun i => b (p + i)

def le16 (b : Buffer) (p : ℕ) : ℕ :=
  (b p).toNat + 2 ^ 8 * (b (p + 1)).toNat

def le32 (b : Buffer) (p : ℕ) : ℕ :=
  le16 b p + 2 ^ 16 * le16 b (p + 2)

theorem le16_lt (b : Buffer) (p : ℕ) : le16 b p < 2 ^ 16 := by
  have h0 := (b p).toNat_lt
  have h1 := (b (p + 1)).toNat_lt
  unfold le16
  omega

theorem le32_lt (b : Buffer) (p : ℕ) : le32 b p < 2 ^ 32 := by
  have h0 := le16_lt b p
  have h1 := le16_lt b (p + 2)
  unfold le32
  omega

theorem le16_congr {b c : Buffer} {p q : ℕ} (h : ∀ i < 2, b (p + i) = c (q + i)) :
    le16 b p = le16 c q := by
  have h0 := h 0 (by omega)
  have h1 := h 1 (by omega)
  simp only [Nat.add_zero] at h0
  simp only [le16, h0, h1]

theorem le32_congr {b c : Buffer} {p q : ℕ} (h : ∀ i < 4, b (p + i) = c (q + i)) :
    le32 b p = le32 c q := by
  have h0 := h 0 (by omega)
  have h1 := h 1 (by omega)
  have h2 := h 2 (by omega)
  have h3 := h 3 (by omega)
  simp only [Nat.add_zero] at h0
  simp only [le32, le16, Nat.add_assoc, Nat.reduceAdd, h0, h1, h2, h3]

@[simp] theorem put_zero (p : ℕ) (src buffer : Buffer) : put p 0 src buffer = buffer := by
  funext i
  simp only [put, Nat.add_zero]
  rw [if_neg (by omega)]

theorem put_of_mem {p n i : ℕ} (src buffer : Buffer) (hi : i < n) :
    put p n src buffer (p + i) = src i := by
  simp only [put]
  rw [if_pos (by omega), Nat.add_sub_cancel_left]

theorem put_of_notMem {p n i : ℕ} (src buffer : Buffer) (hi : i < p ∨ p + n ≤ i) :
    put p n src buffer i = buffer i := by
  simp only [put]
  exact if_neg (by omega)

theorem put_congr {p n : ℕ} {src src' : Buffer} (buffer : Buffer) (h : ∀ i < n, src i = src' i) :
    put p n src buffer = put p n src' buffer := by
  funext i
  simp only [put]
  split
  · exact h _ (by omega)
  · rfl

theorem put_inj {p n : ℕ} {src src' buffer : Buffer} :
    put p n src buffer = put p n src' buffer ↔ ∀ i < n, src i = src' i := by
  refine ⟨fun h i hi => ?_, put_congr buffer⟩
  rw [← put_of_mem src buffer hi, h, put_of_mem src' buffer hi]

theorem put_put (p a b : ℕ) (src buffer : Buffer) :
    put (p + a) b (fun i => src (a + i)) (put p a src buffer) = put p (a + b) src buffer := by
  funext i
  simp only [put]
  by_cases hlow : i < p + a
  · rw [if_neg (by omega)]
    by_cases hp : p ≤ i
    · rw [if_pos (by omega), if_pos (by omega)]
    · rw [if_neg (by omega), if_neg (by omega)]
  · by_cases hhigh : i < p + a + b
    · rw [if_pos (by omega), if_pos (by omega)]
      congr 1
      omega
    · rw [if_neg (by omega), if_neg (by omega), if_neg (by omega)]

theorem put_cons (p : ℕ) (x : UInt8) (xs : List UInt8) (buffer : Buffer) :
    put (p + 1) xs.length (fun i => xs.getD i 0) (Function.update buffer p x) =
      put p (xs.length + 1) (fun i => (x :: xs).getD i 0) buffer := by
  funext i
  simp only [put]
  rcases lt_trichotomy i p with hlt | rfl | hlt
  · rw [if_neg (by omega), if_neg (by omega), Function.update_of_ne hlt.ne]
  · rw [if_neg (by omega), if_pos (by omega), Function.update_self, Nat.sub_self]
    rfl
  · obtain ⟨k, rfl⟩ := Nat.exists_eq_add_of_lt hlt
    by_cases hk : k < xs.length
    · rw [if_pos (by omega), if_pos (by omega), show p + k + 1 - (p + 1) = k by omega,
        show p + k + 1 - p = k + 1 by omega, List.getD_cons_succ]
    · rw [if_neg (by omega), if_neg (by omega), Function.update_of_ne hlt.ne']

@[simp] theorem length_slice (b : Buffer) (p n : ℕ) : (slice b p n).length = n := by
  simp [slice]

theorem getElem?_slice (b : Buffer) (p : ℕ) {n i : ℕ} (hi : i < n) :
    (slice b p n)[i]? = some (b (p + i)) := by
  simp [slice, hi]

theorem slice_add (b : Buffer) (p m n : ℕ) : slice b p (m + n) = slice b p m ++ slice b (p + m) n := by
  simp only [slice, List.range_add, List.map_append, List.map_map, Function.comp_def, Nat.add_assoc]

theorem slice_congr {b c : Buffer} {p q n : ℕ} (h : ∀ i < n, b (p + i) = c (q + i)) :
    slice b p n = slice c q n :=
  List.map_congr_left fun i hi => h i (List.mem_range.mp hi)

theorem slice_put (p n : ℕ) (src buffer : Buffer) : slice (put p n src buffer) p n = slice src 0 n := by
  refine List.map_congr_left fun i hi => ?_
  rw [put_of_mem src buffer (List.mem_range.mp hi), Nat.zero_add]

theorem getElem?_flatMap {α : Type*} {l : List α} {f : α → List UInt8} {k : ℕ}
    (hf : ∀ x, (f x).length = k) (hk : 0 < k) (i : ℕ) :
    (l.flatMap f)[i]? = (l[i / k]?).bind fun x => (f x)[i % k]? := by
  induction l generalizing i with
  | nil => simp
  | cons x l ih =>
    rw [List.flatMap_cons]
    by_cases hi : i < k
    · rw [List.getElem?_append_left (by rwa [hf]), Nat.div_eq_of_lt hi, Nat.mod_eq_of_lt hi]
      rfl
    · obtain ⟨j, rfl⟩ : ∃ j, i = j + k := ⟨i - k, by omega⟩
      rw [List.getElem?_append_right (by rw [hf]; omega), hf, Nat.add_sub_cancel, ih,
        Nat.add_div_right _ hk, Nat.add_mod_right, List.getElem?_cons_succ]

theorem length_flatMap {α : Type*} (l : List α) {f : α → List UInt8} {k : ℕ}
    (hf : ∀ x, (f x).length = k) : (l.flatMap f).length = l.length * k := by
  induction l with
  | nil => simp
  | cons x l ih =>
    rw [List.flatMap_cons, List.length_append, ih, hf, List.length_cons, Nat.add_mul, Nat.one_mul,
      Nat.add_comm]

def Spells (b : Buffer) (p : ℕ) (xs : List UInt8) : Prop :=
  ∀ i (h : i < xs.length), b (p + i) = xs[i]

theorem Spells.congr {b c : Buffer} {p : ℕ} {xs : List UInt8} (h : Spells b p xs)
    (hc : ∀ i < xs.length, c (p + i) = b (p + i)) : Spells c p xs :=
  fun i hi => (hc i hi).trans (h i hi)

theorem Spells.unique {b : Buffer} {p : ℕ} {xs ys : List UInt8} (hx : Spells b p xs)
    (hy : Spells b p ys) (hlen : xs.length = ys.length) : xs = ys :=
  List.ext_getElem hlen fun i hi hi' => (hx i hi).symm.trans (hy i hi')

theorem spells_iff_getD {b : Buffer} {p : ℕ} {xs : List UInt8} :
    Spells b p xs ↔ ∀ i < xs.length, b (p + i) = xs.getD i 0 := by
  refine forall₂_congr fun i hi => ?_
  rw [List.getD_eq_getElem?_getD, List.getElem?_eq_getElem hi, Option.getD_some]

theorem spells_append {b : Buffer} {p : ℕ} {xs ys : List UInt8} :
    Spells b p (xs ++ ys) ↔ Spells b p xs ∧ Spells b (p + xs.length) ys := by
  constructor
  · intro h
    refine ⟨fun i hi => ?_, fun i hi => ?_⟩
    · rw [h i (by rw [List.length_append]; omega), List.getElem_append_left hi]
    · rw [Nat.add_assoc, h (xs.length + i) (by rw [List.length_append]; omega),
        List.getElem_append_right (by omega)]
      simp
  · rintro ⟨hx, hy⟩ i hi
    by_cases hlt : i < xs.length
    · rw [hx i hlt, List.getElem_append_left hlt]
    · rw [List.length_append] at hi
      rw [List.getElem_append_right (by omega), ← hy (i - xs.length) (by omega)]
      congr 1
      omega

theorem spells_cons {b : Buffer} {p : ℕ} {x : UInt8} {xs : List UInt8} :
    Spells b p (x :: xs) ↔ b p = x ∧ Spells b (p + 1) xs := by
  have happend : Spells b p ([x] ++ xs) ↔ Spells b p [x] ∧ Spells b (p + 1) xs := spells_append
  refine happend.trans (and_congr_left' ⟨fun h => h 0 (Nat.succ_pos 0), fun h i hi => ?_⟩)
  obtain rfl : i = 0 := by simpa using hi
  exact h

theorem spells_flatMap {α : Type*} {b : Buffer} {p : ℕ} {l : List α} {f : α → List UInt8}
    (h : Spells b p (l.flatMap f)) (i : ℕ) (hi : i < l.length) :
    Spells b (p + ((l.take i).map fun x => (f x).length).sum) (f l[i]) := by
  induction l generalizing p i with
  | nil => exact absurd hi (Nat.not_lt_zero i)
  | cons x l ih =>
    rw [List.flatMap_cons, spells_append] at h
    cases i with
    | zero => exact h.1
    | succ i =>
      have := ih h.2 i (Nat.lt_of_succ_lt_succ hi)
      simpa [Nat.add_assoc] using this

def word (w : ℕ) : List UInt8 :=
  [.ofNat w, .ofNat (w / 2 ^ 8), .ofNat (w / 2 ^ 16), .ofNat (w / 2 ^ 24)]

@[simp] theorem length_word (w : ℕ) : (word w).length = 4 := rfl

theorem le32_of_spells {b : Buffer} {p w : ℕ} (h : Spells b p (word w)) (hw : w < 2 ^ 32) :
    le32 b p = w := by
  have h0 : b p = .ofNat w := h 0 (by rw [length_word]; decide)
  have h1 : b (p + 1) = .ofNat (w / 2 ^ 8) := h 1 (by rw [length_word]; decide)
  have h2 : b (p + 2) = .ofNat (w / 2 ^ 16) := h 2 (by rw [length_word]; decide)
  have h3 : b (p + 3) = .ofNat (w / 2 ^ 24) := h 3 (by rw [length_word]; decide)
  simp only [le32, le16, Nat.add_assoc, Nat.reduceAdd, h0, h1, h2, h3, UInt8.toNat_ofNat']
  omega

def chars (s : String) : List UInt8 :=
  s.toList.map fun c => UInt8.ofNat c.toNat

/-- The string that the bytes begin with. -/
def cstr (xs : List UInt8) : List UInt8 :=
  xs.takeWhile (· ≠ 0)

theorem cstr_append_zero (xs ys : List UInt8) : cstr (xs ++ 0 :: ys) = cstr xs := by
  induction xs with
  | nil => rfl
  | cons x xs ih =>
    rw [List.cons_append, cstr, cstr, List.takeWhile_cons, List.takeWhile_cons]
    split
    · exact congrArg (x :: ·) ih
    · rfl

theorem cstr_eq_self {xs : List UInt8} (h : 0 ∉ xs) : cstr xs = xs :=
  List.takeWhile_eq_self_iff.mpr fun _ hx => decide_eq_true fun h0 => h (h0 ▸ hx)

theorem slice_eq_of_spells {b : Buffer} {p : ℕ} {xs : List UInt8} (h : Spells b p xs) :
    slice b p xs.length = xs :=
  List.ext_getElem (length_slice _ _ _) fun i hi hi' => by simpa [slice] using h i hi'

theorem cstr_slice {b : Buffer} {p n : ℕ} {xs : List UInt8} (h : Spells b p (xs ++ [0]))
    (hn : xs.length < n) : cstr (slice b p n) = cstr xs := by
  obtain ⟨rest, rfl⟩ := Nat.exists_eq_add_of_lt hn
  have hlen : xs.length + 1 = (xs ++ [0]).length := by rw [List.length_append, List.length_singleton]
  rw [Nat.add_right_comm, slice_add, hlen, slice_eq_of_spells h, List.append_assoc]
  exact cstr_append_zero _ _

end OsShell.Bytes
