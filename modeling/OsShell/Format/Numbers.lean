import OsShell.Format.Code

/-!
# Numbers

What `fmtint` writes, in whatever width, with whatever precision and flags, reads back
as the number: blanks, a sign, zeros and digits, and blanks.
-/

namespace OsShell.Format

open AddressSpace

def digitValue (c : UInt8) : Option ℕ :=
  if 48 ≤ c ∧ c ≤ 57 then some (c.toNat - 48)
  else if 65 ≤ c ∧ c ≤ 70 then some (c.toNat - 55)
  else if 97 ≤ c ∧ c ≤ 102 then some (c.toNat - 87)
  else none

def readDigits (base : ℕ) : ℕ → List UInt8 → ℕ
  | n, [] => n
  | n, c :: cs =>
    match digitValue c with
    | some d => readDigits base (n * base + d) cs
    | none => n

/-- A number as C programs read it: blanks, perhaps a sign, and digits. -/
def readNumber (base : ℕ) (text : List UInt8) : ℤ :=
  match text.dropWhile (· = 32) with
  | 45 :: cs => -(readDigits base 0 cs : ℤ)
  | 43 :: cs => readDigits base 0 cs
  | cs => readDigits base 0 cs

variable {base fuel n : ℕ} {caps : Bool} {value : Word} {min max : ℤ} {flags : Flags}

theorem digitValue_digit {d : ℕ} (hd : d < 16) : digitValue (digit caps d) = some d := by
  have hall : ∀ (caps : Bool) (d : Fin 16), digitValue (digit caps d.val) = some d.val := by decide
  exact hall caps ⟨d, hd⟩

/-- The digits of a number, at least one, the lowest first. -/
def numeral (base n : ℕ) : List ℕ := if n = 0 then [0] else Nat.digits base n

theorem numeral_lt (hbase : 2 ≤ base) {d : ℕ} (hd : d ∈ numeral base n) : d < base := by
  unfold numeral at hd
  split at hd
  · obtain rfl := List.mem_singleton.mp hd
    omega
  · exact Nat.digits_lt_base (by omega) hd

theorem ofDigits_numeral (base n : ℕ) : Nat.ofDigits base (numeral base n) = n := by
  unfold numeral
  split
  · rename_i h
    rw [h, Nat.ofDigits_singleton]
  · exact Nat.ofDigits_digits base n

theorem length_numeral_pos (base n : ℕ) : 1 ≤ (numeral base n).length := by
  unfold numeral
  split
  · exact le_rfl
  · rename_i h
    exact List.length_pos_of_ne_nil (Nat.digits_ne_nil_iff_ne_zero.mpr h)

theorem length_numeral_lt (hbase : 8 ≤ base) (hn : n < 2 ^ 32) : (numeral base n).length < 20 := by
  unfold numeral
  split
  · exact Nat.one_lt_two.trans (by decide)
  · refine lt_of_le_of_lt ((Nat.digits_length_le_iff (by omega) n).mpr ?_) (by decide : 11 < 20)
    calc n < 8 ^ 11 := hn.trans (by decide)
      _ ≤ base ^ 11 := Nat.pow_le_pow_left hbase 11

theorem convertLoop_eq (hbase : 2 ≤ base) (hn : n < base ^ fuel) (hfuel : 0 < fuel) :
    convertLoop caps base fuel n = (numeral base n).map (digit caps) := by
  induction fuel generalizing n with
  | zero => omega
  | succ fuel ih =>
    rw [convertLoop]
    by_cases hzero : n / base = 0
    · have hlt : n < base := (Nat.div_eq_zero_iff_lt (by omega)).mp hzero
      rw [if_pos hzero, Nat.mod_eq_of_lt hlt]
      unfold numeral
      split
      · rename_i h
        rw [h, List.map_singleton]
      · rename_i h
        rw [Nat.digits_of_lt base n h hlt, List.map_singleton]
    · have hdiv : n / base < base ^ fuel := by
        rw [Nat.div_lt_iff_lt_mul (by omega)]
        rwa [pow_succ] at hn
      have hpos : 0 < fuel := Nat.pos_of_ne_zero fun h => by
        rw [h, pow_zero] at hdiv
        exact hzero (Nat.lt_one_iff.mp hdiv)
      have hne : n ≠ 0 := fun h => hzero (by rw [h, Nat.zero_div])
      rw [if_neg hzero, ih hdiv hpos]
      unfold numeral
      rw [if_neg hzero, if_neg hne, Nat.digits_def' (by omega) (Nat.pos_of_ne_zero hne), List.map_cons]

theorem convertLoop_word (hbase : 8 ≤ base) (hn : n < 2 ^ 32) :
    convertLoop caps base 20 n = (numeral base n).map (digit caps) := by
  have hpow : n < base ^ 20 :=
    calc n < 8 ^ 20 := hn.trans (by decide)
      _ ≤ base ^ 20 := Nat.pow_le_pow_left hbase 20
  exact convertLoop_eq (by omega) hpow (by decide)

theorem length_convertLoop_lt (hbase : 8 ≤ base) (hn : n < 2 ^ 32) :
    (convertLoop caps base 20 n).length < 20 := by
  rw [convertLoop_word hbase hn, List.length_map]
  exact length_numeral_lt hbase hn

theorem readDigits_numeral (hbase : base ≤ 16) {ds : List ℕ} (hds : ∀ d ∈ ds, d < base)
    (n : ℕ) (rest : List UInt8) :
    readDigits base n ((ds.map (digit caps)).reverse ++ rest) =
      readDigits base (n * base ^ ds.length + Nat.ofDigits base ds) rest := by
  induction ds generalizing rest with
  | nil => simp
  | cons d ds ih =>
    have hd : d < 16 := (hds d List.mem_cons_self).trans_le hbase
    rw [List.map_cons, List.reverse_cons, List.append_assoc,
      ih fun e he => hds e (List.mem_cons_of_mem _ he), List.singleton_append, readDigits,
      digitValue_digit hd, Nat.ofDigits_cons, List.length_cons, pow_succ]
    exact congrArg (readDigits base · rest) (by ring)

theorem readDigits_zeros (base k : ℕ) (rest : List UInt8) :
    readDigits base 0 (List.replicate k 48 ++ rest) = readDigits base 0 rest := by
  induction k with
  | zero => rfl
  | succ k ih =>
    rw [List.replicate_succ, List.cons_append, readDigits, show digitValue 48 = some 0 from rfl]
    simpa using ih

theorem readDigits_blanks (base n k : ℕ) : readDigits base n (List.replicate k 32) = n := by
  cases k with
  | zero => rfl
  | succ k => rw [List.replicate_succ, readDigits, show digitValue 32 = none from rfl]

def magnitude (value : Word) (flags : Flags) : ℕ :=
  (if ¬ flags.unsigned ∧ value.toInt < 0 then -value else value).toNat

def signText (value : Word) (flags : Flags) : List UInt8 :=
  if flags.unsigned then [] else if ¬ flags.unsigned ∧ value.toInt < 0 then [45]
  else if flags.plus then [43] else if flags.space then [32] else []

theorem magnitude_lt (value : Word) (flags : Flags) : magnitude value flags < 2 ^ 32 :=
  BitVec.isLt _

def numberText (value : Word) (base : ℕ) (flags : Flags) : List UInt8 :=
  ((numeral base (magnitude value flags)).map (digit flags.up)).reverse

theorem exists_padding (n : ℤ) : ∃ k : ℕ, (if n < 0 then 0 else n) = (k : ℤ) ∧ (k : ℤ) = n ⊔ 0 := by
  refine ⟨n.toNat, ?_, Int.toNat_eq_max n⟩
  split <;> omega

theorem justify_eq (min max : ℤ) (flags : Flags) (sign digits : List UInt8) :
    ∃ left zeros right : ℕ,
      justify min max flags sign digits = List.replicate left 32 ++ sign ++
        List.replicate zeros 48 ++ digits ++ List.replicate right 32 ∧
      (-2 ^ 31 ≤ min - (max ⊔ digits.length) - sign.length →
        min - (max ⊔ digits.length) - sign.length < 2 ^ 31 →
        flags.zero = false ∨ max ≤ digits.length →
        ((justify min max flags sign digits).length : ℤ) =
          min ⊔ (sign.length + (max ⊔ digits.length))) := by
  have hlength : ∀ left zeros right : ℕ,
      (List.replicate left (32 : UInt8) ++ sign ++ List.replicate zeros 48 ++ digits ++
        List.replicate right 32).length = left + sign.length + zeros + digits.length + right := by
    intro left zeros right
    simp only [List.length_append, List.length_replicate]
  obtain ⟨z, hz, hzeros⟩ := exists_padding (max - digits.length)
  obtain ⟨w, hw, hblanks⟩ :=
    exists_padding ((min - (max ⊔ digits.length) - sign.length).bmod (2 ^ 32))
  unfold justify pad
  dsimp only
  rw [hz, hw]
  cases flags.zero <;> cases flags.minus
  all_goals
    refine ⟨_, _, _, rfl, fun hlow hhigh h => ?_⟩
    rw [Int.bmod_eq_of_le (by omega) (by omega)] at hblanks
    simp only [if_true, if_false, Bool.false_eq_true, hlength, Int.toNat_natCast, Int.toNat_zero]
  · push_cast
    omega
  · push_cast
    omega
  -- zeros take the place of the blanks, and the precision asks for none
  all_goals
    have hnone : z = 0 := by
      have hmax : max ≤ digits.length := h.resolve_left (by decide)
      omega
    rw [hnone, Nat.cast_zero, max_eq_right (Nat.cast_nonneg w), Int.toNat_natCast]
    push_cast
    omega

theorem fmtint_eq (hbase : 8 ≤ base) (value : Word) (min max : ℤ) (flags : Flags) :
    fmtint value base min max flags =
      justify min (max ⊔ 0) flags (signText value flags) (numberText value base flags) := by
  have hmagnitude := magnitude_lt value flags
  have hconvert : convertLoop flags.up base 20 (magnitude value flags) =
      (numeral base (magnitude value flags)).map (digit flags.up) := convertLoop_word hbase hmagnitude
  have hroom : (convertLoop flags.up base 20 (magnitude value flags)).length ≠ 20 :=
    (length_convertLoop_lt hbase hmagnitude).ne
  have hmax : (if max < 0 then 0 else max) = max ⊔ 0 := by
    split <;> omega
  change justify min (if max < 0 then 0 else max) flags (signText value flags)
    ((convertLoop flags.up base 20 (magnitude value flags)).take
      (if (convertLoop flags.up base 20 (magnitude value flags)).length = 20 then 19
        else (convertLoop flags.up base 20 (magnitude value flags)).length)).reverse = _
  rw [if_neg hroom, hmax, List.take_length, hconvert, numberText]

theorem readNumber_blanks (base k : ℕ) (rest : List UInt8) :
    readNumber base (List.replicate k 32 ++ rest) = readNumber base rest := by
  induction k with
  | zero => rfl
  | succ k ih => exact ih

theorem readNumber_of_digit {c : UInt8} {cs : List UInt8} (hc : (digitValue c).isSome) :
    readNumber base (c :: cs) = readDigits base 0 (c :: cs) := by
  have hblank : c ≠ 32 := by rintro rfl; exact absurd hc (by decide)
  have hminus : c ≠ 45 := by rintro rfl; exact absurd hc (by decide)
  have hplus : c ≠ 43 := by rintro rfl; exact absurd hc (by decide)
  unfold readNumber
  rw [List.dropWhile_cons_of_neg (by simpa using hblank)]
  split
  · rename_i h
    exact absurd (List.cons.inj h).1 hminus
  · rename_i h
    exact absurd (List.cons.inj h).1 hplus
  · rfl

theorem readDigits_text (h8 : 8 ≤ base) (h16 : base ≤ 16) (caps : Bool) (zeros n right : ℕ) :
    readDigits base 0 (List.replicate zeros 48 ++ (((numeral base n).map (digit caps)).reverse ++
      List.replicate right 32)) = n := by
  rw [readDigits_zeros, readDigits_numeral h16 (fun d hd => numeral_lt (by omega) hd),
    readDigits_blanks, ofDigits_numeral, Nat.zero_mul, Nat.zero_add]

theorem readNumber_text (h8 : 8 ≤ base) (h16 : base ≤ 16) (zeros n right : ℕ) :
    readNumber base (List.replicate zeros 48 ++ (((numeral base n).map (digit caps)).reverse ++
      List.replicate right 32)) = n := by
  have hread := readDigits_text h8 h16 caps zeros n right
  have hdigits : ∀ c ∈ List.replicate zeros 48 ++ ((numeral base n).map (digit caps)).reverse,
      (digitValue c).isSome := by
    intro c hc
    rcases List.mem_append.mp hc with hc | hc
    · rw [List.eq_of_mem_replicate hc]
      rfl
    · obtain ⟨d, hd, rfl⟩ := List.mem_map.mp (List.mem_reverse.mp hc)
      rw [digitValue_digit ((numeral_lt (by omega) hd).trans_le h16)]
      rfl
  rw [← List.append_assoc] at hread ⊢
  generalize htext : List.replicate zeros 48 ++ ((numeral base n).map (digit caps)).reverse = text
    at hread hdigits ⊢
  cases text with
  | nil =>
    have hlength := congrArg List.length htext
    have hpos := length_numeral_pos base n
    rw [List.length_append, List.length_reverse, List.length_map, List.length_nil] at hlength
    omega
  | cons c cs =>
    rw [List.cons_append] at hread ⊢
    rw [readNumber_of_digit (hdigits c List.mem_cons_self), hread]

def readValue (value : Word) (flags : Flags) : ℤ := if flags.unsigned then value.toNat else value.toInt

theorem magnitude_of_neg (h : ¬ flags.unsigned ∧ value.toInt < 0) :
    -(magnitude value flags : ℤ) = readValue value flags := by
  unfold magnitude readValue
  rw [if_pos h, if_neg h.1]
  have hneg := h.2
  rw [BitVec.toInt_eq_toNat_cond] at hneg ⊢
  rw [BitVec.toNat_neg]
  have := value.isLt
  split at hneg <;> omega

theorem magnitude_of_nonneg (h : ¬ (¬ flags.unsigned ∧ value.toInt < 0)) :
    (magnitude value flags : ℤ) = readValue value flags := by
  unfold magnitude readValue
  rw [if_neg h]
  split
  · rfl
  · rename_i hsigned
    have hnonneg : ¬ value.toInt < 0 := fun hneg => h ⟨hsigned, hneg⟩
    rw [BitVec.toInt_eq_toNat_cond] at hnonneg ⊢
    have := value.isLt
    split at hnonneg <;> omega

theorem readNumber_fmtint (h8 : 8 ≤ base) (h16 : base ≤ 16) (value : Word) (min max : ℤ)
    (flags : Flags) : readNumber base (fmtint value base min max flags) = readValue value flags := by
  obtain ⟨left, zeros, right, hlayout, -⟩ := justify_eq min (max ⊔ 0) flags
    (signText value flags) (numberText value base flags)
  rw [fmtint_eq h8, hlayout]
  simp only [List.append_assoc]
  rw [readNumber_blanks, numberText]
  by_cases hneg : ¬ flags.unsigned ∧ value.toInt < 0
  · have hsign : signText value flags = [45] := by rw [signText, if_neg hneg.1, if_pos hneg]
    rw [hsign, ← magnitude_of_neg hneg]
    exact congrArg (fun n : ℕ => -(n : ℤ)) (readDigits_text h8 h16 flags.up zeros _ right)
  · rw [← magnitude_of_nonneg hneg]
    have hsign : signText value flags = [] ∨ signText value flags = [43] ∨
        signText value flags = [32] := by
      unfold signText
      rw [if_neg hneg]
      split_ifs <;> simp
    rcases hsign with hsign | hsign | hsign <;> rw [hsign]
    · exact readNumber_text h8 h16 zeros _ right
    · exact congrArg Nat.cast (readDigits_text h8 h16 flags.up zeros _ right)
    · exact (readNumber_blanks base 1 _).trans (readNumber_text h8 h16 zeros _ right)

/-- No digit is cut off, as they all go into the buffer and a zero behind them. -/
theorem fmtint_reads (h8 : 8 ≤ base) (h16 : base ≤ 16) (value : Word) (min max : ℤ)
    (flags : Flags) :
    readNumber base (fmtint value base min max flags) = readValue value flags ∧
    (convertLoop flags.up base 20 (magnitude value flags)).length < 20 :=
  ⟨readNumber_fmtint h8 h16 value min max flags, length_convertLoop_lt h8 (magnitude_lt value flags)⟩

/-- `INT_MIN`, blanks to the left of its sign. -/
theorem fmtint_reads_smallest :
    readNumber 10 (fmtint 0x80000000 10 14 (-1) {}) = -2147483648 ∧
    (convertLoop false 10 20 (magnitude 0x80000000 {})).length < 20 :=
  fmtint_reads (by decide) (by decide) 0x80000000 14 (-1) {}

end OsShell.Format
