import OsShell.Format.Numbers

/-!
# Directives

A format is written down as pieces: characters, and directives with their flags,
width, precision and size. `dopr` goes through the text in eight states, one
character at a time, and prints what the pieces mean, one after the other, until
there is no room.
-/

namespace OsShell.Format

open AddressSpace

inductive Flag
  | minus
  | plus
  | space
  | num
  | zero

def Flag.char : Flag → UInt8
  | minus => 45
  | plus => 43
  | space => 32
  | num => 35
  | zero => 48

def Flag.set (flags : Flags) : Flag → Flags
  | minus => { flags with minus := true }
  | plus => { flags with plus := true }
  | space => { flags with space := true }
  | num => { flags with num := true }
  | zero => { flags with zero := true }

/-- A width or a precision: in digits, or the next argument. -/
inductive Amount
  | unset
  | number (n : ℕ) (h : n < 2 ^ 31)
  | star

def Amount.text : Amount → List UInt8
  | unset => []
  | number n _ => ((numeral 10 n).map (digit false)).reverse
  | star => [42]

def Amount.value (start : ℤ) : Amount → Printed → ℤ × Printed
  | unset, p => (start, p)
  | number n _, p => (n, p)
  | star, p => ((p.args 0).toInt, p.drop 1)

def Modifier.text : Modifier → List UInt8
  | none => []
  | short => [104]
  | long => [108]
  | ldouble => [76]

def Plain (c : UInt8) : Prop := c ≠ 0 ∧ ¬ isdigit c ∧ c ∉ [42, 45, 43, 32, 35]

instance (c : UInt8) : Decidable (Plain c) := inferInstanceAs (Decidable (_ ∧ _))

structure Directive where
  flags : List Flag
  min : Amount
  /-- A width begins with a digit other than zero, which would be a flag. -/
  width : ∀ n h, min = .number n h → 0 < n
  /-- what stands behind the dot -/
  max : Option Amount
  cflags : Modifier
  letter : UInt8
  /-- `w` takes the next character with it. -/
  isLetter : Plain letter ∧ letter ∉ [46, 104, 108, 76, 119]

def Directive.precision (d : Directive) : List UInt8 :=
  match d.max with
  | none => []
  | some max => 46 :: max.text

def Directive.text (d : Directive) : List UInt8 :=
  37 :: (d.flags.map Flag.char ++ (d.min.text ++ (d.precision ++ (d.cflags.text ++ [d.letter]))))

def Directive.meaning (env : Env) (d : Directive) (p : Printed) : Printed :=
  let min := d.min.value 0 p
  let max := (d.max.getD .unset).value (-1) min.2
  convert env ⟨d.flags.foldl Flag.set {}, d.cflags, min.1, max.1⟩ d.letter max.2

inductive Piece
  | char (c : UInt8) (h : c ≠ 0 ∧ c ≠ 37)
  | directive (d : Directive)

def Piece.text : Piece → List UInt8
  | char c _ => [c]
  | directive d => d.text

def Piece.meaning (env : Env) (p : Printed) : Piece → Printed
  | char c _ => p.put [c]
  | directive d => d.meaning env p

/-- The pieces one after the other; those for which there is no room are left out. -/
def meaning (env : Env) : List Piece → Printed → Printed
  | [], p => p
  | x :: xs, p => if env.maxlen ≤ p.out.length then p else meaning env xs (x.meaning env p)

/-! ## A round in each of the states -/

variable {env : Env} {p : Printed} {v : Conversion} {state : ReadState} {c : UInt8}
  {rest : List UInt8}

theorem advance_cons (hrest : rest ≠ []) :
    (⟨p, v, state, c :: rest⟩ : Dopr).advance = some ⟨p, v, state, rest⟩ := by
  cases rest with
  | nil => exact absurd rfl hrest
  | cons d rest => rfl

theorem round_live (hc : c ≠ 0) (hroom : p.out.length < env.maxlen) :
    ¬ ((⟨p, v, state, c :: rest⟩ : Dopr).ch = 0 ∨
      env.maxlen ≤ (⟨p, v, state, c :: rest⟩ : Dopr).out.length) := by
  rintro (h | h)
  · exact hc h
  · exact absurd hroom (Nat.not_lt.mpr h)

theorem live_of_isdigit (h : isdigit c) : c ≠ 0 := by
  rintro rfl
  exact absurd h (by decide)

section Rounds

variable (hroom : p.out.length < env.maxlen) (hrest : rest ≠ [])

include hroom

include hrest in
theorem round_char (hc : c ≠ 0) (hpercent : c ≠ 37) :
    round env ⟨p, v, .default, c :: rest⟩ = some ⟨p.put [c], v, .default, rest⟩ := by
  unfold round
  rw [if_neg (round_live hc hroom)]
  exact (if_neg hpercent).trans (advance_cons hrest)

include hrest in
theorem round_percent :
    round env ⟨p, v, .default, 37 :: rest⟩ = some ⟨p, v, .flags, rest⟩ := by
  unfold round
  rw [if_neg (round_live (by decide) hroom)]
  exact advance_cons hrest

include hrest in
theorem round_flag (f : Flag) :
    round env ⟨p, v, .flags, f.char :: rest⟩ =
      some ⟨p, { v with flags := f.set v.flags }, .flags, rest⟩ := by
  unfold round
  rw [if_neg (round_live (by cases f <;> decide) hroom)]
  cases f <;> exact advance_cons hrest

theorem round_flags_end (hc : c ≠ 0) (hflag : ∀ f : Flag, c ≠ f.char) :
    round env ⟨p, v, .flags, c :: rest⟩ = some ⟨p, v, .min, c :: rest⟩ := by
  unfold round
  rw [if_neg (round_live hc hroom)]
  dsimp only [Dopr.ch, List.headD_cons]
  split
  · exact absurd rfl (hflag .minus)
  · exact absurd rfl (hflag .plus)
  · exact absurd rfl (hflag .space)
  · exact absurd rfl (hflag .num)
  · exact absurd rfl (hflag .zero)
  · rfl

include hrest in
theorem round_min_digit (h : isdigit c) :
    round env ⟨p, v, .min, c :: rest⟩ =
      some ⟨p, { v with min := appendDigit v.min c }, .min, rest⟩ := by
  unfold round
  rw [if_neg (round_live (live_of_isdigit h) hroom)]
  exact (if_pos h).trans (advance_cons hrest)

include hrest in
theorem round_min_star :
    round env ⟨p, v, .min, 42 :: rest⟩ =
      some ⟨p.drop 1, { v with min := (p.args 0).toInt }, .dot, rest⟩ := by
  unfold round
  rw [if_neg (round_live (by decide) hroom)]
  exact advance_cons hrest

theorem round_min_end (hc : c ≠ 0) (hdigit : ¬ isdigit c) (hstar : c ≠ 42) :
    round env ⟨p, v, .min, c :: rest⟩ = some ⟨p, v, .dot, c :: rest⟩ := by
  unfold round
  rw [if_neg (round_live hc hroom)]
  exact (if_neg hdigit).trans (if_neg hstar)

include hrest in
theorem round_dot :
    round env ⟨p, v, .dot, 46 :: rest⟩ = some ⟨p, v, .max, rest⟩ := by
  unfold round
  rw [if_neg (round_live (by decide) hroom)]
  exact advance_cons hrest

theorem round_dot_end (hc : c ≠ 0) (hdot : c ≠ 46) :
    round env ⟨p, v, .dot, c :: rest⟩ = some ⟨p, v, .mod, c :: rest⟩ := by
  unfold round
  rw [if_neg (round_live hc hroom)]
  exact if_neg hdot

include hrest in
theorem round_max_digit (h : isdigit c) :
    round env ⟨p, v, .max, c :: rest⟩ =
      some ⟨p, { v with max := appendDigit (if v.max < 0 then 0 else v.max) c }, .max, rest⟩ := by
  unfold round
  rw [if_neg (round_live (live_of_isdigit h) hroom)]
  exact (if_pos h).trans (advance_cons hrest)

include hrest in
theorem round_max_star :
    round env ⟨p, v, .max, 42 :: rest⟩ =
      some ⟨p.drop 1, { v with max := (p.args 0).toInt }, .mod, rest⟩ := by
  unfold round
  rw [if_neg (round_live (by decide) hroom)]
  exact advance_cons hrest

theorem round_max_end (hc : c ≠ 0) (hdigit : ¬ isdigit c) (hstar : c ≠ 42) :
    round env ⟨p, v, .max, c :: rest⟩ = some ⟨p, v, .mod, c :: rest⟩ := by
  unfold round
  rw [if_neg (round_live hc hroom)]
  exact (if_neg hdigit).trans (if_neg hstar)

include hrest in
theorem round_size {m : Modifier} (hm : m ≠ .none) :
    round env ⟨p, v, .mod, m.text ++ rest⟩ = some ⟨p, { v with cflags := m }, .conv, rest⟩ := by
  cases m with
  | none => exact absurd rfl hm
  | short | long | ldouble =>
    unfold Modifier.text round
    rw [List.singleton_append, if_neg (round_live (by decide) hroom)]
    exact advance_cons hrest

theorem round_size_end (hc : c ≠ 0) (hsize : ¬ (c = 104 ∨ c = 108 ∨ c = 76)) :
    round env ⟨p, v, .mod, c :: rest⟩ = some ⟨p, v, .conv, c :: rest⟩ := by
  unfold round
  rw [if_neg (round_live hc hroom)]
  dsimp only [Dopr.ch, List.headD_cons]
  split
  · exact absurd (.inl rfl) hsize
  · exact absurd (.inr (.inl rfl)) hsize
  · exact absurd (.inr (.inr rfl)) hsize
  · rfl

include hrest in
theorem round_conv (hc : c ≠ 0) (hw : c ≠ 119) :
    round env ⟨p, v, .conv, c :: rest⟩ = some ⟨convert env v c p, {}, .default, rest⟩ := by
  unfold round
  rw [if_neg (round_live hc hroom)]
  exact (congrArg (Option.bind · _) (if_neg hw)).trans (advance_cons hrest)

end Rounds

/-! ## From state to state -/

def Goes (env : Env) (s t : Dopr) : Prop :=
  ∃ k, ∀ fuel, doprLoop env (fuel + k) s = doprLoop env fuel t

theorem Goes.refl (s : Dopr) : Goes env s s := ⟨0, fun _ => rfl⟩

theorem Goes.trans {s t u : Dopr} (h : Goes env s t) (h' : Goes env t u) : Goes env s u := by
  obtain ⟨j, hj⟩ := h
  obtain ⟨k, hk⟩ := h'
  refine ⟨k + j, fun fuel => ?_⟩
  rw [← Nat.add_assoc, hj, hk]

theorem Goes.round {t : Dopr} (hstate : state ≠ .done)
    (h : round env ⟨p, v, state, rest⟩ = some t) : Goes env ⟨p, v, state, rest⟩ t := by
  refine ⟨1, fun fuel => ?_⟩
  rw [doprLoop, if_neg (by exact hstate), h]
  rfl

theorem append_ne_nil (cs : List UInt8) (hrest : rest ≠ []) : cs ++ rest ≠ [] :=
  fun h => hrest (List.append_eq_nil_iff.mp h).2

theorem goes_flags (hroom : p.out.length < env.maxlen) (hrest : rest ≠ []) (fs : List Flag)
    (v : Conversion) :
    Goes env ⟨p, v, .flags, fs.map Flag.char ++ rest⟩
      ⟨p, { v with flags := fs.foldl Flag.set v.flags }, .flags, rest⟩ := by
  induction fs generalizing v with
  | nil => exact .refl _
  | cons f fs ih =>
    exact (Goes.round (by decide) (round_flag hroom (append_ne_nil _ hrest) f)).trans (ih _)

/-! ## Amounts -/

theorem isdigit_digit {d : ℕ} (hd : d < 10) : isdigit (digit false d) := by
  have hall : ∀ d : Fin 10, isdigit (digit false d.val) := by decide
  exact hall ⟨d, hd⟩

theorem appendDigit_digit {m d : ℕ} (hd : d < 10) (h : d + 10 * m < 2 ^ 31) :
    appendDigit m (digit false d) = (d + 10 * m : ℕ) := by
  have hall : ∀ d : Fin 10, (digit false d.val).toNat = 48 + d.val := by decide
  have hvalue : (10 * (m : ℤ) + (((digit false d).toNat : ℤ) - 48)) = (d + 10 * m : ℕ) := by
    rw [hall ⟨d, hd⟩]
    push_cast
    ring
  rw [appendDigit, hvalue]
  exact Int.bmod_eq_of_le (by omega) (by omega)

theorem foldl_number {f : ℤ → UInt8 → ℤ} {start : ℤ} (hstart : ∀ c, f start c = appendDigit 0 c)
    (hf : ∀ (m : ℕ) c, f m c = appendDigit m c) {n : ℕ} (hn : n < 2 ^ 31) :
    (Amount.number n hn).text.foldl f start = n := by
  have hdigits : ∀ ds : List ℕ, ds ≠ [] → (∀ d ∈ ds, d < 10) → Nat.ofDigits 10 ds < 2 ^ 31 →
      ((ds.map (digit false)).reverse).foldl f start = (Nat.ofDigits 10 ds : ℕ) := by
    intro ds
    induction ds with
    | nil => exact fun h => absurd rfl h
    | cons d ds ih =>
      intro _ hlt hvalue
      have hd := hlt d List.mem_cons_self
      rw [Nat.ofDigits_cons] at hvalue ⊢
      rw [List.map_cons, List.reverse_cons, List.foldl_append, List.foldl_cons, List.foldl_nil]
      cases ds with
      | nil =>
        rw [Nat.ofDigits_nil] at hvalue ⊢
        rw [List.map_nil, List.reverse_nil, List.foldl_nil, hstart]
        exact appendDigit_digit hd hvalue
      | cons e es =>
        rw [ih (List.cons_ne_nil e es) (fun x hx => hlt x (List.mem_cons_of_mem d hx)) (by omega), hf]
        exact appendDigit_digit hd hvalue
  have hne : numeral 10 n ≠ [] := List.ne_nil_of_length_pos (length_numeral_pos 10 n)
  have h := hdigits (numeral 10 n) hne (fun d hd => numeral_lt (by decide) hd)
    (by rwa [ofDigits_numeral])
  rwa [ofDigits_numeral] at h

theorem value_out (a : Amount) (start : ℤ) (p : Printed) : (a.value start p).2.out = p.out := by
  cases a <;> rfl

section Amounts

variable {next : ReadState} {set : ℤ → Conversion} {f : ℤ → UInt8 → ℤ} {start : ℤ}

theorem goes_digits (hstate : state ≠ .done) (hrest : rest ≠ [])
    (hdigit : ∀ m c rest, rest ≠ [] → isdigit c →
      round env ⟨p, set m, state, c :: rest⟩ = some ⟨p, set (f m c), state, rest⟩)
    {cs : List UInt8} (hcs : ∀ c ∈ cs, isdigit c) (m : ℤ) :
    Goes env ⟨p, set m, state, cs ++ rest⟩ ⟨p, set (cs.foldl f m), state, rest⟩ := by
  induction cs generalizing m with
  | nil => exact .refl _
  | cons c cs ih =>
    have hround := hdigit m c (cs ++ rest) (append_ne_nil cs hrest) (hcs c List.mem_cons_self)
    exact (Goes.round hstate hround).trans
      (ih (fun x hx => hcs x (List.mem_cons_of_mem c hx)) (f m c))

theorem goes_amount (set : ℤ → Conversion) (a : Amount) (hstate : state ≠ .done) (hc : Plain c)
    (hdigit : ∀ m c rest, rest ≠ [] → isdigit c →
      round env ⟨p, set m, state, c :: rest⟩ = some ⟨p, set (f m c), state, rest⟩)
    (hstar : ∀ m rest, rest ≠ [] →
      round env ⟨p, set m, state, 42 :: rest⟩ = some ⟨p.drop 1, set (p.args 0).toInt, next, rest⟩)
    (hend : ∀ m c rest, c ≠ 0 → ¬ isdigit c → c ≠ 42 →
      round env ⟨p, set m, state, c :: rest⟩ = some ⟨p, set m, next, c :: rest⟩)
    (hstart : ∀ c, f start c = appendDigit 0 c) (hf : ∀ (m : ℕ) c, f m c = appendDigit m c) :
    Goes env ⟨p, set start, state, a.text ++ c :: rest⟩
      ⟨(a.value start p).2, set (a.value start p).1, next, c :: rest⟩ := by
  have hstop : ∀ m, Goes env ⟨p, set m, state, c :: rest⟩ ⟨p, set m, next, c :: rest⟩ := by
    intro m
    refine .round hstate (hend m c rest hc.1 hc.2.1 ?_)
    rintro rfl
    exact absurd hc (by decide)
  cases a with
  | unset => exact hstop start
  | number n hn =>
    have hdigits : ∀ x ∈ (Amount.number n hn).text, isdigit x := by
      intro x hx
      obtain ⟨d, hd, rfl⟩ := List.mem_map.mp (List.mem_reverse.mp hx)
      exact isdigit_digit (numeral_lt (by decide) hd)
    have hgoes := goes_digits hstate (List.cons_ne_nil c rest) hdigit hdigits start
    rw [foldl_number hstart hf hn] at hgoes
    exact hgoes.trans (hstop n)
  | star => exact .round hstate (hstar start _ (List.cons_ne_nil c rest))

end Amounts

theorem goes_min (hroom : p.out.length < env.maxlen) (hc : Plain c) (a : Amount) (flags : Flags)
    (cflags : Modifier) (max : ℤ) :
    Goes env ⟨p, ⟨flags, cflags, 0, max⟩, .min, a.text ++ c :: rest⟩
      ⟨(a.value 0 p).2, ⟨flags, cflags, (a.value 0 p).1, max⟩, .dot, c :: rest⟩ :=
  goes_amount (fun m => ⟨flags, cflags, m, max⟩) a (by decide) hc
    (fun _ _ _ hrest h => round_min_digit hroom hrest h)
    (fun _ _ hrest => round_min_star hroom hrest)
    (fun _ _ _ hc hdigit hstar => round_min_end hroom hc hdigit hstar)
    (fun _ => rfl) (fun _ _ => rfl)

theorem goes_max (hroom : p.out.length < env.maxlen) (hc : Plain c) (a : Amount) (flags : Flags)
    (cflags : Modifier) (min : ℤ) :
    Goes env ⟨p, ⟨flags, cflags, min, -1⟩, .max, a.text ++ c :: rest⟩
      ⟨(a.value (-1) p).2, ⟨flags, cflags, min, (a.value (-1) p).1⟩, .mod, c :: rest⟩ :=
  goes_amount (fun m => ⟨flags, cflags, min, m⟩) a (by decide) hc
    (fun _ _ _ hrest h => round_max_digit hroom hrest h)
    (fun _ _ hrest => round_max_star hroom hrest)
    (fun _ _ _ hc hdigit hstar => round_max_end hroom hc hdigit hstar)
    (fun _ => rfl) (fun m _ => by rw [if_neg (Int.natCast_nonneg m).not_gt])

/-! ## Directives and pieces -/

theorem size_opens (d : Directive) (rest : List UInt8) :
    ∃ c r, d.cflags.text ++ d.letter :: rest = c :: r ∧ Plain c ∧ c ≠ 46 := by
  cases d.cflags with
  | none =>
    refine ⟨d.letter, rest, rfl, d.isLetter.1, fun h => d.isLetter.2 ?_⟩
    rw [h]
    decide
  | short | long | ldouble => exact ⟨_, _, rfl, by decide⟩

theorem precision_opens (d : Directive) (rest : List UInt8) :
    ∃ c r, d.precision ++ (d.cflags.text ++ d.letter :: rest) = c :: r ∧ Plain c := by
  unfold Directive.precision
  cases d.max with
  | none =>
    obtain ⟨c, r, h, hc, -⟩ := size_opens d rest
    exact ⟨c, r, h, hc⟩
  | some max => exact ⟨46, _, rfl, by decide⟩

theorem width_opens {n : ℕ} (hn : n < 2 ^ 31) (hpos : 0 < n) :
    ∃ c r, (Amount.number n hn).text = c :: r ∧ c ≠ 0 ∧ ∀ f : Flag, c ≠ f.char := by
  have hne : Nat.digits 10 n ≠ [] := Nat.digits_ne_nil_iff_ne_zero.mpr hpos.ne'
  have hlast := Nat.getLast_digit_ne_zero 10 hpos.ne'
  have hlt : (Nat.digits 10 n).getLast hne < 10 :=
    Nat.digits_lt_base (by decide) (List.getLast_mem hne)
  have hall : ∀ d : Fin 10, d.val ≠ 0 → digit false d.val ≠ 0 ∧
      digit false d.val ∉ [45, 43, 32, 35, 48] := by decide
  obtain ⟨hzero, hflag⟩ := hall ⟨_, hlt⟩ hlast
  refine ⟨digit false ((Nat.digits 10 n).getLast hne),
    (((Nat.digits 10 n).dropLast).map (digit false)).reverse, ?_, hzero, ?_⟩
  · conv_lhs => rw [Amount.text, numeral, if_neg hpos.ne', ← List.dropLast_append_getLast hne]
    rw [List.map_append, List.reverse_append, List.map_singleton, List.reverse_singleton,
      List.singleton_append]
  · rintro f h
    rw [h] at hflag
    cases f <;> exact hflag (by decide)

theorem flags_end (d : Directive) {c : UInt8} (hc : Plain c) (rest : List UInt8) :
    ∃ x r, d.min.text ++ c :: rest = x :: r ∧ x ≠ 0 ∧ ∀ f : Flag, x ≠ f.char := by
  have hplain : ∀ f : Flag, c ≠ f.char := by
    rintro f rfl
    cases f <;> exact absurd hc (by decide)
  cases h : d.min with
  | unset => exact ⟨c, rest, rfl, hc.1, hplain⟩
  | number n hn =>
    obtain ⟨x, r, htext, hx⟩ := width_opens hn (d.width n hn h)
    exact ⟨x, r ++ c :: rest, by rw [htext, List.cons_append], hx⟩
  | star => exact ⟨42, c :: rest, rfl, by decide, by rintro (_ | _) <;> decide⟩

theorem goes_size (hroom : p.out.length < env.maxlen) (d : Directive) (flags : Flags)
    (min max : ℤ) :
    Goes env ⟨p, ⟨flags, .none, min, max⟩, .mod, d.cflags.text ++ d.letter :: rest⟩
      ⟨p, ⟨flags, d.cflags, min, max⟩, .conv, d.letter :: rest⟩ := by
  by_cases hm : d.cflags = .none
  · rw [hm]
    refine .round (by decide) (round_size_end hroom d.isLetter.1.1 fun h => d.isLetter.2 ?_)
    rcases h with h | h | h <;> rw [h] <;> decide
  · exact .round (by decide) (round_size hroom (List.cons_ne_nil _ _) hm)

theorem goes_precision (hroom : p.out.length < env.maxlen) (d : Directive) (rest : List UInt8)
    (flags : Flags) (min : ℤ) :
    Goes env ⟨p, ⟨flags, .none, min, -1⟩, .dot,
        d.precision ++ (d.cflags.text ++ d.letter :: rest)⟩
      ⟨((d.max.getD .unset).value (-1) p).2,
        ⟨flags, .none, min, ((d.max.getD .unset).value (-1) p).1⟩, .mod,
        d.cflags.text ++ d.letter :: rest⟩ := by
  obtain ⟨c, r, hopens, hc, hdot⟩ := size_opens d rest
  rw [hopens]
  unfold Directive.precision
  cases d.max with
  | none => exact .round (by decide) (round_dot_end hroom hc.1 hdot)
  | some max =>
    exact (Goes.round (by decide) (round_dot hroom (append_ne_nil _ (List.cons_ne_nil c r)))).trans
      (goes_max hroom hc max flags .none min)

theorem goes_directive (hroom : p.out.length < env.maxlen) (hrest : rest ≠ []) (d : Directive) :
    Goes env ⟨p, {}, .default, d.text ++ rest⟩ ⟨d.meaning env p, {}, .default, rest⟩ := by
  obtain ⟨c, r, hprecision, hc⟩ := precision_opens d rest
  obtain ⟨x, r', hmin, hx, hflag⟩ := flags_end d hc r
  have htext : d.text ++ rest = 37 :: (d.flags.map Flag.char ++ (d.min.text ++ (d.precision ++
      (d.cflags.text ++ d.letter :: rest)))) := by
    simp [Directive.text]
  have hroomMin : (d.min.value 0 p).2.out.length < env.maxlen := by rwa [value_out]
  have hroomMax : ((d.max.getD .unset).value (-1) (d.min.value 0 p).2).2.out.length <
      env.maxlen := by rwa [value_out]
  rw [htext, hprecision, hmin]
  refine (Goes.round (by decide) (round_percent hroom
    (append_ne_nil _ (List.cons_ne_nil x r')))).trans ?_
  refine (goes_flags hroom (List.cons_ne_nil x r') d.flags {}).trans ?_
  refine (Goes.round (by decide) (round_flags_end hroom hx hflag)).trans ?_
  rw [← hmin]
  refine (goes_min hroom hc d.min _ .none (-1)).trans ?_
  rw [← hprecision]
  refine (goes_precision hroomMin d rest _ _).trans ?_
  refine (goes_size hroomMax d _ _ _).trans ?_
  refine .round (by decide) (round_conv hroomMax hrest d.isLetter.1.1 fun h => d.isLetter.2 ?_)
  rw [h]
  decide

theorem goes_piece (hroom : p.out.length < env.maxlen) (hrest : rest ≠ []) (x : Piece) :
    Goes env ⟨p, {}, .default, x.text ++ rest⟩ ⟨x.meaning env p, {}, .default, rest⟩ := by
  cases x with
  | char c h => exact .round (by decide) (round_char hroom hrest h.1 h.2)
  | directive d => exact goes_directive hroom hrest d

theorem doprLoop_stops (hstate : state ≠ .done) {text : List UInt8}
    (h : (⟨p, v, state, text⟩ : Dopr).ch = 0 ∨ env.maxlen ≤ p.out.length) (fuel : ℕ) :
    doprLoop env (fuel + 2) ⟨p, v, state, text⟩ = some p := by
  have hround : round env ⟨p, v, state, text⟩ = some ⟨p, v, .done, text⟩ := by
    unfold round
    rw [if_pos h]
    rfl
  rw [doprLoop, if_neg (by exact hstate), hround, Option.bind_some, doprLoop]
  exact if_pos rfl

theorem doprLoop_pieces (env : Env) (xs : List Piece) (p : Printed) : ∃ k, ∀ fuel,
    doprLoop env (fuel + k) ⟨p, {}, .default, xs.flatMap Piece.text ++ [0]⟩ =
      some (meaning env xs p) := by
  induction xs generalizing p with
  | nil => exact ⟨2, doprLoop_stops (by decide) (.inl rfl)⟩
  | cons x xs ih =>
    rw [List.flatMap_cons, List.append_assoc, meaning]
    by_cases hroom : env.maxlen ≤ p.out.length
    · rw [if_pos hroom]
      exact ⟨2, doprLoop_stops (by decide) (.inr hroom)⟩
    · rw [if_neg hroom]
      obtain ⟨j, hj⟩ := goes_piece (Nat.not_le.mp hroom)
        (append_ne_nil (xs.flatMap Piece.text) (List.cons_ne_nil 0 [])) x
      obtain ⟨k, hk⟩ := ih (x.meaning env p)
      exact ⟨k + j, fun fuel => by rw [← Nat.add_assoc, hj, hk]⟩

/-- Whatever the pieces, the arguments and the room: `dopr` comes back, it has read the text up to its
end at most, and it has printed what the pieces mean. -/
theorem dopr_meaning (env : Env) (xs : List Piece) (args : ℕ → Word) :
    ∃ k, ∀ fuel, dopr env (fuel + k) (xs.flatMap Piece.text ++ [0]) args =
      some (meaning env xs ⟨[], [], args⟩) :=
  doprLoop_pieces env xs _

end OsShell.Format
