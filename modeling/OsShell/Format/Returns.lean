import OsShell.Format.Directives

/-!
# Any text

`dopr` comes to the end of every text, whether or not it consists of directives, and
reads nothing behind its zero, unless the text ends with a `w`: behind `%`, that one
takes the next character with it, and be it the zero.
-/

namespace OsShell.Format

open AddressSpace

/-- What is left of a text, with the zero at its end. -/
def Safe (format : List UInt8) : Prop :=
  ∃ text, format = text ++ [0] ∧ 0 ∉ text ∧ text.getLast? ≠ some 119

theorem Safe.ne_nil {format : List UInt8} (h : Safe format) : format ≠ [] := by
  obtain ⟨text, rfl, -⟩ := h
  exact append_ne_nil text (List.cons_ne_nil 0 [])

theorem Safe.tail {c : UInt8} {rest : List UInt8} (h : Safe (c :: rest)) (hc : c ≠ 0) :
    Safe rest := by
  obtain ⟨text, htext, hzero, hlast⟩ := h
  cases text with
  | nil => exact absurd (List.cons.inj htext).1 hc
  | cons d text =>
    obtain ⟨rfl, rfl⟩ := List.cons.inj htext
    refine ⟨text, rfl, fun h => hzero (List.mem_cons_of_mem c h), ?_⟩
    cases text with
    | nil => exact fun h => Option.some_ne_none _ h.symm
    | cons d text => rwa [List.getLast?_cons_cons] at hlast

theorem Safe.behind_w {rest : List UInt8} (h : Safe (119 :: rest)) :
    ∃ d rest', rest = d :: rest' ∧ d ≠ 0 := by
  obtain ⟨text, htext, hzero, hlast⟩ := h
  match text, htext, hzero, hlast with
  | [], htext, _, _ => exact absurd (List.cons.inj htext).1 (by decide)
  | [c], htext, _, hlast =>
    obtain ⟨rfl, -⟩ := List.cons.inj htext
    exact absurd rfl hlast
  | c :: d :: text, htext, hzero, _ =>
    have hrest : rest = d :: (text ++ [0]) := (List.cons.inj htext).2
    refine ⟨d, text ++ [0], hrest, fun h => hzero ?_⟩
    rw [h]
    exact List.mem_cons_of_mem c List.mem_cons_self

def ReadState.rank : ReadState → ℕ
  | flags => 6
  | min => 5
  | dot => 4
  | max => 3
  | mod => 2
  | conv => 1
  | default | done => 0

def work (state : ReadState) (format : List UInt8) : ℕ := 8 * format.length + state.rank

variable {env : Env} {p : Printed} {v : Conversion} {state : ReadState} {c : UInt8}
  {rest : List UInt8}

theorem work_cons (state state' : ReadState) (c : UInt8) (rest : List UInt8) :
    work state' rest < work state (c :: rest) := by
  have hrank : state'.rank ≤ 6 := by cases state' <;> decide
  rw [work, work, List.length_cons]
  omega

theorem work_of_rank {state state' : ReadState} (h : state'.rank < state.rank)
    (format : List UInt8) : work state' format < work state format := by
  unfold work
  omega

theorem round_w (hroom : p.out.length < env.maxlen) (hrest : rest ≠ []) :
    round env ⟨p, v, .conv, 119 :: c :: rest⟩ = some ⟨p, {}, .default, rest⟩ := by
  unfold round
  rw [if_neg (round_live (by decide) hroom)]
  exact (congrArg (Option.bind · _) (advance_cons (List.cons_ne_nil c rest))).trans
    (advance_cons hrest)

theorem progress (hroom : p.out.length < env.maxlen) (hc : c ≠ 0) (hstate : state ≠ .done)
    (hsafe : Safe (c :: rest)) :
    ∃ p' v' state' format', round env ⟨p, v, state, c :: rest⟩ = some ⟨p', v', state', format'⟩ ∧
      state' ≠ .done ∧ Safe format' ∧ work state' format' < work state (c :: rest) := by
  have htail := hsafe.tail hc
  have hrest := htail.ne_nil
  cases state with
  | default =>
    by_cases hpercent : c = 37
    · rw [hpercent]
      exact ⟨_, _, _, _, round_percent hroom hrest, by decide, htail, work_cons _ _ _ _⟩
    · exact ⟨_, _, _, _, round_char hroom hrest hc hpercent, by decide, htail, work_cons _ _ _ _⟩
  | flags =>
    by_cases hflag : ∃ f : Flag, c = f.char
    · obtain ⟨f, rfl⟩ := hflag
      exact ⟨_, _, _, _, round_flag hroom hrest f, by decide, htail, work_cons _ _ _ _⟩
    · exact ⟨_, _, _, _, round_flags_end hroom hc (not_exists.mp hflag), by decide, hsafe,
        work_of_rank (by decide) _⟩
  | min =>
    by_cases hdigit : isdigit c
    · exact ⟨_, _, _, _, round_min_digit hroom hrest hdigit, by decide, htail, work_cons _ _ _ _⟩
    by_cases hstar : c = 42
    · rw [hstar]
      exact ⟨_, _, _, _, round_min_star hroom hrest, by decide, htail, work_cons _ _ _ _⟩
    · exact ⟨_, _, _, _, round_min_end hroom hc hdigit hstar, by decide, hsafe,
        work_of_rank (by decide) _⟩
  | dot =>
    by_cases hdot : c = 46
    · rw [hdot]
      exact ⟨_, _, _, _, round_dot hroom hrest, by decide, htail, work_cons _ _ _ _⟩
    · exact ⟨_, _, _, _, round_dot_end hroom hc hdot, by decide, hsafe, work_of_rank (by decide) _⟩
  | max =>
    by_cases hdigit : isdigit c
    · exact ⟨_, _, _, _, round_max_digit hroom hrest hdigit, by decide, htail, work_cons _ _ _ _⟩
    by_cases hstar : c = 42
    · rw [hstar]
      exact ⟨_, _, _, _, round_max_star hroom hrest, by decide, htail, work_cons _ _ _ _⟩
    · exact ⟨_, _, _, _, round_max_end hroom hc hdigit hstar, by decide, hsafe,
        work_of_rank (by decide) _⟩
  | mod =>
    by_cases hsize : ∃ m : Modifier, m ≠ .none ∧ [c] = m.text
    · obtain ⟨m, hm, htext⟩ := hsize
      rw [← List.singleton_append, htext]
      refine ⟨_, _, _, _, round_size hroom hrest hm, by decide, htail, ?_⟩
      rw [← htext]
      exact work_cons _ _ _ _
    · refine ⟨_, _, _, _, round_size_end hroom hc ?_, by decide, hsafe, work_of_rank (by decide) _⟩
      rintro (rfl | rfl | rfl)
      · exact hsize ⟨.short, by decide, rfl⟩
      · exact hsize ⟨.long, by decide, rfl⟩
      · exact hsize ⟨.ldouble, by decide, rfl⟩
  | conv =>
    by_cases hw : c = 119
    · subst hw
      obtain ⟨d, rest, rfl, hd⟩ := hsafe.behind_w
      have hbehind := htail.tail hd
      exact ⟨_, _, _, _, round_w hroom hbehind.ne_nil, by decide, hbehind,
        (work_cons .default .default d rest).trans (work_cons _ _ _ _)⟩
    · exact ⟨_, _, _, _, round_conv hroom hrest hc hw, by decide, htail, work_cons _ _ _ _⟩
  | done => exact absurd rfl hstate

/-- Whatever the text, `dopr` comes back and reads nothing behind it, but for a `w` at its end. -/
theorem dopr_returns (env : Env) {text : List UInt8} (hzero : 0 ∉ text)
    (hlast : text.getLast? ≠ some 119) (args : ℕ → Word) :
    ∃ k p, ∀ fuel, dopr env (fuel + k) (text ++ [0]) args = some p := by
  have hloop : ∀ (n : ℕ) (p : Printed) (v : Conversion) (state : ReadState) (format : List UInt8),
      work state format = n → state ≠ .done → Safe format →
        ∃ k q, ∀ fuel, doprLoop env (fuel + k) ⟨p, v, state, format⟩ = some q := by
    intro n
    induction n using Nat.strong_induction_on with
    | _ n ih =>
      intro p v state format hwork hstate hsafe
      by_cases hend : (⟨p, v, state, format⟩ : Dopr).ch = 0 ∨ env.maxlen ≤ p.out.length
      · exact ⟨2, p, doprLoop_stops hstate hend⟩
      · obtain ⟨c, rest, rfl⟩ := List.exists_cons_of_ne_nil hsafe.ne_nil
        have hc : c ≠ 0 := fun h => hend (.inl h)
        have hroom : p.out.length < env.maxlen := Nat.not_le.mp fun h => hend (.inr h)
        obtain ⟨p', v', state', format', hround, hstate', hsafe', hless⟩ :=
          progress (v := v) hroom hc hstate hsafe
        obtain ⟨j, hj⟩ := Goes.round hstate hround
        obtain ⟨k, q, hk⟩ := ih _ (hwork ▸ hless) p' v' state' format' rfl hstate' hsafe'
        exact ⟨k + j, q, fun fuel => by rw [← Nat.add_assoc, hj, hk]⟩
  exact hloop _ _ _ _ _ rfl (by decide) ⟨text, rfl, hzero, hlast⟩

def noStrings : Env := ⟨1000, fun _ => [], fun _ _ _ _ => []⟩

/-- A directive that the text breaks off. -/
theorem dopr_returns_broken : ∃ k p, ∀ fuel,
    dopr noStrings (fuel + k) ([37, 45, 56, 46] ++ [0]) (fun _ => 0) = some p :=
  dopr_returns noStrings (by decide) (by decide) fun _ => 0

end OsShell.Format
