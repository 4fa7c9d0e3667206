import OsShell.Programs.Input

/-!
# Logging in

The table of users has room for four, and three are written down: the last entry is zero
throughout, which are two empty strings. A name and a password that have been typed are
compared with those of each entry in turn.
-/

namespace OsShell.Programs

open Bytes

def maxCharLimit : ℕ := 20
def maxUsers : ℕ := 4

structure User where
  username : Buffer
  password : Buffer

/-- An array that is initialised with a text has zeros behind it. -/
def charArray (text : List UInt8) : Buffer := fun i => text.getD i 0

def User.ofTexts (a : List UInt8 × List UInt8) : User := ⟨charArray a.1, charArray a.2⟩

/-- The accounts in the initialiser. -/
def accounts : List (List UInt8 × List UInt8) :=
  [(chars "bob", chars "bob"), (chars "urmom", chars "urmomdotcom"),
    (chars "test", chars "test123")]

/-- The entries that the initialiser leaves out. -/
def others : List (List UInt8 × List UInt8) :=
  List.replicate (maxUsers - accounts.length) ([], [])

def users : List User := (accounts ++ others).map User.ofTexts

/-- `none` when the rounds do not suffice. -/
def myStrcmp (s1 s2 : Buffer) : ℕ → ℕ → Option ℤ
  | 0, _ => none
  | rounds + 1, i =>
    if s1 i ≠ 0 ∧ s1 i = s2 i then myStrcmp s1 s2 rounds (i + 1)
    else some ((s1 i).toNat - (s2 i).toNat)

/-- The loop of `login`. The password is compared only if the name is the same. -/
def loginLoop (rounds : ℕ) (username password : Buffer) : List User → Option ℤ
  | [] => some 0
  | u :: users =>
    (myStrcmp u.username username rounds 0).bind fun d =>
      if d ≠ 0 then loginLoop rounds username password users
      else
        (myStrcmp u.password password rounds 0).bind fun d =>
          if d ≠ 0 then loginLoop rounds username password users else some 1

/-- An array of the table has a zero among its characters, so that so many rounds suffice. -/
def login (username password : Buffer) : Option ℤ :=
  loginLoop maxCharLimit username password users

/-! ## Comparing -/

variable {s1 s2 username password : Buffer} {a b u p : List UInt8} {rounds : ℕ}

theorem toNat_sub_eq_zero {x y : UInt8} : (x.toNat : ℤ) - y.toNat = 0 ↔ x = y := by
  rw [sub_eq_zero, Nat.cast_inj, UInt8.toNat_inj]

theorem myStrcmp_spec {i : ℕ} (ha : Spells s1 i (a ++ [0])) (hb : Spells s2 i (b ++ [0]))
    (hzero : 0 ∉ a) (hzero' : 0 ∉ b) (hrounds : a.length < rounds) :
    ∃ d, myStrcmp s1 s2 rounds i = some d ∧ (d = 0 ↔ a = b) := by
  induction a generalizing b i rounds with
  | nil =>
    obtain ⟨rounds, rfl⟩ := Nat.exists_eq_add_of_lt hrounds
    have hend : s1 i = 0 := (spells_cons.mp ha).1
    refine ⟨_, if_neg fun h => h.1 hend, toNat_sub_eq_zero.trans ?_⟩
    rw [hend]
    cases b with
    | nil => exact iff_of_true (spells_cons.mp hb).1.symm rfl
    | cons y b =>
      have hy : s2 i = y := (spells_cons.mp hb).1
      refine iff_of_false (fun h => hzero' ?_) (List.cons_ne_nil y b).symm
      exact (h.trans hy) ▸ List.mem_cons_self
  | cons x a ih =>
    obtain ⟨rounds, rfl⟩ := Nat.exists_eq_add_of_lt hrounds
    obtain ⟨hx, ha⟩ := spells_cons.mp ha
    have hne : x ≠ 0 := fun h => hzero (h ▸ List.mem_cons_self)
    rw [myStrcmp, hx]
    cases b with
    | nil =>
      have hend : s2 i = 0 := (spells_cons.mp hb).1
      rw [hend, if_neg fun h => hne h.2]
      exact ⟨_, rfl, iff_of_false (mt toNat_sub_eq_zero.mp hne) (List.cons_ne_nil x a)⟩
    | cons y b =>
      obtain ⟨hy, hb⟩ := spells_cons.mp hb
      rw [hy]
      by_cases hxy : x = y
      · obtain ⟨d, hd, hiff⟩ := ih ha hb (fun h => hzero (List.mem_cons_of_mem _ h))
          (fun h => hzero' (List.mem_cons_of_mem _ h))
          (show a.length < (x :: a).length + rounds by rw [List.length_cons]; omega)
        rw [if_pos ⟨hne, hxy⟩]
        refine ⟨d, hd, hiff.trans ?_⟩
        rw [hxy, List.cons.injEq, and_iff_right rfl]
      · rw [if_neg fun h => hxy h.2]
        exact ⟨_, rfl, iff_of_false (mt toNat_sub_eq_zero.mp hxy) fun h => hxy (List.cons.inj h).1⟩

theorem charArray_spells (text : List UInt8) : Spells (charArray text) 0 (text ++ [0]) := by
  refine spells_append.mpr ⟨spells_iff_getD.mpr fun i hi => ?_, fun i hi => ?_⟩
  · rw [charArray, Nat.zero_add]
  · obtain rfl : i = 0 := by simpa using hi
    simp [charArray]

theorem loginLoop_spec {table : List (List UInt8 × List UInt8)} (hu : Spells username 0 (u ++ [0]))
    (hp : Spells password 0 (p ++ [0])) (hzero : 0 ∉ u) (hzero' : 0 ∉ p)
    (htable : ∀ a ∈ table, (0 ∉ a.1 ∧ a.1.length < rounds) ∧ 0 ∉ a.2 ∧ a.2.length < rounds) :
    loginLoop rounds username password (table.map User.ofTexts) =
      some (if (u, p) ∈ table then 1 else 0) := by
  induction table with
  | nil => rfl
  | cons a table ih =>
    obtain ⟨⟨hname, hlen⟩, hword, hlen'⟩ := htable a List.mem_cons_self
    obtain ⟨d, hd, hdiff⟩ := myStrcmp_spec (charArray_spells a.1) hu hname hzero hlen
    obtain ⟨d', hd', hdiff'⟩ := myStrcmp_spec (charArray_spells a.2) hp hword hzero' hlen'
    have hrest := ih fun a ha => htable a (List.mem_cons_of_mem _ ha)
    have hmem : (u, p) ∈ a :: table ↔ a.1 = u ∧ a.2 = p ∨ (u, p) ∈ table := by
      rw [List.mem_cons, eq_comm, Prod.ext_iff]
    rw [List.map_cons, loginLoop, User.ofTexts, hd, Option.bind_some, hrest, hd', Option.bind_some]
    by_cases hsame : d = 0
    · rw [if_neg (not_not_intro hsame)]
      by_cases hsame' : d' = 0
      · have hfound := hmem.mpr (.inl ⟨hdiff.mp hsame, hdiff'.mp hsame'⟩)
        rw [if_neg (not_not_intro hsame'), if_pos hfound]
      · rw [if_pos hsame']
        refine congrArg some (if_congr (hmem.trans (or_iff_right fun h => ?_)).symm rfl rfl)
        exact hsame' (hdiff'.mpr h.2)
    · rw [if_pos hsame]
      refine congrArg some (if_congr (hmem.trans (or_iff_right fun h => ?_)).symm rfl rfl)
      exact hsame (hdiff.mpr h.1)

theorem login_eq (hu : Spells username 0 (u ++ [0])) (hp : Spells password 0 (p ++ [0]))
    (hzero : 0 ∉ u) (hzero' : 0 ∉ p) :
    login username password = some (if (u, p) ∈ accounts ++ others then 1 else 0) :=
  loginLoop_spec hu hp hzero hzero' (by decide)

/-- `login` returns 1 for the accounts of the initialiser only, and 0 otherwise, if and only if the
strings are not both empty. -/
theorem login_correct_iff (hu : Spells username 0 (u ++ [0])) (hp : Spells password 0 (p ++ [0]))
    (hzero : 0 ∉ u) (hzero' : 0 ∉ p) :
    login username password = some (if (u, p) ∈ accounts then 1 else 0) ↔ ¬ (u = [] ∧ p = []) := by
  have hmem : (u, p) ∈ accounts ++ others ↔ (u, p) ∈ accounts ∨ u = [] ∧ p = [] := by
    rw [List.mem_append, others, List.mem_replicate, Prod.mk.injEq, and_iff_right (by decide)]
  rw [login_eq hu hp hzero hzero', Option.some_inj]
  by_cases hempty : u = [] ∧ p = []
  · have hother : (u, p) ∉ accounts := by
      rw [hempty.1, hempty.2]
      decide
    rw [if_pos (hmem.mpr (.inr hempty)), if_neg hother]
    exact iff_of_false (by decide) (not_not_intro hempty)
  · exact iff_of_true (if_congr (hmem.trans (or_iff_left hempty)) rfl rfl) hempty

/-- `bob` with his password, and with another one. -/
theorem login_bob : login (charArray (chars "bob")) (charArray (chars "bob")) = some 1 ∧
    login (charArray (chars "bob")) (charArray (chars "test")) = some 0 := by
  have hspells := charArray_spells (chars "bob")
  have hspells' := charArray_spells (chars "test")
  exact ⟨(login_correct_iff hspells hspells (by decide) (by decide)).mpr (by decide),
    (login_correct_iff hspells hspells' (by decide) (by decide)).mpr (by decide)⟩

/-- With `enter` as the answer to both questions. -/
theorem login_nothing : ∃ e e',
    readInputEcho (fun _ _ => []) maxCharLimit (fun _ => 7) [enter] = some e ∧
    readInputSilent (fun _ _ => []) maxCharLimit (fun _ => 8) [enter] = some e' ∧
    login (fun i => e.buf i) (fun i => e'.buf i) = some 1 ∧ ([], []) ∉ accounts :=
  ⟨_, _, rfl, rfl, by decide, by decide⟩

end OsShell.Programs
