import OsShell.Exec.Load

/-!
# The stack of a new program

Every store of `SYS::exec` before `ELF::load` goes right below the one before.
`Pushed` says what a row of them leaves; the two loops are done by induction on
the arguments. Read from the last `sp` upwards, the stack then is a list of
bytes, and the pointers in it are found where their strings begin.
-/

namespace OsShell.Exec

open Bytes Stopping Vmm

theorem down_eq {sp n : ℕ} (hsp : sp < 2 ^ 32) (hn : n ≤ sp) : down sp n = sp - n := by
  unfold down
  omega

namespace Store

variable {st : Store} {mem : Buffer} {a : ℕ}

theorem apply_of_mem (hfit : st.address + st.bytes.length ≤ 2 ^ 32) {i : ℕ}
    (hi : i < st.bytes.length) : Store.apply mem st (st.address + i) = st.bytes[i] := by
  have hindex : (st.address + i + 2 ^ 32 - st.address % 2 ^ 32) % 2 ^ 32 = i := by omega
  unfold Store.apply
  rw [hindex, List.getD_eq_getElem _ _ hi]

theorem foldl_apply {stores : List Store} (ha : a < 2 ^ 32) (h : ∀ st ∈ stores, ¬ st.Touches a) :
    stores.foldl Store.apply mem a = mem a := by
  induction stores generalizing mem with
  | nil => rfl
  | cons st stores ih =>
    rw [List.foldl_cons, ih fun st hst => h st (List.mem_cons_of_mem _ hst)]
    exact apply_of_not_touches ha (h st (List.mem_cons_self ..))

end Store

/-- The stack has grown from `sp` to `sp'`, by these bytes. -/
structure Pushed (mem : Buffer) (sp : ℕ) (mem' : Buffer) (sp' : ℕ) (bytes : List UInt8) : Prop where
  sp_eq : sp' + bytes.length = sp
  spells : Spells mem' sp' bytes
  rest : ∀ a < 2 ^ 32, sp ≤ a → mem' a = mem a

variable {mem mem' mem'' : Buffer} {sp sp' sp'' : ℕ} {xs ys : List UInt8}

theorem Pushed.refl : Pushed mem sp mem sp [] :=
  ⟨rfl, fun _ hi => absurd hi (Nat.not_lt_zero _), fun _ _ _ => rfl⟩

theorem Pushed.trans (h : Pushed mem sp mem' sp' xs) (h' : Pushed mem' sp' mem'' sp'' ys)
    (hsp : sp < 2 ^ 32) : Pushed mem sp mem'' sp'' (ys ++ xs) where
  sp_eq := by rw [List.length_append, ← Nat.add_assoc, h'.sp_eq, h.sp_eq]
  spells := by
    refine spells_append.mpr ⟨h'.spells, ?_⟩
    rw [h'.sp_eq]
    have := h.sp_eq
    exact h.spells.congr fun i hi => h'.rest _ (by omega) (Nat.le_add_right _ _)
  rest a ha hle := by
    have := h.sp_eq
    rw [h'.rest a ha (by omega), h.rest a ha hle]

theorem pushed_store (mem : Buffer) (sp : ℕ) (bytes : List UInt8) (hsp : sp < 2 ^ 32) (hle : bytes.length ≤ sp) :
    Pushed mem sp (Store.apply mem ⟨down sp bytes.length, bytes⟩) (down sp bytes.length) bytes := by
  have hdown := down_eq hsp hle
  refine ⟨by omega, fun i hi => ?_, fun a ha hsp' => ?_⟩
  · have hfit : down sp bytes.length + bytes.length ≤ 2 ^ 32 := by omega
    exact Store.apply_of_mem hfit hi
  · refine Store.apply_of_not_touches ha ?_
    rintro ⟨i, hi, rfl⟩
    have hi : i < bytes.length := hi
    have hsp' : sp ≤ (down sp bytes.length + i) % 2 ^ 32 := hsp'
    omega

namespace CString

theorem length_elem (s : CString) : s.elem.length = s.size := by
  rw [elem, List.length_map, List.length_range]

theorem dvd_size (s : CString) : 4 ∣ s.size := by
  simp only [size]
  omega

theorem length_lt_size (s : CString) : s.chars.length + 1 < s.size := by
  simp only [size]
  omega

theorem spells_elem {s : CString} {p : ℕ} (h : Spells mem p s.elem) :
    Spells mem p (s.chars ++ [0]) := by
  intro i hi
  rw [List.length_append, List.length_singleton] at hi
  have hlt := s.length_lt_size
  rw [h i (by rw [length_elem]; omega)]
  simp only [elem, List.getElem_map, List.getElem_range, byte]
  by_cases hchars : i < s.chars.length
  · rw [if_pos hchars, List.getD_eq_getElem _ _ hchars, List.getElem_append_left hchars]
  · rw [if_neg hchars, if_pos (by omega), List.getElem_append_right (by omega)]
    simp

end CString

def addressesFrom (base : ℕ) : List CString → List ℕ
  | [] => []
  | s :: argv => base :: addressesFrom (base + s.size) argv

theorem length_addressesFrom (base : ℕ) (argv : List CString) :
    (addressesFrom base argv).length = argv.length := by
  induction argv generalizing base with
  | nil => rfl
  | cons s argv ih => rw [addressesFrom, List.length_cons, ih, List.length_cons]

theorem getElem_addressesFrom (base : ℕ) (argv : List CString) (i : ℕ)
    (hi : i < (addressesFrom base argv).length) :
    (addressesFrom base argv)[i] = base + ((argv.take i).map CString.size).sum := by
  induction argv generalizing base i with
  | nil => exact absurd hi (Nat.not_lt_zero i)
  | cons s argv ih =>
    cases i with
    | zero => rfl
    | succ i =>
      have := ih (base + s.size) i (Nat.lt_of_succ_lt_succ hi)
      simpa [addressesFrom, Nat.add_assoc] using this

def stringBytes (argv : List CString) : ℕ :=
  (argv.map CString.size).sum

theorem length_flatMap_elem (argv : List CString) :
    (argv.flatMap CString.elem).length = stringBytes argv := by
  rw [List.length_flatMap, stringBytes]
  congr 1
  exact List.map_congr_left fun s _ => s.length_elem

namespace SYS

theorem pushStrings_spec (argv : List CString) (mem : Buffer) (sp : ℕ) (hsp : sp < 2 ^ 32)
    (hfit : stringBytes argv ≤ sp) :
    Pushed mem sp ((pushStrings argv sp).2.2.foldl Store.apply mem) (pushStrings argv sp).1
      (argv.flatMap CString.elem) ∧
    (pushStrings argv sp).2.1 = addressesFrom (pushStrings argv sp).1 argv := by
  induction argv with
  | nil => exact ⟨.refl, rfl⟩
  | cons s argv ih =>
    have hsum : stringBytes (s :: argv) = s.size + stringBytes argv := rfl
    obtain ⟨hpush, haddr⟩ := ih (by omega)
    have hsp' := hpush.sp_eq
    rw [length_flatMap_elem] at hsp'
    have hstore := pushed_store ((pushStrings argv sp).2.2.foldl Store.apply mem)
      (pushStrings argv sp).1 s.elem (by omega) (by rw [s.length_elem]; omega)
    rw [s.length_elem] at hstore
    simp only [pushStrings, List.foldl_append, List.foldl_cons, List.foldl_nil, List.flatMap_cons,
      addressesFrom]
    refine ⟨hpush.trans hstore hsp, ?_⟩
    rw [haddr]
    congr 1
    have := hstore.sp_eq
    rw [s.length_elem] at this
    rw [this]

theorem length_flatMap_word (addresses : List ℕ) :
    (addresses.flatMap word).length = addresses.length * 4 :=
  length_flatMap addresses length_word

theorem pushPointers_spec (addresses : List ℕ) (mem : Buffer) (sp : ℕ) (hsp : sp < 2 ^ 32)
    (hfit : 4 * addresses.length ≤ sp) :
    Pushed mem sp ((pushPointers addresses sp).2.foldl Store.apply mem)
      (pushPointers addresses sp).1 (addresses.flatMap word) := by
  induction addresses with
  | nil => exact .refl
  | cons p addresses ih =>
    rw [List.length_cons] at hfit
    have hpush := ih (by omega)
    have hsp' := hpush.sp_eq
    rw [length_flatMap_word] at hsp'
    have hstore := pushed_store ((pushPointers addresses sp).2.foldl Store.apply mem)
      (pushPointers addresses sp).1 (word p) (by omega) (by rw [length_word]; omega)
    simp only [pushPointers, List.foldl_append, List.foldl_cons, List.foldl_nil, List.flatMap_cons]
    exact hpush.trans hstore hsp

/-- The padded strings, the pointers, the null pointer and the two words in front. -/
def stackBytes (argv : List CString) : ℕ :=
  stringBytes argv + 4 * (argv.length + 3)

/-- The stack from the last `sp` upwards. -/
def image (argv : List CString) (sp : ℕ) : List UInt8 :=
  word argv.length ++ (word (sp + 8) ++
    ((addressesFrom (sp + 12 + 4 * argv.length) argv).flatMap word ++
      (word 0 ++ argv.flatMap CString.elem)))

theorem buildStack_spec (argv : List CString) (mem : Buffer) (hfit : stackBytes argv ≤ 0xefffe000) :
    Pushed mem 0xefffe000 ((buildStack argv).2.foldl Store.apply mem) (buildStack argv).1
      (image argv (buildStack argv).1) := by
  unfold stackBytes at hfit
  obtain ⟨hstrings, haddr⟩ := pushStrings_spec argv mem 0xefffe000 (by omega) (by omega)
  set s₁ := pushStrings argv 0xefffe000 with hs₁
  set m₁ := s₁.2.2.foldl Store.apply mem
  have h₁ := hstrings.sp_eq
  rw [length_flatMap_elem] at h₁
  -- the null pointer is four zeros
  have hnull := pushed_store m₁ s₁.1 (word 0) (by omega)
    (by rw [length_word]; omega)
  rw [length_word] at hnull
  set sp₂ := down s₁.1 4
  set m₂ := Store.apply m₁ ⟨sp₂, word 0⟩
  have h₂ := hnull.sp_eq
  rw [length_word] at h₂
  have hpointers := pushPointers_spec s₁.2.1 m₂ sp₂ (by omega)
    (by rw [haddr, length_addressesFrom]; omega)
  set s₃ := pushPointers s₁.2.1 sp₂ with hs₃
  set m₃ := s₃.2.foldl Store.apply m₂
  have h₃ := hpointers.sp_eq
  rw [length_flatMap_word, haddr, length_addressesFrom] at h₃
  have hargP := pushed_store m₃ s₃.1 (word ((down s₃.1 4 + 4) % 2 ^ 32)) (by omega)
    (by rw [length_word]; omega)
  rw [length_word] at hargP
  set sp₄ := down s₃.1 4
  set m₄ := Store.apply m₃ ⟨sp₄, word ((sp₄ + 4) % 2 ^ 32)⟩
  have h₄ := hargP.sp_eq
  rw [length_word] at h₄
  have hargc := pushed_store m₄ sp₄ (word argv.length) (by omega)
    (by rw [length_word]; omega)
  rw [length_word] at hargc
  have h₅ := hargc.sp_eq
  rw [length_word] at h₅
  have hall := (((hstrings.trans hnull (by omega)).trans hpointers (by omega)).trans hargP
    (by omega)).trans hargc (by omega)
  have hmem : (buildStack argv).2.foldl Store.apply mem =
      Store.apply m₄ ⟨down sp₄ 4, word argv.length⟩ := by
    simp only [buildStack, List.foldl_append, List.foldl_cons, List.foldl_nil]
    rfl
  have hsp : (buildStack argv).1 = down sp₄ 4 := rfl
  have hbytes : image argv (down sp₄ 4) = word argv.length ++ (word ((sp₄ + 4) % 2 ^ 32) ++
      (s₁.2.1.flatMap word ++ (word 0 ++ argv.flatMap CString.elem))) := by
    rw [image, haddr, Nat.mod_eq_of_lt (show sp₄ + 4 < 2 ^ 32 by omega),
      show down sp₄ 4 + 8 = sp₄ + 4 by omega,
      show down sp₄ 4 + 12 + 4 * argv.length = s₁.1 by omega]
  rw [hmem, hsp, hbytes]
  exact hall

end SYS

def offset (argv : List CString) (i : ℕ) : ℕ :=
  ((argv.take i).map CString.size).sum

theorem offset_add_size {argv : List CString} {i j : ℕ} (hi : i < argv.length) (hij : i < j) :
    offset argv i + argv[i].size ≤ offset argv j := by
  have hmono : Monotone fun k => ((argv.map CString.size).take k).sum :=
    List.monotone_sum_take _
  have hsucc := List.sum_take_succ (argv.map CString.size) i (by rwa [List.length_map])
  have hle : ((argv.map CString.size).take (i + 1)).sum ≤ ((argv.map CString.size).take j).sum :=
    hmono hij
  simp only [← List.map_take, List.getElem_map] at hsucc hle
  unfold offset
  omega

theorem offset_length (argv : List CString) : offset argv argv.length = stringBytes argv := by
  rw [offset, List.take_length, stringBytes]

/-- Word 1: where the pointers begin. -/
def array (mem : Buffer) (sp : ℕ) : ℕ := le32 mem (sp + 4)

def pointer (mem : Buffer) (sp i : ℕ) : ℕ := le32 mem (array mem sp + 4 * i)

/-- What the program finds on its stack, each part with its address and length: the two words in
front, the array, the strings. -/
def ranges (argv : List CString) (mem : Buffer) (sp : ℕ) : List (ℕ × ℕ) :=
  (sp, 8) :: (array mem sp, 4 * (argv.length + 1)) ::
    (List.finRange argv.length).map fun i : Fin argv.length =>
      (pointer mem sp i, (argv.get i).chars.length + 1)

structure Decodes (argv : List CString) (mem : Buffer) (sp : ℕ) : Prop where
  aligned : sp % 4 = 0
  below : sp < 0xefffe000
  argc : le32 mem sp = argv.length
  null : pointer mem sp argv.length = 0
  copy : ∀ i (h : i < argv.length), Spells mem (pointer mem sp i) (argv[i].chars ++ [0])
  apart : (ranges argv mem sp).Pairwise fun r r' => r.1 + r.2 ≤ r'.1
  within : ∀ r ∈ ranges argv mem sp, sp ≤ r.1 ∧ r.1 + r.2 ≤ 0xefffe000

open SYS

theorem length_image (argv : List CString) (sp : ℕ) :
    (image argv sp).length = stackBytes argv := by
  simp only [image, List.length_append, length_word, length_flatMap_word, length_addressesFrom,
    length_flatMap_elem, stackBytes]
  omega

theorem pointer_spec {argv : List CString} (hsp : sp + stackBytes argv = 0xefffe000)
    (h : Spells mem sp (image argv sp)) {i : ℕ} (hi : i < argv.length) :
    pointer mem sp i = sp + 12 + 4 * argv.length + offset argv i ∧
      Spells mem (pointer mem sp i) argv[i].elem := by
  have htotal : stackBytes argv = stringBytes argv + 4 * (argv.length + 3) := rfl
  have hoff := offset_add_size hi hi
  have hle : offset argv i + argv[i].size ≤ offset argv argv.length := offset_add_size hi hi
  rw [offset_length] at hle
  simp only [image, spells_append, length_word, length_flatMap_word, length_addressesFrom] at h
  obtain ⟨-, hargP, hpointers, -, hstrings⟩ := h
  have harray : array mem sp = sp + 8 := le32_of_spells hargP (by omega)
  have hi' : i < (addressesFrom (sp + 12 + 4 * argv.length) argv).length := by
    rwa [length_addressesFrom]
  have hword := spells_flatMap hpointers i hi'
  rw [getElem_addressesFrom] at hword
  simp only [length_word, List.map_const', List.sum_replicate, List.length_take, smul_eq_mul,
    min_eq_left hi'.le] at hword
  have hpointer : pointer mem sp i = sp + 12 + 4 * argv.length + offset argv i := by
    rw [pointer, harray, Nat.mul_comm 4 i]
    exact le32_of_spells hword (show sp + 12 + 4 * argv.length + offset argv i < 2 ^ 32 by omega)
  refine ⟨hpointer, ?_⟩
  have hcopy := spells_flatMap hstrings i hi
  have hoffset : ((argv.take i).map fun s => s.elem.length).sum = offset argv i := by
    simp only [offset, CString.length_elem]
  rw [hoffset] at hcopy
  rw [hpointer]
  convert hcopy using 1
  omega

theorem decodes_of_spells {argv : List CString} (hsp : sp + stackBytes argv = 0xefffe000)
    (h : Spells mem sp (image argv sp)) : Decodes argv mem sp := by
  have htotal : stackBytes argv = stringBytes argv + 4 * (argv.length + 3) := rfl
  have hpointer := fun {i : ℕ} (hi : i < argv.length) => pointer_spec hsp h hi
  have hend : ∀ i (hi : i < argv.length), pointer mem sp i + (argv[i].chars.length + 1) ≤
      0xefffe000 := by
    intro i hi
    have hle := offset_add_size (j := argv.length) hi hi
    have hlt := argv[i].length_lt_size
    rw [offset_length] at hle
    rw [(hpointer hi).1]
    omega
  have hdvd : 4 ∣ stringBytes argv := by
    refine List.dvd_sum fun n hn => ?_
    obtain ⟨s, -, rfl⟩ := List.mem_map.mp hn
    exact s.dvd_size
  simp only [image, spells_append, length_word, length_flatMap_word, length_addressesFrom] at h
  obtain ⟨hargc, hargP, -, hnull, -⟩ := h
  have harray : array mem sp = sp + 8 := le32_of_spells hargP (by omega)
  refine ⟨by omega, by omega, le32_of_spells hargc (by omega), ?_, fun i hi => ?_, ?_, ?_⟩
  · rw [pointer, harray, Nat.mul_comm 4 argv.length]
    exact le32_of_spells hnull (by decide)
  · exact CString.spells_elem (hpointer hi).2
  · refine List.pairwise_cons.mpr ⟨fun r hr => ?_, List.pairwise_cons.mpr ⟨fun r hr => ?_, ?_⟩⟩
    · rcases List.mem_cons.mp hr with rfl | hr
      · exact harray.ge
      · obtain ⟨i, -, rfl⟩ := List.mem_map.mp hr
        have := (hpointer i.isLt).1
        simp only
        omega
    · obtain ⟨i, -, rfl⟩ := List.mem_map.mp hr
      have := (hpointer i.isLt).1
      simp only
      omega
    · refine List.pairwise_map.mpr ((List.pairwise_lt_finRange _).imp fun {i j} hij => ?_)
      have hle := offset_add_size i.isLt hij
      have hlt := (argv.get i).length_lt_size
      have := (hpointer i.isLt).1
      have := (hpointer j.isLt).1
      simp only [List.get_eq_getElem] at hlt ⊢
      omega
  · intro r hr
    rcases List.mem_cons.mp hr with rfl | hr
    · exact ⟨le_rfl, by simp only; omega⟩
    rcases List.mem_cons.mp hr with rfl | hr
    · simp only
      omega
    · obtain ⟨i, -, rfl⟩ := List.mem_map.mp hr
      have := (hpointer i.isLt).1
      exact ⟨by simp only; omega, hend i i.isLt⟩

/-- Where the stack fits above the loaded program, what the program finds on it are its
arguments. -/
theorem exec_decodes {c : Config} {file : File} {argv : List CString} {imageEnd e : ℕ}
    (himage : ∀ st ∈ (ELF.load file).1, ∀ a, st.Touches a → a < imageEnd)
    (hfit : imageEnd + stackBytes argv ≤ 0xefffe000)
    (h : (exec c (some file) argv mem).2 = .user e sp) :
    Decodes argv (exec c (some file) argv mem).1 sp := by
  have hpush := buildStack_spec argv (clearPrivate c mem) (by omega)
  have hsp := hpush.sp_eq
  rw [length_image] at hsp
  revert h
  simp only [exec]
  split
  · exact nofun
  split
  · exact nofun
  split
  · exact nofun
  cases (ELF.load file).2 with
  | error e => exact nofun
  | ok e =>
    intro h
    obtain ⟨-, rfl⟩ := Result.user.inj h
    refine decodes_of_spells hsp (hpush.spells.congr fun i hi => ?_)
    rw [length_image] at hi
    refine Store.foldl_apply (by omega) fun st hst htouch => ?_
    have := himage st hst _ htouch
    omega

def twoArguments : List CString :=
  [⟨[108, 115], by decide, fun _ => 0⟩, ⟨[], by decide, fun _ => 0⟩]

theorem twoArguments_decodes : ∃ mem, Decodes twoArguments mem 0xefffdfe4 := by
  have himage : ∀ st ∈ (ELF.load (oneSegment 0x80000000)).1, ∀ a, st.Touches a →
      a < 0x80000004 := by
    have hload : (ELF.load (oneSegment 0x80000000)).1 =
        [⟨0x80000000, [0x7F, 69, 76, 70]⟩, ⟨0x80000004, []⟩] := by
      decide +kernel
    rw [hload]
    simp only [List.mem_cons, List.not_mem_nil, or_false, forall_eq_or_imp, forall_eq]
    refine ⟨?_, ?_⟩
    · rintro a ⟨i, hi, rfl⟩
      have hi : i < 4 := hi
      simp only
      omega
    · rintro a ⟨i, hi, rfl⟩
      exact absurd hi (Nat.not_lt_zero i)
  have hexec : (exec ⟨0x8000000, 0xFEC00000, 0xFEE00000⟩ (some (oneSegment 0x80000000))
      twoArguments fun _ => 0).2 = .user 0x80000000 0xefffdfe4 := by
    decide +kernel
  exact ⟨_, exec_decodes himage (by decide) hexec⟩

end OsShell.Exec
