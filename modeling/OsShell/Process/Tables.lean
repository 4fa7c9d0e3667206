import OsShell.Library.Runs
import OsShell.Library.Words
import OsShell.Process.Handles

/-!
# The tables as one map

A handle is a kind and an index, and different pairs are different ids. So the
three tables are one partial map from ids to objects: `lookup p`. Each operation
acts on that map at one id, or not at all.
-/

namespace OsShell.Processes

variable {F S U : Type}

inductive Kind
  | file
  | child
  | sem
deriving DecidableEq

def Kind.bits : Kind → ℕ
  | .file => 0
  | .child => 1
  | .sem => 2

def handle (k : Kind) (i : Fin 10) : Id :=
  BitVec.ofNat 32 (2 ^ 28 * k.bits + i.val)

def decode (id : Id) : Option (Kind × Fin 10) :=
  if h : id.toNat % 2 ^ 28 < 10 then
    match id.toNat / 2 ^ 28 with
    | 0 => some (.file, ⟨id.toNat % 2 ^ 28, h⟩)
    | 1 => some (.child, ⟨id.toNat % 2 ^ 28, h⟩)
    | 2 => some (.sem, ⟨id.toNat % 2 ^ 28, h⟩)
    | _ => none
  else none

theorem Kind.bits_lt (k : Kind) : k.bits < 3 := by
  cases k <;> decide

theorem toNat_handle (k : Kind) (i : Fin 10) : (handle k i).toNat = 2 ^ 28 * k.bits + i.val := by
  have hk := k.bits_lt
  have hi := i.isLt
  rw [handle, BitVec.toNat_ofNat, Nat.mod_eq_of_lt (by omega)]

theorem eq_handle_iff {id : Id} {k : Kind} {i : Fin 10} :
    id = handle k i ↔ id.toNat / 2 ^ 28 = k.bits ∧ id.toNat % 2 ^ 28 = i.val := by
  have hi := i.isLt
  rw [← BitVec.toNat_inj, toNat_handle]
  omega

theorem decode_handle (k : Kind) (i : Fin 10) : decode (handle k i) = some (k, i) := by
  obtain ⟨hk, hi⟩ := eq_handle_iff.mp (rfl : handle k i = handle k i)
  have hlt : (handle k i).toNat % 2 ^ 28 < 10 := by
    rw [hi]
    exact i.isLt
  have hfin : (⟨(handle k i).toNat % 2 ^ 28, hlt⟩ : Fin 10) = i := Fin.ext hi
  rw [decode, dif_pos hlt, hk]
  cases k <;> simp only [Kind.bits, hfin]

theorem decode_eq_some {id : Id} {k : Kind} {i : Fin 10} :
    decode id = some (k, i) ↔ id = handle k i := by
  refine ⟨fun h => eq_handle_iff.mpr ?_, fun h => h ▸ decode_handle k i⟩
  unfold decode at h
  split at h
  · split at h <;> simp only [Option.some.injEq, Prod.mk.injEq, reduceCtorEq] at h
    all_goals
      obtain ⟨rfl, rfl⟩ := h
      exact ⟨‹_›, rfl⟩
  · cases h

theorem handle_injective {k k' : Kind} {i i' : Fin 10} (h : handle k i = handle k' i') :
    k = k' ∧ i = i' := by
  have := (decode_handle k i).symm.trans (decode_eq_some.mpr h)
  simpa using this

theorem tableIndex_eq_some {id : Id} {k : Kind} {i : Fin 10} :
    tableIndex (2 ^ 28 * k.bits) id = some i ↔ id = handle k i := by
  have hk := k.bits_lt
  have hi := i.isLt
  have hid := id.isLt
  have hkind : kindOf id = 2 ^ 28 * (id.toNat / 2 ^ 28) :=
    Words.and_high (k := 28) (n := 4) (by simpa using hid)
  have hindex : indexOf id = id.toNat % 2 ^ 28 := Nat.and_two_pow_sub_one_eq_mod _ 28
  rw [eq_handle_iff, tableIndex, hkind]
  simp only [hindex]
  split
  · simp only [reduceCtorEq, false_iff]
    omega
  · split
    · simp only [Option.some.injEq, Fin.ext_iff]
      omega
    · simp only [reduceCtorEq, false_iff]
      omega

theorem tableIndex_eq (k : Kind) (id : Id) : tableIndex (2 ^ 28 * k.bits) id =
    match decode id with
    | some (k', i) => if k' = k then some i else none
    | none => none := by
  refine Option.ext fun i => ?_
  rw [tableIndex_eq_some, ← decode_eq_some]
  rcases decode id with _ | ⟨k', i'⟩
  · simp
  · by_cases hk : k' = k <;> simp [hk]

theorem getFileIndex_eq_some {id : Id} {i : Fin 10} :
    getFileIndex id = some i ↔ id = handle .file i :=
  tableIndex_eq_some (k := .file)

theorem getChildIndex_eq_some {id : Id} {i : Fin 10} :
    getChildIndex id = some i ↔ id = handle .child i :=
  tableIndex_eq_some (k := .child)

theorem getSemaphoreIndex_eq_some {id : Id} {i : Fin 10} :
    getSemaphoreIndex id = some i ↔ id = handle .sem i :=
  tableIndex_eq_some (k := .sem)

theorem getFileIndex_handle (k : Kind) (i : Fin 10) :
    getFileIndex (handle k i) = if k = .file then some i else none := by
  rw [show getFileIndex (handle k i) = _ from tableIndex_eq .file _, decode_handle]

theorem getChildIndex_handle (k : Kind) (i : Fin 10) :
    getChildIndex (handle k i) = if k = .child then some i else none := by
  rw [show getChildIndex (handle k i) = _ from tableIndex_eq .child _, decode_handle]

theorem getSemaphoreIndex_handle (k : Kind) (i : Fin 10) :
    getSemaphoreIndex (handle k i) = if k = .sem then some i else none := by
  rw [show getSemaphoreIndex (handle k i) = _ from tableIndex_eq .sem _, decode_handle]

theorem tableIndex_of_decode {id : Id} (h : decode id = none) : getFileIndex id = none ∧
    getChildIndex id = none ∧ getSemaphoreIndex id = none := by
  refine ⟨?_, ?_, ?_⟩
  · rw [show getFileIndex id = _ from tableIndex_eq .file id, h]
  · rw [show getChildIndex id = _ from tableIndex_eq .child id, h]
  · rw [show getSemaphoreIndex id = _ from tableIndex_eq .sem id, h]

inductive Obj (F S U : Type)
  | file (f : F)
  | child (u : U)
  | sem (s : S)

def Obj.file? : Obj F S U → Option F
  | .file f => some f
  | _ => none

def Obj.child? : Obj F S U → Option U
  | .child u => some u
  | _ => none

def Obj.sem? : Obj F S U → Option S
  | .sem s => some s
  | _ => none

def Process.slot (p : Process F S U) : Kind → Fin 10 → Option (Obj F S U)
  | .file, i => (p.files i).map .file
  | .child, i => (p.children i).map .child
  | .sem, i => (p.sems i).map .sem

def lookup (p : Process F S U) (id : Id) : Option (Obj F S U) :=
  (decode id).bind fun (k, i) => p.slot k i

variable {p p' : Process F S U} {k : Kind} {i : Fin 10} {id : Id}

@[simp] theorem lookup_handle (p : Process F S U) (k : Kind) (i : Fin 10) :
    lookup p (handle k i) = p.slot k i := by
  rw [lookup, decode_handle, Option.bind_some]

theorem lookup_of_decode (h : decode id = none) : lookup p id = none := by
  rw [lookup, h, Option.bind_none]

theorem exists_handle_of_lookup {o : Obj F S U} (h : lookup p id = some o) :
    ∃ k i, id = handle k i ∧ p.slot k i = some o := by
  cases hd : decode id with
  | none => rw [lookup_of_decode hd] at h; cases h
  | some ki =>
    obtain ⟨k, i⟩ := ki
    obtain rfl := decode_eq_some.mp hd
    exact ⟨k, i, rfl, by rwa [lookup_handle] at h⟩

theorem lookup_update {v : Option (Obj F S U)}
    (h : ∀ k' i', p'.slot k' i' = if k' = k ∧ i' = i then v else p.slot k' i') :
    lookup p' = Function.update (lookup p) (handle k i) v := by
  funext id
  cases hd : decode id with
  | none =>
    have hne : id ≠ handle k i := fun heq => by
      rw [heq, decode_handle] at hd
      cases hd
    rw [Function.update_of_ne hne, lookup_of_decode hd, lookup_of_decode hd]
  | some ki =>
    obtain ⟨k', i'⟩ := ki
    obtain rfl := decode_eq_some.mp hd
    rw [lookup_handle, h]
    split
    · rename_i heq
      rw [heq.1, heq.2, Function.update_self]
    · rename_i hne
      rw [Function.update_of_ne (fun heq => hne (handle_injective heq)), lookup_handle]

theorem lookup_files (p : Process F S U) (i : Fin 10) (o : Option F) :
    lookup { p with files := Function.update p.files i o } =
      Function.update (lookup p) (handle .file i) (o.map .file) :=
  lookup_update fun k' i' => by
    cases k' <;> by_cases hi : i' = i <;> simp [Process.slot, hi]

theorem lookup_children (p : Process F S U) (i : Fin 10) (o : Option U) :
    lookup { p with children := Function.update p.children i o } =
      Function.update (lookup p) (handle .child i) (o.map .child) :=
  lookup_update fun k' i' => by
    cases k' <;> by_cases hi : i' = i <;> simp [Process.slot, hi]

theorem lookup_sems (p : Process F S U) (i : Fin 10) (o : Option S) :
    lookup { p with sems := Function.update p.sems i o } =
      Function.update (lookup p) (handle .sem i) (o.map .sem) :=
  lookup_update fun k' i' => by
    cases k' <;> by_cases hi : i' = i <;> simp [Process.slot, hi]

theorem getFile_handle (p : Process F S U) (i : Fin 10) : p.getFile (handle .file i) = p.files i := by
  have hi := i.isLt
  have hnat : (handle .file i).toNat = i.val := by
    rw [toNat_handle]
    simp [Kind.bits]
  rw [Process.getFile, getFileIndex_handle, if_pos rfl]
  simp only [hnat, hi, dif_pos]

theorem getFile_eq (p : Process F S U) (id : Id) : p.getFile id = (lookup p id).bind Obj.file? := by
  cases hd : decode id with
  | none => rw [Process.getFile, (tableIndex_of_decode hd).1, lookup_of_decode hd]; rfl
  | some ki =>
    obtain ⟨k, i⟩ := ki
    obtain rfl := decode_eq_some.mp hd
    rw [lookup_handle]
    cases k with
    | file =>
      rw [getFile_handle]
      cases h : p.files i <;> simp [Process.slot, h, Obj.file?]
    | child =>
      rw [Process.getFile, getFileIndex_handle, if_neg (by simp)]
      cases h : p.children i <;> simp [Process.slot, h, Obj.file?]
    | sem =>
      rw [Process.getFile, getFileIndex_handle, if_neg (by simp)]
      cases h : p.sems i <;> simp [Process.slot, h, Obj.file?]

theorem getSemaphore_index (p : Process F S U) (id : Id) :
    p.getSemaphore id = (getSemaphoreIndex id).bind p.sems := by
  rw [Process.getSemaphore, getSemaphoreIndex, tableIndex]
  by_cases hk : kindOf id = SEM
  · by_cases hi : indexOf id < 10
    · rw [dif_neg (by simp [hk, hi]), if_neg (by simp [hk]), dif_pos hi, Option.bind_some]
    · rw [dif_pos (by omega), if_neg (by simp [hk]), dif_neg hi, Option.bind_none]
  · rw [dif_pos (by simp [hk]), if_pos hk, Option.bind_none]

theorem getSemaphore_eq (p : Process F S U) (id : Id) :
    p.getSemaphore id = (lookup p id).bind Obj.sem? := by
  rw [getSemaphore_index]
  cases hd : decode id with
  | none => rw [(tableIndex_of_decode hd).2.2, lookup_of_decode hd]; rfl
  | some ki =>
    obtain ⟨k, i⟩ := ki
    obtain rfl := decode_eq_some.mp hd
    rw [lookup_handle, getSemaphoreIndex_handle]
    cases k with
    | file => cases h : p.files i <;> simp [Process.slot, h, Obj.sem?]
    | child => cases h : p.children i <;> simp [Process.slot, h, Obj.sem?]
    | sem => cases h : p.sems i <;> simp [Process.slot, h, Obj.sem?]

theorem close_eq (p : Process F S U) (id : Id) :
    (p.close id).1 = (if (lookup p id).isSome then 0 else -1) ∧
      lookup (p.close id).2 = Function.update (lookup p) id none := by
  cases hd : decode id with
  | none =>
    obtain ⟨hfile, hchild, hsem⟩ := tableIndex_of_decode hd
    have hnone := lookup_of_decode (p := p) hd
    simp only [Process.close, hfile, hchild, hsem, hnone, Option.isSome_none]
    refine ⟨rfl, ?_⟩
    rw [← hnone, Function.update_eq_self]
  | some ki =>
    obtain ⟨k, i⟩ := ki
    obtain rfl := decode_eq_some.mp hd
    rw [lookup_handle]
    simp only [Process.close, getSemaphoreIndex_handle, getChildIndex_handle, getFileIndex_handle]
    cases k with
    | file =>
      cases h : p.files i with
      | none => simp [h, Process.slot]
      | some f => simpa [h, Process.slot] using lookup_files p i none
    | child =>
      cases h : p.children i with
      | none => simp [h, Process.slot]
      | some f => simpa [h, Process.slot] using lookup_children p i none
    | sem =>
      cases h : p.sems i with
      | none => simp [h, Process.slot]
      | some f => simpa [h, Process.slot] using lookup_sems p i none

theorem wait_eq (p : Process F S U) (id : Id) :
    (p.wait id).1 = (if ((lookup p id).bind Obj.child?).isSome then 0 else -1) ∧
      (p.wait id).2.1 = (lookup p id).bind Obj.child? ∧
      lookup (p.wait id).2.2 = Function.update (lookup p) id
        (if ((lookup p id).bind Obj.child?).isSome then none else lookup p id) := by
  cases hd : decode id with
  | none =>
    have hnone := lookup_of_decode (p := p) hd
    simp [Process.wait, (tableIndex_of_decode hd).2.1, hnone]
  | some ki =>
    obtain ⟨k, i⟩ := ki
    obtain rfl := decode_eq_some.mp hd
    rw [lookup_handle]
    simp only [Process.wait, getChildIndex_handle]
    cases k with
    | file => cases h : p.files i <;> simp [h, Process.slot, Obj.child?]
    | sem => cases h : p.sems i <;> simp [h, Process.slot, Obj.child?]
    | child =>
      cases h : p.children i with
      | none => simp [h, Process.slot]
      | some u => simpa [h, Process.slot, Obj.child?] using lookup_children p i none

end OsShell.Processes
