import OsShell.Exec.Arguments
import OsShell.KernelHeap.Guarantees
import OsShell.UserHeap.Operations

/-!
# The buffers of `execl` and `execvp`

Both handlers copy the strings of their caller to the kernel's heap: an array of
pointers, one buffer for each argument and one for the path. Next to the heap stands
what has been written to these buffers, in its order. A buffer is written byte by
byte, and the heap's words change accordingly, whatever they are words of.
-/

namespace OsShell.Exec

open Bytes FirstFit KernelHeap Runs Tiling

/-- Bytes written to a buffer from an offset on, and the bytes that were asked for it. -/
structure Write where
  requested : ℕ
  offset : ℕ
  length : ℕ
deriving DecidableEq

structure Kernel where
  state : KernelHeap.State
  writes : List Write

/-- The next part of a call runs on the kernel that the part before it leaves, unless that has
stopped. -/
def andThen {α β : Type} (r : Kernel × Except Halt α) (f : α → Kernel → Kernel × Except Halt β) :
    Kernel × Except Halt β :=
  match r with
  | (k, .error e) => (k, .error e)
  | (k, .ok a) => f a k

/-- `operator new[]`: a request that nothing fits is the end of the kernel. -/
def new (bytes : ℕ) (k : Kernel) : Kernel × Except Halt ℤ :=
  let bytes := bytes % 2 ^ 32
  match malloc k.state.heap bytes with
  | none => (k, .error (.panic "block is not available in malloc"))
  | some (h, p) =>
    let s : KernelHeap.State :=
      ⟨h, k.state.theLock, if bytes = 0 ∨ p = 0 then k.state.live else p :: k.state.live⟩
    (⟨s, k.writes⟩, if p = 0 then .error (.panic "out of memory") else .ok p)

/-- What `new` asks for when it makes an array of `n` words: an array that would take more than
half of the memory is too large for any heap. -/
def arrayBytes (n : ℕ) : ℕ := if n ≤ 0x1FFFFFFF then 4 * n else 0xFFFFFFFF

def storeBytes (h : Heap) (dest : ℤ) : List UInt8 → Heap
  | [] => h
  | b :: bytes => storeBytes (UserHeap.setByte h dest b.toNat) (dest + 1) bytes

namespace Kernel

def store (k : Kernel) (buffer : ℤ) (requested offset : ℕ) (bytes : List UInt8) : Kernel :=
  ⟨{ k.state with heap := storeBytes k.state.heap (buffer + offset) bytes },
    k.writes ++ [⟨requested, offset, bytes.length⟩]⟩

/-- The loop of `memcpy` ends at once from `2 ^ 31` bytes on. -/
def memcpy (k : Kernel) (buffer : ℤ) (requested : ℕ) (bytes : List UInt8) : Kernel :=
  k.store buffer requested 0 (if bytes.length < 2 ^ 31 then bytes else [])

end Kernel

def copyString (s : List UInt8) (k : Kernel) : Kernel × Except Halt ℤ :=
  andThen (new s.length k) fun elem k =>
    ((k.memcpy elem s.length s).store elem s.length s.length [0], .ok elem)

/-- The loop over the arguments, the first of which is number `i`. -/
def copyStrings (argvMod : ℤ) (count : ℕ) :
    ℕ → List (List UInt8) → Kernel → Kernel × Except Halt Unit
  | _, [], k => (k, .ok ())
  | i, s :: argv, k =>
    andThen (copyString s k) fun elem k =>
      copyStrings argvMod count (i + 1) argv
        (k.store argvMod (4 * (count + 1)) (4 * i) (word elem.toNat))

inductive Call
  | execl
  | execvp
deriving DecidableEq

def Call.first : Call → ℕ
  | .execl => 2
  | .execvp => 5

/-- `execvp` ends its array of pointers with a null. -/
def Kernel.terminate (k : Kernel) (argvMod : ℤ) (count : ℕ) : Call → Kernel
  | .execl => k
  | .execvp => k.store argvMod (4 * (count + 1)) (4 * count) (word 0)

def copyPath (path : List UInt8) (k : Kernel) : Kernel × Except Halt Unit :=
  let size := path.length + 1
  andThen (new size k) fun buffer k => (k.memcpy buffer size (path ++ [0]), .ok ())

/-- What the handler copies before it calls `SYS::exec`. -/
def copyArguments (call : Call) (path : List UInt8) (argv : List (List UInt8)) (k : Kernel) :
    Kernel × Except Halt Unit :=
  let count := argv.length
  andThen (new (arrayBytes (count + 1)) k) fun argvMod k =>
    andThen (copyStrings argvMod count 0 argv k) fun _ k =>
      copyPath path (k.terminate argvMod count call)

/-- No byte is written outside its buffer, and the headers and footers of the heap are those of
the blocks of its live pointers. -/
structure Inside (k : Kernel) : Prop where
  writes : ∀ w ∈ k.writes, w.offset + w.length ≤ w.requested
  heap : ∃ bs fl, Owned k.state.heap (k.state.theLock :: k.state.live) bs fl

/-- The heap has no room for the array of pointers, or none after it for the first string. -/
def NoRoom (argv : List (List UInt8)) (k : Kernel) : Prop :=
  ∃ e, (andThen (new (arrayBytes (argv.length + 1)) k) fun _ k =>
    new (argv.head?.getD []).length k).2 = .error e

@[simp] theorem andThen_ok {α β : Type} (k : Kernel) (a : α)
    (f : α → Kernel → Kernel × Except Halt β) : andThen (k, .ok a) f = f a k := rfl

theorem andThen_rule {α β : Type} {r : Kernel × Except Halt α}
    {f : α → Kernel → Kernel × Except Halt β} {P : Kernel → Prop} (hr : P r.1)
    (hf : ∀ k a, r = (k, .ok a) → P (f a k).1) : P (andThen r f).1 := by
  obtain ⟨k, e | a⟩ := r
  · exact hr
  · exact hf k a rfl

/-! ## Buffers that are written within their bounds -/

structure Room (s : KernelHeap.State) (p : ℤ) (n : ℕ) : Prop where
  live : p ∈ s.theLock :: s.live
  payload : ∀ i < n, (p + i - s.heap.base) / 4 ∈ payload s.heap p

@[simp] theorem storeBytes_base (h : Heap) (dest : ℤ) (bytes : List UInt8) :
    (storeBytes h dest bytes).base = h.base := by
  induction bytes generalizing h dest with
  | nil => rfl
  | cons b bytes ih => rw [storeBytes, ih, UserHeap.setByte_base]

theorem storeBytes_array {h : Heap} {dest j : ℤ} {bytes : List UInt8}
    (hj : ∀ i < bytes.length, (dest + i - h.base) / 4 ≠ j) :
    (storeBytes h dest bytes).array j = h.array j := by
  induction bytes generalizing h dest with
  | nil => rfl
  | cons b bytes ih =>
    have hhead : (dest - h.base) / 4 ≠ j := by simpa using hj 0 (Nat.succ_pos _)
    rw [storeBytes, ih fun i hi => ?_, UserHeap.setByte, Heap.store_of_ne _ _ hhead.symm]
    have hnext := hj (i + 1) (by simpa using hi)
    simpa only [Nat.cast_add, Nat.cast_one, UserHeap.setByte_base, add_comm (i : ℤ), add_assoc]
      using hnext

theorem payload_store {h : Heap} {p j : ℤ} (hj : j ∈ payload h p) (v : ℤ) :
    payload (h.store j v) p = payload h p := by
  have hne : (p - h.base) / 4 - 1 ≠ j := hj.1.ne
  simp only [payload, footerFromHeader, size, Heap.store_base, h.store_of_ne v hne]

theorem storeBytes_reachable {s : KernelHeap.State} (h : Reachable Init Step s) {p dest : ℤ}
    {bytes : List UInt8} (hp : p ∈ s.theLock :: s.live)
    (hin : ∀ i < bytes.length, (dest + i - s.heap.base) / 4 ∈ payload s.heap p) :
    Reachable Init Step { s with heap := storeBytes s.heap dest bytes } := by
  induction bytes generalizing s dest with
  | nil => exact h
  | cons b bytes ih =>
    have hhead : (dest - s.heap.base) / 4 ∈ payload s.heap p := by
      simpa using hin 0 (Nat.succ_pos _)
    refine ih (h.step (.write p hp _ _ hhead)) hp fun i hi => ?_
    have hnext := hin (i + 1) (by simpa using hi)
    rw [payload_store hhead]
    simpa only [Nat.cast_add, Nat.cast_one, Heap.store_base, add_comm (i : ℤ), add_assoc] using hnext

/-- What has been done so far is what any client of the heap may do. -/
structure Client (k : Kernel) : Prop where
  run : Reachable Init Step k.state
  writes : ∀ w ∈ k.writes, w.offset + w.length ≤ w.requested

theorem Client.inside {k : Kernel} (h : Client k) : Inside k := by
  obtain ⟨bs, fl, I⟩ := inv_of_reachable h.run
  exact ⟨h.writes, bs, fl, I.owned⟩

theorem Client.store {k : Kernel} (h : Client k) {p : ℤ} {n offset : ℕ} {bytes : List UInt8}
    (hroom : Room k.state p n) (hle : offset + bytes.length ≤ n) :
    Client (k.store p n offset bytes) := by
  refine ⟨storeBytes_reachable h.run hroom.live fun i hi => ?_, fun w hw => ?_⟩
  · have hbyte := hroom.payload (offset + i) (by omega)
    simpa only [Nat.cast_add, add_assoc] using hbyte
  · rcases List.mem_append.mp hw with hw | hw
    · exact h.writes w hw
    · obtain rfl := List.mem_singleton.mp hw
      exact hle

variable {k : Kernel} {bytes : ℕ}

@[simp] theorem new_writes (bytes : ℕ) (k : Kernel) : (new bytes k).1.writes = k.writes := by
  simp only [new]
  split <;> rfl

theorem new_reachable (h : Reachable Init Step k.state) (bytes : ℕ) :
    Reachable Init Step (new bytes k).1.state := by
  simp only [new]
  split
  case h_1 => exact h
  case h_2 h' p hcall =>
    exact h.step (.malloc (bytes % 2 ^ 32) (Nat.mod_lt _ (by norm_num)) hcall)

theorem Client.new (h : Client k) (bytes : ℕ) : Client (new bytes k).1 :=
  ⟨new_reachable h.run bytes, by rw [new_writes]; exact h.writes⟩

theorem new_room (h : Client k) (hpos : bytes ≠ 0) (hsize : bytes ≤ 0xFFFFFFFC) {k' : Kernel}
    {p : ℤ} (hok : new bytes k = (k', .ok p)) : Room k'.state p bytes := by
  obtain ⟨bs, fl, I⟩ := inv_of_reachable h.run
  have hmod : bytes % 2 ^ 32 = bytes := Nat.mod_eq_of_lt (by omega)
  simp only [new, hmod] at hok
  rcases malloc_spec I.wf I.len_le hpos with ⟨-, hm⟩ | ⟨b, hb, hf, t, h', bs', fl', hm, ht⟩
  · simp [hm] at hok
  · simp only [hm, Prod.mk.injEq] at hok
    obtain ⟨rfl, hok⟩ := hok
    split at hok
    case isTrue hzero => nomatch hok
    case isFalse hne =>
      obtain rfl := Except.ok.inj hok
      have hpay : payload h' (address k.state.heap (b.start + 1)) = {j | Payload t j} := by
        have haddr : address k.state.heap (b.start + 1) = address h' (t.start + 1) := by
          simp only [address, ht.base, ht.start]
        rw [haddr]
        exact payload_block ht.wf ((ht.blocks t).mpr (Or.inl rfl))
      have hbig := ht.size_bounds.1
      have hroom := intsFor_room hsize
      refine ⟨?_, fun i hi => ?_⟩
      · simp only [if_neg (not_or.mpr ⟨hpos, hne⟩)]
        exact List.mem_cons_of_mem _ List.mem_cons_self
      · rw [hpay, ht.base, Set.mem_ofPred_eq, ← ht.start]
        simp only [Payload, Block.stop, address]
        omega

/-! ## The handlers -/

theorem andThen_writes {α β : Type} {k : Kernel} {r : Kernel × Except Halt α}
    {f : α → Kernel → Kernel × Except Halt β} (hr : k.writes <+: r.1.writes)
    (hf : ∀ k a, r = (k, .ok a) → k.writes <+: (f a k).1.writes) :
    k.writes <+: (andThen r f).1.writes := by
  refine andThen_rule (P := fun k' => k.writes <+: k'.writes) hr fun k' a hok => ?_
  rw [hok] at hr
  exact hr.trans (hf k' a hok)

theorem store_writes (k : Kernel) (buffer : ℤ) (requested offset : ℕ) (bytes : List UInt8) :
    k.writes <+: (k.store buffer requested offset bytes).writes :=
  List.prefix_append _ _

theorem copyString_writes (s : List UInt8) (k : Kernel) :
    k.writes <+: (copyString s k).1.writes := by
  refine andThen_writes ?_ fun k elem _ => ?_
  · rw [new_writes]
  · exact (store_writes _ _ _ _ _).trans (store_writes _ _ _ _ _)

theorem copyStrings_writes (argvMod : ℤ) (count i : ℕ) (argv : List (List UInt8)) (k : Kernel) :
    k.writes <+: (copyStrings argvMod count i argv k).1.writes := by
  induction argv generalizing i k with
  | nil => exact List.prefix_rfl
  | cons s argv ih =>
    rw [copyStrings]
    refine andThen_writes (copyString_writes s k) fun k elem _ => ?_
    exact (store_writes _ _ _ _ _).trans (ih _ _)

theorem copyPath_writes (path : List UInt8) (k : Kernel) :
    k.writes <+: (copyPath path k).1.writes := by
  refine andThen_writes ?_ fun k buffer _ => store_writes _ _ _ _ _
  rw [new_writes]

theorem terminate_writes (k : Kernel) (argvMod : ℤ) (count : ℕ) (call : Call) :
    k.writes <+: (k.terminate argvMod count call).writes := by
  cases call with
  | execl => exact List.prefix_rfl
  | execvp => exact store_writes _ _ _ _ _

theorem copyString_overrun {s : List UInt8} {k k' : Kernel} {elem : ℤ}
    (h : new s.length k = (k', .ok elem)) :
    ⟨s.length, s.length, 1⟩ ∈ (copyString s k).1.writes := by
  simp [copyString, h, Kernel.store]

theorem copyStrings_overrun {argvMod : ℤ} {count i : ℕ} {s : List UInt8} {argv : List (List UInt8)}
    {k k' : Kernel} {elem : ℤ} (h : new s.length k = (k', .ok elem)) :
    ⟨s.length, s.length, 1⟩ ∈ (copyStrings argvMod count i (s :: argv) k).1.writes := by
  have hmem := copyString_overrun h
  rw [copyStrings]
  refine andThen_rule (P := fun k' => ⟨s.length, s.length, 1⟩ ∈ k'.writes) hmem fun k' elem hok => ?_
  rw [hok] at hmem
  exact (copyStrings_writes _ _ _ _ _).subset ((store_writes _ _ _ _ _).subset hmem)

theorem Client.copyPath {k : Kernel} (h : Client k) (path : List UInt8) :
    Client (copyPath path k).1 := by
  have hnew := h.new (path.length + 1)
  have hlen : (path ++ [0]).length = path.length + 1 := List.length_append
  refine andThen_rule hnew fun k' buffer hok => ?_
  rw [hok] at hnew
  rw [Kernel.memcpy]
  by_cases hshort : path.length + 1 < 2 ^ 31
  · rw [if_pos (hlen ▸ hshort)]
    exact hnew.store (new_room h (by omega) (by omega) hok) (by rw [hlen]; omega)
  · -- too long for `memcpy`, which copies nothing
    rw [if_neg (hlen ▸ hshort)]
    refine ⟨hnew.run, fun w hw => ?_⟩
    rcases List.mem_append.mp hw with hw | hw
    · exact hnew.writes w hw
    · obtain rfl := List.mem_singleton.mp hw
      exact Nat.zero_le _

theorem Client.copyArguments_nil {k : Kernel} (h : Client k) (call : Call) (path : List UInt8) :
    Client (copyArguments call path [] k).1 := by
  have hnew := h.new (arrayBytes (([] : List (List UInt8)).length + 1))
  refine andThen_rule hnew fun k' argvMod hok => ?_
  rw [hok] at hnew
  refine Client.copyPath ?_ path
  cases call with
  | execl => exact hnew
  | execvp => exact hnew.store (new_room h (by decide) (by decide) hok) le_rfl

theorem Client.copyArguments_noRoom {k : Kernel} (h : Client k) {argv : List (List UInt8)}
    (hroom : NoRoom argv k) (hne : argv ≠ []) (call : Call) (path : List UInt8) :
    Client (copyArguments call path argv k).1 := by
  obtain ⟨s, rest, rfl⟩ := List.exists_cons_of_ne_nil hne
  have hnew := h.new (arrayBytes ((s :: rest).length + 1))
  refine andThen_rule hnew fun k' argvMod hok => ?_
  rw [hok] at hnew
  rw [NoRoom, hok] at hroom
  obtain ⟨e, he⟩ := hroom
  have hfirst := hnew.new s.length
  have hstop : Exec.new s.length k' = ((Exec.new s.length k').1, .error e) := Prod.ext rfl he
  simp only [copyStrings, copyString]
  rw [hstop]
  exact hfirst

theorem copyArguments_overrun {k : Kernel} {argv : List (List UInt8)} (hne : argv ≠ [])
    (hroom : ¬ NoRoom argv k) (call : Call) (path : List UInt8) :
    ∃ s ∈ argv, ⟨s.length, s.length, 1⟩ ∈ (copyArguments call path argv k).1.writes := by
  obtain ⟨s, rest, rfl⟩ := List.exists_cons_of_ne_nil hne
  refine ⟨s, List.mem_cons_self, ?_⟩
  rw [NoRoom, not_exists] at hroom
  rcases hcall : new (arrayBytes ((s :: rest).length + 1)) k with ⟨k', e | argvMod⟩
  · rw [hcall] at hroom
    exact absurd rfl (hroom e)
  rw [hcall] at hroom
  rcases hstring : new s.length k' with ⟨k'', e | elem⟩
  · exact absurd (congrArg Prod.snd hstring) (hroom e)
  have hmem : ⟨s.length, s.length, 1⟩ ∈
      (copyStrings argvMod (s :: rest).length 0 (s :: rest) k').1.writes :=
    copyStrings_overrun hstring
  simp only [copyArguments, hcall]
  refine andThen_rule (P := fun k' => ⟨s.length, s.length, 1⟩ ∈ k'.writes) hmem fun k' _ hok => ?_
  rw [hok] at hmem
  exact (copyPath_writes _ _).subset ((terminate_writes _ _ _ _).subset hmem)

/-- A string that fills its block: its zero falls on the footer, which survives that only where its
low byte is zero anyway. -/
theorem copyString_footer {s : List UInt8} {k k' : Kernel} {elem : ℤ} {ps : List ℤ}
    {bs : List Block} {fl : List ℤ} {t : Block} (hok : new s.length k = (k', .ok elem))
    (O : Owned k'.state.heap ps bs fl) (ht : t ∈ bs) (hf : t.free = false)
    (helem : elem = address k'.state.heap (t.start + 1)) (hfull : s.length = 4 * (t.size - 2)) :
    (copyString s k).1.state.heap.array (t.stop - 1) = -t.size ↔ 256 ∣ t.size := by
  have hfooter : k'.state.heap.array (t.stop - 1) = -t.size := by
    rw [O.wf.threaded.footer t ht, tag, hf]
    rfl
  have hbounds := O.wf.tiles.bounds ht
  have hlen := O.len_le
  simp only [Block.stop] at hbounds
  set h₁ := storeBytes k'.state.heap elem (if s.length < 2 ^ 31 then s else []) with hh₁
  have hbase : h₁.base = k'.state.heap.base := storeBytes_base ..
  -- the string itself ends in front of the footer
  have hkept : h₁.array (t.stop - 1) = -t.size := by
    rw [hh₁, storeBytes_array fun i hi => ?_, hfooter]
    have hi' : i < s.length := by
      split at hi
      · exact hi
      · exact absurd hi (Nat.not_lt_zero i)
    simp only [helem, address, Block.stop]
    omega
  have hword : (elem + s.length - h₁.base) / 4 = t.stop - 1 ∧
      (elem + s.length - h₁.base) % 4 = 0 := by
    rw [hbase]
    simp only [helem, address, Block.stop]
    omega
  have hcopy : (copyString s k).1.state.heap = UserHeap.setByte h₁ (elem + s.length) 0 := by
    simp [copyString, hok, Kernel.memcpy, Kernel.store, storeBytes, hh₁]
  rw [hcopy, UserHeap.setByte, hword.1, hword.2, Heap.store_self, hkept, UserHeap.lane]
  simp only [Int.toNat_zero, pow_zero, mul_one, Int.ediv_one]
  rw [Int.bmod_eq_of_le (by omega) (by omega)]
  omega

/-- Argument copying stays inside its buffers if and only if there are no arguments, or no room
to copy the first of them. -/
theorem copyArguments_inside_iff {s : KernelHeap.State} (h : Reachable Init Step s) (call : Call)
    (path : List UInt8) (argv : List (List UInt8)) :
    Inside (copyArguments call path argv ⟨s, []⟩).1 ↔ argv = [] ∨ NoRoom argv ⟨s, []⟩ := by
  have hclient : Client ⟨s, []⟩ := ⟨h, by simp⟩
  by_cases hne : argv = []
  · subst hne
    exact iff_of_true (hclient.copyArguments_nil call path).inside (Or.inl rfl)
  by_cases hroom : NoRoom argv ⟨s, []⟩
  · exact iff_of_true (hclient.copyArguments_noRoom hroom hne call path).inside (Or.inr hroom)
  refine iff_of_false (fun hin => ?_) (not_or.mpr ⟨hne, hroom⟩)
  obtain ⟨t, -, hw⟩ := copyArguments_overrun hne hroom call path
  have hle := hin.writes _ hw
  simp only at hle
  omega

theorem smallHeap_reachable : ∃ h lock, heapInit 0x100000 200 (fun _ => 0) = some (h, lock) ∧
    Reachable Init Step ⟨h, lock, []⟩ := by
  obtain ⟨⟨h, lock⟩, hr⟩ := Option.isSome_iff_exists.mp
    (show (heapInit 0x100000 200 fun _ => 0).isSome = true by decide)
  exact ⟨h, lock, hr, .init (.heapInit (by norm_num) (by norm_num) (by norm_num) hr)⟩

theorem noArguments_inside : ∃ s : KernelHeap.State, s.live = [] ∧
    Inside (copyArguments .execvp [115] [] ⟨s, []⟩).1 := by
  obtain ⟨h, lock, -, hs⟩ := smallHeap_reachable
  exact ⟨_, rfl, (copyArguments_inside_iff hs .execvp [115] []).mpr (Or.inl rfl)⟩

/-- An argument of eight letters fills its block, and the zero behind it changes the footer. -/
theorem eightLetters_overrun : ∃ s, Reachable Init Step s ∧
    ¬ Inside (copyArguments .execl [115] [List.replicate 8 97] ⟨s, []⟩).1 ∧
    (copyArguments .execl [115] [List.replicate 8 97] ⟨s, []⟩).1.state.heap.array 16 = -4 ∧
    (copyArguments .execl [115] [List.replicate 8 97] ⟨s, []⟩).1.state.heap.array 19 = -256 := by
  obtain ⟨h, lock, hr, hs⟩ := smallHeap_reachable
  have hrun : ((heapInit 0x100000 200 fun _ => 0).map fun r =>
      let k := (copyArguments .execl [115] [List.replicate 8 97] ⟨⟨r.1, r.2, []⟩, []⟩).1
      (k.writes, k.state.heap.array 16, k.state.heap.array 19)) =
      some ([⟨8, 0, 8⟩, ⟨8, 8, 1⟩, ⟨8, 0, 4⟩, ⟨2, 0, 2⟩], -4, -256) := by decide +kernel
  rw [hr, Option.map_some, Option.some.injEq, Prod.mk.injEq, Prod.mk.injEq] at hrun
  obtain ⟨hwrites, hheader, hfooter⟩ := hrun
  refine ⟨_, hs, fun hin => ?_, hheader, hfooter⟩
  have hle := hin.writes ⟨8, 8, 1⟩ (by rw [hwrites]; simp)
  exact absurd hle (by decide)

end OsShell.Exec
