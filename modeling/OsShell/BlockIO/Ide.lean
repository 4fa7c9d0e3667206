import OsShell.Ext2.Node
import OsShell.Library.Runs

/-!
# The drive

`read_block` of the IDE driver asks the controller for one sector and polls it until the
words of the sector can be fetched. Any number of cores call it; every access to a
port is a step, and in between the controller works on its own. What the controller is
stands open: `Pio` says what a driver may rely on when it reads sectors by programmed
input. The address of a sector has 28 bits there.
-/

namespace OsShell.Ide

open Bytes Runs
open Relation (ReflTransGen)

/-! ## The controller -/

/-- What hangs on the ports: each access returns, and may change what hangs there. -/
structure Bus where
  State : Type
  inb : ℕ → State → UInt8 → State → Prop
  outb : ℕ → UInt8 → State → State → Prop
  inl : ℕ → State → ℕ → State → Prop
  /-- without an access -/
  work : State → State → Prop

def controller (drive : ℕ) : ℕ := drive / 2 % 2

def channel (drive : ℕ) : ℕ := drive % 2

def port (drive : ℕ) : ℕ := if controller drive = 0 then 0x1f0 else 0x170

def ERR : UInt8 := 0x01
def DRQ : UInt8 := 0x08
def DF : UInt8 := 0x20
def DRDY : UInt8 := 0x40
def BSY : UInt8 := 0x80

inductive Phase
  /-- no command is under way; the registers from the sector count on -/
  | ready (r : ℕ → UInt8)
  | reading (sector : ℕ)
  /-- the word with this number is the next one -/
  | transfer (sector i : ℕ)

def lba (r : ℕ → UInt8) : ℕ :=
  (r 1).toNat + 2 ^ 8 * (r 2).toNat + 2 ^ 16 * (r 3).toNat + 2 ^ 24 * ((r 4).toNat % 16)

/-- One sector is asked for, by its number, of the drive on this channel. -/
def Asks (r : ℕ → UInt8) (ch : ℕ) : Prop :=
  r 0 = 1 ∧ (r 4).toNat / 16 = 0xe + ch

/-- The drive behind `bus` has the content `disk` and reports no errors. -/
structure Pio (bus : Bus) (drive : ℕ) (disk : Buffer) where
  phase : bus.State → Phase
  work : ∀ {d d'}, bus.work d d' → phase d' = phase d ∨
    ∃ b, phase d = .reading b ∧ phase d' = .transfer b 0
  status : ∀ {d v d'}, bus.inb (port drive + 7) d v d' → phase d' = phase d ∧
    v &&& (ERR ||| DF) = 0 ∧ v &&& DRDY ≠ 0 ∧
    (v &&& BSY ≠ 0 ↔ ∃ b, phase d = .reading b) ∧ (v &&& DRQ ≠ 0 ∨ ∀ b i, phase d ≠ .transfer b i)
  register : ∀ {d d' r i v}, i < 5 → bus.outb (port drive + 2 + i) v d d' → phase d = .ready r →
    phase d' = .ready (Function.update r i v)
  command : ∀ {d d' r}, bus.outb (port drive + 2 + 5) 0x20 d d' → phase d = .ready r →
    Asks r (channel drive) → phase d' = .reading (lba r)
  word : ∀ {d w d' b i}, bus.inl (port drive) d w d' → phase d = .transfer b i →
    w = le32 disk (b * 512 + i * 4) ∧
      if i + 1 = 128 then ∃ r, phase d' = .ready r else phase d' = .transfer b (i + 1)
  status_exists : ∀ d, ∃ v d', bus.inb (port drive + 7) d v d'
  write_exists : ∀ d i v, ∃ d', bus.outb (port drive + 2 + i) v d d'
  word_exists : ∀ d, ∃ w d', bus.inl (port drive) d w d'
  work_exists : ∀ d b, phase d = .reading b → ∃ d', bus.work d d' ∧ phase d' = .transfer b 0

/-! ## The driver -/

/-- `read_block(sector, buffer)`, where the pointer stands at `p`. -/
structure Call where
  sector : ℕ
  p : ℕ
  buffer : Buffer

inductive Pc
  | outside
  | locking
  /-- `waitForDrive`, before the command or after it -/
  | check (second : Bool)
  | wait (second : Bool)
  /-- about to write register `i`, counted from the sector count -/
  | out (i : ℕ)
  | data
  | copy (i : ℕ)
  | unlock
  | finished
  | panic
deriving DecidableEq

def Pc.Inside : Pc → Prop
  | .outside | .locking | .finished => False
  | _ => True

instance (p : Pc) : Decidable p.Inside := by
  cases p <;> simp only [Pc.Inside] <;> infer_instance

def value (drive sector : ℕ) : ℕ → UInt8
  | 0 => 1
  | 1 => .ofNat (sector >>> 0)
  | 2 => .ofNat (sector >>> 8)
  | 3 => .ofNat (sector >>> 16)
  | 4 => .ofNat (0xe0 ||| (channel drive <<< 4) ||| ((sector >>> 24) &&& 0xf))
  | _ => 0x20

def afterCheck (second : Bool) (v : UInt8) : Pc :=
  if v &&& (ERR ||| DF) ≠ 0 then .panic
  else if v &&& DRDY = 0 then .panic
  else .wait second

def afterWait (second : Bool) (v : UInt8) : Pc :=
  if v &&& BSY ≠ 0 then .wait second else if second then .data else .out 0

/-- What one core does between `lock` and `unlock`, step by step: the bus, the core's buffer and
where it is. -/
inductive Act (bus : Bus) (drive : ℕ) (c : Call) :
    bus.State × Buffer × Pc → bus.State × Buffer × Pc → Prop
  | check {d d' : bus.State} {b : Buffer} {second : Bool} {v : UInt8}
      (h : bus.inb (port drive + 7) d v d') :
    Act bus drive c (d, b, .check second) (d', b, afterCheck second v)
  | wait {d d' : bus.State} {b : Buffer} {second : Bool} {v : UInt8}
      (h : bus.inb (port drive + 7) d v d') :
    Act bus drive c (d, b, .wait second) (d', b, afterWait second v)
  | out {d d' : bus.State} {b : Buffer} {i : ℕ}
      (h : bus.outb (port drive + 2 + i) (value drive c.sector i) d d') :
    Act bus drive c (d, b, .out i) (d', b, if i = 5 then .check true else .out (i + 1))
  | data {d d' : bus.State} {b : Buffer} {v : UInt8} (h : bus.inb (port drive + 7) d v d') :
    Act bus drive c (d, b, .data) (d', b, if v &&& DRQ = 0 then .data else .copy 0)
  | copy {d d' : bus.State} {b : Buffer} {i w : ℕ} (h : bus.inl (port drive) d w d') :
    Act bus drive c (d, b, .copy i) (d', put (c.p + i * 4) 4 (fun j => (word w).getD j 0) b,
      if i + 1 = 128 then .unlock else .copy (i + 1))

structure State (K : Type*) (bus : Bus) where
  device : bus.State
  holder : Option K
  nRead : ℕ
  call : K → Call
  buffer : K → Buffer
  pc : K → Pc

variable {K : Type*} [DecidableEq K] {bus : Bus} {drive : ℕ} {disk : Buffer}

def wanted (disk : Buffer) (c : Call) : Buffer :=
  put c.p 512 (fun i => disk (c.sector % 2 ^ 28 * 512 + i)) c.buffer

inductive Step (bus : Bus) (drive : ℕ) : State K bus → State K bus → Prop
  | work {s : State K bus} {d : bus.State} (h : bus.work s.device d) :
    Step bus drive s { s with device := d }
  | call {s : State K bus} (k : K) (c : Call) (hpc : s.pc k = .outside ∨ s.pc k = .finished) :
    Step bus drive s { s with
      call := Function.update s.call k c
      buffer := Function.update s.buffer k c.buffer
      pc := Function.update s.pc k .locking }
  | lock {s : State K bus} (k : K) (hpc : s.pc k = .locking) (hfree : s.holder = none) :
    Step bus drive s { s with
      holder := some k
      nRead := (s.nRead + 1) % 2 ^ 32
      pc := Function.update s.pc k (.check false) }
  | act {s : State K bus} (k : K) {d : bus.State} {b : Buffer} {p : Pc}
      (h : Act bus drive (s.call k) (s.device, s.buffer k, s.pc k) (d, b, p)) :
    Step bus drive s { s with
      device := d
      buffer := Function.update s.buffer k b
      pc := Function.update s.pc k p }
  | unlock {s : State K bus} (k : K) (hpc : s.pc k = .unlock) :
    Step bus drive s { s with holder := none, pc := Function.update s.pc k .finished }

structure Init (pio : Pio bus drive disk) (s : State K bus) : Prop where
  ready : ∃ r, pio.phase s.device = .ready r
  free : s.holder = none
  outside : ∀ k, s.pc k = .outside

/-! ## One call -/

section Act

variable (pio : Pio bus drive disk) (c : Call)

def Stage : bus.State × Buffer × Pc → Prop
  | (d, b, .check false) | (d, b, .wait false) => b = c.buffer ∧ ∃ r, pio.phase d = .ready r
  | (d, b, .out i) => b = c.buffer ∧ i < 6 ∧ ∃ r, pio.phase d = .ready r ∧
      ∀ j < i, j < 5 → r j = value drive c.sector j
  | (d, b, .check true) | (d, b, .wait true) => b = c.buffer ∧
      (pio.phase d = .reading (c.sector % 2 ^ 28) ∨ pio.phase d = .transfer (c.sector % 2 ^ 28) 0)
  | (d, b, .data) => b = c.buffer ∧ pio.phase d = .transfer (c.sector % 2 ^ 28) 0
  | (d, b, .copy i) => i < 128 ∧ pio.phase d = .transfer (c.sector % 2 ^ 28) i ∧
      b = put c.p (i * 4) (fun j => disk (c.sector % 2 ^ 28 * 512 + j)) c.buffer
  | (d, b, .unlock) => b = wanted disk c ∧ ∃ r, pio.phase d = .ready r
  | (_, b, .finished) => b = wanted disk c
  | (_, b, .locking) => b = c.buffer
  | (_, _, .outside) => True
  | (_, _, .panic) => False

variable {pio c}

theorem asks_of_values {r : ℕ → UInt8}
    (hr : ∀ j < 5, r j = value drive c.sector j) :
    Asks r (channel drive) ∧ lba r = c.sector % 2 ^ 28 := by
  have hch : channel drive < 2 := Nat.mod_lt _ (by decide)
  have hnibble : (c.sector >>> 24) &&& 0xf = c.sector / 2 ^ 24 % 16 := by
    rw [Nat.shiftRight_eq_div_pow, show (0xf : ℕ) = 2 ^ 4 - 1 from rfl, Nat.and_two_pow_sub_one_eq_mod]
  have hdevice : ∀ ch < 2, ∀ x < 16, (UInt8.ofNat (0xe0 ||| (ch <<< 4) ||| x)).toNat =
      16 * (0xe + ch) + x := by decide
  have hlast : (r 4).toNat = 16 * (0xe + channel drive) + c.sector / 2 ^ 24 % 16 := by
    rw [hr 4 (by decide), value, hnibble]
    exact hdevice _ hch _ (Nat.mod_lt _ (by decide))
  have hlow : (r 1).toNat = c.sector % 2 ^ 8 := by
    rw [hr 1 (by decide), value, UInt8.toNat_ofNat', Nat.shiftRight_zero]
  have hmid : (r 2).toNat = c.sector / 2 ^ 8 % 2 ^ 8 := by
    rw [hr 2 (by decide), value, UInt8.toNat_ofNat', Nat.shiftRight_eq_div_pow]
  have hhigh : (r 3).toNat = c.sector / 2 ^ 16 % 2 ^ 8 := by
    rw [hr 3 (by decide), value, UInt8.toNat_ofNat', Nat.shiftRight_eq_div_pow]
  refine ⟨⟨hr 0 (by decide), by rw [hlast]; omega⟩, ?_⟩
  rw [lba, hlast, hlow, hmid, hhigh]
  omega

theorem put_word (q p : ℕ) (b : Buffer) :
    put p 4 (fun j => (word (le32 disk q)).getD j 0) b = put p 4 (fun j => disk (q + j)) b := by
  have hbyte : ∀ n, (UInt8.ofNat n).toNat = n % 2 ^ 8 := fun n => UInt8.toNat_ofNat'
  have h0 := (disk q).toNat_lt
  have h1 := (disk (q + 1)).toNat_lt
  have h2 := (disk (q + 2)).toNat_lt
  have h3 := (disk (q + 3)).toNat_lt
  refine put_congr b fun j hj => UInt8.toNat_inj.mp ?_
  have hcases : j = 0 ∨ j = 1 ∨ j = 2 ∨ j = 3 := by omega
  rcases hcases with rfl | rfl | rfl | rfl
  all_goals
    simp only [word, le32, le16, List.getD_cons_zero, List.getD_cons_succ, hbyte, Nat.add_assoc,
      Nat.reduceAdd, Nat.add_zero]
    omega

theorem Stage.act {x y : bus.State × Buffer × Pc} (h : Stage pio c x) (ha : Act bus drive c x y) :
    Stage pio c y := by
  cases ha with
  | @check d d' b second v hin =>
    obtain ⟨hphase, hok, hready, -⟩ := pio.status hin
    rw [afterCheck, if_neg (not_not.mpr hok), if_neg hready]
    cases second with
    | false => exact ⟨h.1, by rw [hphase]; exact h.2⟩
    | true => exact ⟨h.1, by rw [hphase]; exact h.2⟩
  | @wait d d' b second v hin =>
    obtain ⟨hphase, -, -, hbusy, -⟩ := pio.status hin
    rw [afterWait]
    by_cases hbsy : v &&& BSY ≠ 0
    · rw [if_pos hbsy]
      cases second with
      | false => exact ⟨h.1, by rw [hphase]; exact h.2⟩
      | true => exact ⟨h.1, by rw [hphase]; exact h.2⟩
    · rw [if_neg hbsy]
      cases second with
      | false =>
        obtain ⟨hb, r, hr⟩ := h
        exact ⟨hb, by decide, r, hphase.trans hr, fun j hj => absurd hj (Nat.not_lt_zero j)⟩
      | true =>
        refine ⟨h.1, hphase.trans (h.2.resolve_left fun hreading => ?_)⟩
        exact hbsy (hbusy.mpr ⟨_, hreading⟩)
  | @out d d' b i hout =>
    obtain ⟨hb, hi, r, hr, hvalues⟩ := h
    by_cases hlast : i = 5
    · obtain rfl := hlast
      obtain ⟨hasks, hlba⟩ := asks_of_values fun j hj => hvalues j hj hj
      rw [if_pos rfl]
      exact ⟨hb, Or.inl (by rw [pio.command hout hr hasks, hlba])⟩
    · rw [if_neg hlast]
      refine ⟨hb, by omega, _, pio.register (by omega) hout hr, fun j hj hj5 => ?_⟩
      by_cases hji : j = i
      · rw [hji, Function.update_self]
      · rw [Function.update_of_ne hji]
        exact hvalues j (by omega) hj5
  | @data d d' b v hin =>
    obtain ⟨hphase, -, -, -, hdrq⟩ := pio.status hin
    obtain ⟨hb, htransfer⟩ := h
    have hset : v &&& DRQ ≠ 0 := hdrq.resolve_right fun hno => hno _ _ htransfer
    rw [if_neg hset]
    exact ⟨by decide, hphase.trans htransfer, by rw [hb, Nat.zero_mul, put_zero]⟩
  | @copy d d' b i w hin =>
    obtain ⟨hi, htransfer, hb⟩ := h
    obtain ⟨hw, hnext⟩ := pio.word hin htransfer
    have hput : put (c.p + i * 4) 4 (fun j => (word w).getD j 0) b =
        put c.p ((i + 1) * 4) (fun j => disk (c.sector % 2 ^ 28 * 512 + j)) c.buffer := by
      rw [hw, put_word, hb, Nat.succ_mul,
        ← put_put c.p (i * 4) 4 (fun j => disk (c.sector % 2 ^ 28 * 512 + j)) c.buffer]
      exact put_congr _ fun j _ => by rw [Nat.add_assoc]
    by_cases hlast : i + 1 = 128
    · rw [if_pos hlast] at hnext ⊢
      exact ⟨by rw [hput, hlast]; rfl, hnext⟩
    · rw [if_neg hlast] at hnext ⊢
      exact ⟨by omega, hnext, hput⟩

theorem Stage.work {d d' : bus.State} {b : Buffer} {p : Pc} (h : Stage pio c (d, b, p))
    (hw : bus.work d d') : Stage pio c (d', b, p) := by
  -- only a drive that reads changes its phase
  have hready : (∃ r, pio.phase d = .ready r) → pio.phase d' = pio.phase d := fun ⟨r, hr⟩ =>
    (pio.work hw).resolve_right fun ⟨a, ha, _⟩ => by
      rw [hr] at ha
      cases ha
  have htransfer : ∀ a i, pio.phase d = .transfer a i → pio.phase d' = pio.phase d := fun a i hi =>
    (pio.work hw).resolve_right fun ⟨a, ha, _⟩ => by
      rw [hi] at ha
      cases ha
  have hcommand : ∀ a, pio.phase d = .reading a ∨ pio.phase d = .transfer a 0 →
      pio.phase d' = .reading a ∨ pio.phase d' = .transfer a 0 := by
    rintro a (ha | ha)
    · rcases pio.work hw with hsame | ⟨a', ha', hdone⟩
      · exact Or.inl (hsame.trans ha)
      · rw [ha] at ha'
        exact Or.inr (Phase.reading.inj ha' ▸ hdone)
    · exact Or.inr ((htransfer a 0 ha).trans ha)
  cases p with
  | outside => trivial
  | locking => exact h
  | finished => exact h
  | panic => exact h
  | data => exact ⟨h.1, (htransfer _ _ h.2).trans h.2⟩
  | copy i => exact ⟨h.1, (htransfer _ _ h.2.1).trans h.2.1, h.2.2⟩
  | unlock => exact ⟨h.1, by rw [hready h.2]; exact h.2⟩
  | out i =>
    obtain ⟨hb, hi, r, hr, hvalues⟩ := h
    exact ⟨hb, hi, r, (hready ⟨r, hr⟩).trans hr, hvalues⟩
  | check second =>
    cases second with
    | false => exact ⟨h.1, by rw [hready h.2]; exact h.2⟩
    | true => exact ⟨h.1, hcommand _ h.2⟩
  | wait second =>
    cases second with
    | false => exact ⟨h.1, by rw [hready h.2]; exact h.2⟩
    | true => exact ⟨h.1, hcommand _ h.2⟩

theorem Stage.of_outside {d d' : bus.State} {b : Buffer} {p : Pc} (h : Stage pio c (d, b, p))
    (hp : ¬ p.Inside) : Stage pio c (d', b, p) := by
  cases p with
  | outside => trivial
  | locking => exact h
  | finished => exact h
  | _ => exact absurd trivial hp

theorem act_inside {x y : bus.State × Buffer × Pc} (ha : Act bus drive c x y) :
    x.2.2.Inside ∧ y.2.2.Inside := by
  cases ha with
  | @check d d' b second v hin =>
    refine ⟨trivial, ?_⟩
    unfold afterCheck
    split
    · trivial
    · split <;> trivial
  | @wait d d' b second v hin =>
    refine ⟨trivial, ?_⟩
    unfold afterWait
    split
    · trivial
    · split <;> trivial
  | out hout =>
    refine ⟨trivial, ?_⟩
    change Pc.Inside (if _ then _ else _)
    split <;> trivial
  | data hin =>
    refine ⟨trivial, ?_⟩
    change Pc.Inside (if _ then _ else _)
    split <;> trivial
  | copy hin =>
    refine ⟨trivial, ?_⟩
    change Pc.Inside (if _ then _ else _)
    split <;> trivial

end Act

/-! ## All cores -/

structure Inv (pio : Pio bus drive disk) (s : State K bus) : Prop where
  ready : s.holder = none → ∃ r, pio.phase s.device = .ready r
  holder : ∀ k, (s.pc k).Inside ↔ s.holder = some k
  stage : ∀ k, Stage pio (s.call k) (s.device, s.buffer k, s.pc k)

variable {pio : Pio bus drive disk} {s t : State K bus} {k : K}

omit [DecidableEq K] in
theorem inv_of_init (h : Init pio s) : Inv pio s where
  ready _ := h.ready
  holder k := by
    rw [h.outside k, h.free]
    exact iff_of_false id nofun
  stage k := by
    rw [h.outside k]
    trivial

omit [DecidableEq K] in
theorem Inv.other (I : Inv pio s) {j : K} (hk : s.holder = none ∨ s.holder = some k) (hj : j ≠ k)
    (d : bus.State) : Stage pio (s.call j) (d, s.buffer j, s.pc j) ∧ ¬ (s.pc j).Inside := by
  have hout : ¬ (s.pc j).Inside := fun hin => by
    have hholder := (I.holder j).mp hin
    rcases hk with hk | hk
    · rw [hk] at hholder
      cases hholder
    · rw [hk] at hholder
      exact hj (Option.some.inj hholder).symm
  exact ⟨(I.stage j).of_outside hout, hout⟩

theorem Inv.step (I : Inv pio s) (h : Step bus drive s t) : Inv pio t := by
  cases h with
  | work hw =>
    refine ⟨fun hfree => ?_, I.holder, fun k => (I.stage k).work hw⟩
    obtain ⟨r, hr⟩ := I.ready hfree
    refine ⟨r, ?_⟩
    rcases pio.work hw with hsame | ⟨b, hb, -⟩
    · exact hsame.trans hr
    · rw [hr] at hb
      cases hb
  | call k c hpc =>
    have hout : ¬ (s.pc k).Inside := by
      rcases hpc with hpc | hpc <;> (rw [hpc]; exact id)
    refine ⟨I.ready, fun j => ?_, fun j => ?_⟩
    · change (Function.update s.pc k .locking j).Inside ↔ _
      by_cases hj : j = k
      · rw [hj, Function.update_self, ← I.holder k]
        exact iff_of_false id hout
      · rw [Function.update_of_ne hj, I.holder j]
    · change Stage pio (Function.update s.call k c j)
        (s.device, Function.update s.buffer k c.buffer j, Function.update s.pc k .locking j)
      by_cases hj : j = k
      · rw [hj, Function.update_self, Function.update_self, Function.update_self]
        rfl
      · rw [Function.update_of_ne hj, Function.update_of_ne hj, Function.update_of_ne hj]
        exact I.stage j
  | lock k hpc hfree =>
    refine ⟨nofun, fun j => ?_, fun j => ?_⟩
    · change (Function.update s.pc k (.check false) j).Inside ↔ some k = some j
      by_cases hj : j = k
      · rw [hj, Function.update_self]
        exact iff_of_true trivial rfl
      · rw [Function.update_of_ne hj, Option.some.injEq]
        exact iff_of_false (I.other (Or.inl hfree) hj s.device).2 (Ne.symm hj)
    · change Stage pio (s.call j) (s.device, s.buffer j, Function.update s.pc k (.check false) j)
      by_cases hj : j = k
      · have hlocking := I.stage k
        rw [hpc] at hlocking
        rw [hj, Function.update_self]
        exact ⟨hlocking, I.ready hfree⟩
      · rw [Function.update_of_ne hj]
        exact I.stage j
  | @act k d b p ha =>
    obtain ⟨hin, hin'⟩ := act_inside ha
    have hholder := (I.holder k).mp hin
    refine ⟨fun hfree => ?_, fun j => ?_, fun j => ?_⟩
    · change s.holder = none at hfree
      rw [hholder] at hfree
      cases hfree
    · change (Function.update s.pc k p j).Inside ↔ s.holder = some j
      by_cases hj : j = k
      · rw [hj, Function.update_self]
        exact iff_of_true hin' hholder
      · rw [Function.update_of_ne hj]
        exact I.holder j
    · change Stage pio (s.call j) (d, Function.update s.buffer k b j, Function.update s.pc k p j)
      by_cases hj : j = k
      · rw [hj, Function.update_self, Function.update_self]
        exact (I.stage k).act ha
      · rw [Function.update_of_ne hj, Function.update_of_ne hj]
        exact (I.other (Or.inr hholder) hj d).1
  | unlock k hpc =>
    have hholder := (I.holder k).mp (by rw [hpc]; trivial)
    have hdone := I.stage k
    rw [hpc] at hdone
    refine ⟨fun _ => hdone.2, fun j => ?_, fun j => ?_⟩
    · change (Function.update s.pc k .finished j).Inside ↔ none = some j
      refine iff_of_false (fun hin => ?_) nofun
      by_cases hj : j = k
      · rw [hj, Function.update_self] at hin
        exact hin
      · rw [Function.update_of_ne hj] at hin
        exact (I.other (Or.inr hholder) hj s.device).2 hin
    · change Stage pio (s.call j) (s.device, s.buffer j, Function.update s.pc k .finished j)
      by_cases hj : j = k
      · rw [hj, Function.update_self]
        exact hdone.1
      · rw [Function.update_of_ne hj]
        exact I.stage j

theorem Inv.of_reachable (h : Reachable (Init (K := K) pio) (Step bus drive) s) : Inv pio s :=
  h.invariant (fun _ => inv_of_init) fun _ _ I hst => I.step hst

/-! ## Calls come to their end -/

section Progress

variable (bus drive) (c : Call)

/-- A step of the core in its call, or of the controller. -/
def Local (x y : bus.State × Buffer × Pc) : Prop :=
  Act bus drive c x y ∨ bus.work x.1 y.1 ∧ y.2 = x.2

def Ends (x : bus.State × Buffer × Pc) : Prop :=
  ∃ d b, ReflTransGen (Local bus drive c) x (d, b, .unlock)

variable {bus drive c}

theorem Ends.of_act {x y : bus.State × Buffer × Pc} (ha : Act bus drive c x y)
    (h : Ends bus drive c y) : Ends bus drive c x := by
  obtain ⟨d, b, hsteps⟩ := h
  exact ⟨d, b, hsteps.head (Or.inl ha)⟩

theorem ends_copy {n i : ℕ} {d : bus.State} {b : Buffer} (hn : i + n = 128)
    (h : Stage pio c (d, b, .copy i)) : Ends bus drive c (d, b, .copy i) := by
  induction n generalizing i d b with
  | zero =>
    have := h.1
    omega
  | succ n ih =>
    obtain ⟨w, d', hin⟩ := pio.word_exists d
    have ha := Act.copy (c := c) (b := b) (i := i) hin
    have hnext := h.act ha
    refine Ends.of_act ha ?_
    by_cases hlast : i + 1 = 128
    · rw [if_pos hlast]
      exact ⟨d', _, .refl⟩
    · rw [if_neg hlast] at hnext ⊢
      exact ih (by omega) hnext

theorem ends_data {d : bus.State} {b : Buffer} (h : Stage pio c (d, b, .data)) :
    Ends bus drive c (d, b, .data) := by
  obtain ⟨v, d', hin⟩ := pio.status_exists d
  have ha := Act.data (c := c) (b := b) hin
  have hnext := h.act ha
  have hset : v &&& DRQ ≠ 0 := (pio.status hin).2.2.2.2.resolve_right fun hno => hno _ _ h.2
  refine Ends.of_act ha ?_
  rw [if_neg hset] at hnext ⊢
  exact ends_copy (n := 128) (by decide) hnext

theorem ends_wait_transfer {d : bus.State} {b : Buffer} (h : Stage pio c (d, b, .wait true))
    (ht : pio.phase d = .transfer (c.sector % 2 ^ 28) 0) :
    Ends bus drive c (d, b, .wait true) := by
  obtain ⟨v, d', hin⟩ := pio.status_exists d
  have ha : Act bus drive c (d, b, .wait true) (d', b, afterWait true v) := .wait hin
  have hnext := h.act ha
  have hidle : ¬ v &&& BSY ≠ 0 := fun hbsy => by
    obtain ⟨a, hreading⟩ := (pio.status hin).2.2.2.1.mp hbsy
    rw [ht] at hreading
    cases hreading
  refine Ends.of_act ha ?_
  rw [afterWait, if_neg hidle, if_pos rfl] at hnext ⊢
  exact ends_data hnext

theorem ends_wait_second {d : bus.State} {b : Buffer} (h : Stage pio c (d, b, .wait true)) :
    Ends bus drive c (d, b, .wait true) := by
  rcases h.2 with hreading | ht
  · obtain ⟨d', hwork, ht⟩ := pio.work_exists d _ hreading
    obtain ⟨e, b', hsteps⟩ := ends_wait_transfer (h.work hwork) ht
    have hlocal : Local bus drive c (d, b, .wait true) (d', b, .wait true) := Or.inr ⟨hwork, rfl⟩
    exact ⟨e, b', hsteps.head hlocal⟩
  · exact ends_wait_transfer h ht

theorem ends_check {second : Bool} {d : bus.State} {b : Buffer}
    (h : Stage pio c (d, b, .check second))
    (hwait : ∀ d', Stage pio c (d', b, .wait second) → Ends bus drive c (d', b, .wait second)) :
    Ends bus drive c (d, b, .check second) := by
  obtain ⟨v, d', hin⟩ := pio.status_exists d
  have ha : Act bus drive c (d, b, .check second) (d', b, afterCheck second v) := .check hin
  have hnext := h.act ha
  obtain ⟨-, hok, hready, -⟩ := pio.status hin
  refine Ends.of_act ha ?_
  rw [afterCheck, if_neg (not_not.mpr hok), if_neg hready] at hnext ⊢
  exact hwait d' hnext

theorem ends_out {n i : ℕ} {d : bus.State} {b : Buffer} (hn : i + n = 5)
    (h : Stage pio c (d, b, .out i)) : Ends bus drive c (d, b, .out i) := by
  induction n generalizing i d with
  | zero =>
    obtain ⟨d', hout⟩ := pio.write_exists d i (value drive c.sector i)
    have ha := Act.out (c := c) (b := b) hout
    have hnext := h.act ha
    refine Ends.of_act ha ?_
    rw [if_pos (show i = 5 from hn)] at hnext ⊢
    exact ends_check hnext fun _ => ends_wait_second
  | succ n ih =>
    obtain ⟨d', hout⟩ := pio.write_exists d i (value drive c.sector i)
    have ha := Act.out (c := c) (b := b) hout
    have hnext := h.act ha
    refine Ends.of_act ha ?_
    rw [if_neg (show i ≠ 5 by omega)] at hnext ⊢
    exact ih (by omega) hnext

theorem ends_wait_first {d : bus.State} {b : Buffer} (h : Stage pio c (d, b, .wait false)) :
    Ends bus drive c (d, b, .wait false) := by
  obtain ⟨v, d', hin⟩ := pio.status_exists d
  have ha : Act bus drive c (d, b, .wait false) (d', b, afterWait false v) := .wait hin
  have hnext := h.act ha
  obtain ⟨-, r, hr⟩ := h
  have hidle : ¬ v &&& BSY ≠ 0 := fun hbsy => by
    obtain ⟨a, hreading⟩ := (pio.status hin).2.2.2.1.mp hbsy
    rw [hr] at hreading
    cases hreading
  refine Ends.of_act ha ?_
  rw [afterWait, if_neg hidle, if_neg (by decide)] at hnext ⊢
  exact ends_out (n := 5) rfl hnext

theorem Stage.ends {d : bus.State} {b : Buffer} {p : Pc} (h : Stage pio c (d, b, p))
    (hp : p.Inside) : Ends bus drive c (d, b, p) := by
  cases p with
  | outside => exact hp.elim
  | locking => exact hp.elim
  | finished => exact hp.elim
  | panic => exact h.elim
  | unlock => exact ⟨d, b, .refl⟩
  | copy i =>
    have := h.1
    exact ends_copy (n := 128 - i) (by omega) h
  | data => exact ends_data h
  | out i =>
    have := h.2.1
    exact ends_out (n := 5 - i) (by omega) h
  | check second =>
    cases second with
    | false => exact ends_check h fun _ => ends_wait_first
    | true => exact ends_check h fun _ => ends_wait_second
  | wait second =>
    cases second with
    | false => exact ends_wait_first h
    | true => exact ends_wait_second h

theorem steps_of_local (k : K) {x : bus.State × Buffer × Pc}
    (h : ReflTransGen (Local bus drive (s.call k)) (s.device, s.buffer k, s.pc k) x) :
    ∃ t : State K bus, ReflTransGen (Step bus drive) s t ∧ (t.device, t.buffer k, t.pc k) = x ∧
      t.call = s.call ∧ t.holder = s.holder ∧ ∀ j, j ≠ k → t.pc j = s.pc j := by
  induction h with
  | refl => exact ⟨s, .refl, rfl, rfl, rfl, fun _ _ => rfl⟩
  | @tail y z _ hstep ih =>
    obtain ⟨t, hsteps, rfl, hcall, hholder, hpc⟩ := ih
    obtain ⟨d, b, p⟩ := z
    rcases hstep with ha | ⟨hw, hsame⟩
    · rw [← hcall] at ha
      refine ⟨_, hsteps.tail (.act k ha), ?_, hcall, hholder, fun j hj => ?_⟩
      · change (d, Function.update t.buffer k b k, Function.update t.pc k p k) = (d, b, p)
        rw [Function.update_self, Function.update_self]
      · exact (Function.update_of_ne hj _ _).trans (hpc j hj)
    · obtain ⟨rfl, rfl⟩ := Prod.mk.inj hsame
      exact ⟨_, hsteps.tail (.work hw), rfl, hcall, hholder, hpc⟩

end Progress

theorem Inv.finish (I : Inv pio s) (hk : s.holder = some k) :
    ∃ t, ReflTransGen (Step bus drive) s t ∧ t.holder = none ∧ t.pc k = .finished ∧
      t.call = s.call ∧ ∀ j, j ≠ k → t.pc j = s.pc j := by
  obtain ⟨d, b, hlocal⟩ := (I.stage k).ends ((I.holder k).mpr hk)
  obtain ⟨t, hsteps, ht, hcall, -, hpc⟩ := steps_of_local k hlocal
  have hunlock : t.pc k = .unlock := congrArg (·.2.2) ht
  refine ⟨_, hsteps.tail (.unlock k hunlock), rfl, Function.update_self .., hcall, fun j hj => ?_⟩
  exact (Function.update_of_ne hj _ _).trans (hpc j hj)

theorem Inv.of_steps (I : Inv pio s) (h : ReflTransGen (Step bus drive) s t) : Inv pio t := by
  induction h with
  | refl => exact I
  | tail _ hst ih => exact ih.step hst

theorem Inv.finish_any (I : Inv pio s) (hk : s.pc k ≠ .outside) :
    ∃ t, ReflTransGen (Step bus drive) s t ∧ t.pc k = .finished ∧ t.call = s.call := by
  by_cases hin : (s.pc k).Inside
  · obtain ⟨t, hsteps, -, hpc, hcall, -⟩ := I.finish ((I.holder k).mp hin)
    exact ⟨t, hsteps, hpc, hcall⟩
  by_cases hdone : s.pc k = .finished
  · exact ⟨s, .refl, hdone, rfl⟩
  have hlocking : s.pc k = .locking := by
    cases hpc : s.pc k with
    | outside => exact absurd hpc hk
    | finished => exact absurd hpc hdone
    | locking => rfl
    | _ =>
      rw [hpc] at hin
      exact absurd trivial hin
  -- whoever has the lock comes to its end first
  obtain ⟨t, hsteps, hfree, hpc, hcall⟩ : ∃ t, ReflTransGen (Step bus drive) s t ∧
      t.holder = none ∧ t.pc k = .locking ∧ t.call = s.call := by
    cases hholder : s.holder with
    | none => exact ⟨s, .refl, hholder, hlocking, rfl⟩
    | some j =>
      obtain ⟨t, hsteps, hfree, -, hcall, hothers⟩ := I.finish hholder
      have hkj : k ≠ j := fun h => hin ((I.holder k).mpr (h ▸ hholder))
      exact ⟨t, hsteps, hfree, (hothers k hkj).trans hlocking, hcall⟩
  have hlock : Step bus drive t _ := .lock k hpc hfree
  obtain ⟨u, hmore, -, hfinished, hcall', -⟩ := ((I.of_steps hsteps).step hlock).finish rfl
  exact ⟨u, (hsteps.tail hlock).trans hmore, hfinished, hcall'.trans hcall⟩

def driver (disk : Buffer) : Ide :=
  ⟨fun b p buffer => .ok (wanted disk ⟨b, p, buffer⟩)⟩

theorem driver_holds (disk : Buffer) : (driver disk).io.Holds disk := by
  refine ⟨show 0 < 512 by decide, show 2 ^ 32 - 1 < 2 ^ 32 by decide, fun b hb p buffer => ?_⟩
  change b * 512 < 2 ^ 32 - 1 at hb
  have hmod : b % 2 ^ 28 = b := Nat.mod_eq_of_lt (by omega)
  change Except.ok (put p 512 (fun i => disk (b % 2 ^ 28 * 512 + i)) buffer) = _
  rw [hmod]
  rfl

/-- However the calls of the cores and the work of the controller interleave: the driver does not
panic, one core at a time uses the drive, a call that has come back has put the sector where it was
asked to and nothing elsewhere, and a call that was made can still come back. -/
theorem read_block_correct (h : Reachable (Init (K := K) pio) (Step bus drive) s) :
    (∀ k, s.pc k ≠ .panic) ∧ (∀ j k, (s.pc j).Inside → (s.pc k).Inside → j = k) ∧
      (∀ k, s.pc k = .finished → (driver disk).readBlock (s.call k).sector (s.call k).p
        (s.call k).buffer = .ok (s.buffer k)) ∧
      ∀ k, s.pc k ≠ .outside → ∃ t, ReflTransGen (Step bus drive) s t ∧ t.pc k = .finished ∧
        t.call k = s.call k ∧ t.buffer k = wanted disk (s.call k) := by
  have I := Inv.of_reachable h
  have hdone : ∀ {t : State K bus}, Inv pio t → ∀ k, t.pc k = .finished →
      t.buffer k = wanted disk (t.call k) := fun I k hk => by
    have hstage := I.stage k
    rw [hk] at hstage
    exact hstage
  refine ⟨fun k hk => ?_, fun j k hj hk => ?_, fun k hk => ?_, fun k hk => ?_⟩
  · have hstage := I.stage k
    rw [hk] at hstage
    exact hstage
  · exact Option.some.inj (((I.holder j).mp hj).symm.trans ((I.holder k).mp hk))
  · exact congrArg Except.ok (hdone I k hk).symm
  · obtain ⟨t, hsteps, hpc, hcall⟩ := I.finish_any hk
    refine ⟨t, hsteps, hpc, congrFun hcall k, ?_⟩
    rw [hdone (I.of_steps hsteps) k hpc, hcall]

def plainStatus : Phase → UInt8
  | .ready _ => 0x40
  | .reading _ => 0xc0
  | .transfer _ _ => 0x48

theorem plainStatus_spec (d : Phase) : plainStatus d &&& (ERR ||| DF) = 0 ∧
    plainStatus d &&& DRDY ≠ 0 ∧ (plainStatus d &&& BSY ≠ 0 ↔ ∃ b, d = .reading b) ∧
    (plainStatus d &&& DRQ ≠ 0 ∨ ∀ b i, d ≠ .transfer b i) := by
  cases d with
  | ready r =>
    change (0x40 : UInt8) &&& _ = 0 ∧ (0x40 : UInt8) &&& _ ≠ 0 ∧ ((0x40 : UInt8) &&& _ ≠ 0 ↔ _) ∧ _
    exact ⟨by decide, by decide, iff_of_false (by decide) nofun, Or.inr nofun⟩
  | reading b =>
    change (0xc0 : UInt8) &&& _ = 0 ∧ (0xc0 : UInt8) &&& _ ≠ 0 ∧ ((0xc0 : UInt8) &&& _ ≠ 0 ↔ _) ∧ _
    exact ⟨by decide, by decide, iff_of_true (by decide) ⟨b, rfl⟩, Or.inr nofun⟩
  | transfer b i =>
    change (0x48 : UInt8) &&& _ = 0 ∧ (0x48 : UInt8) &&& _ ≠ 0 ∧ ((0x48 : UInt8) &&& _ ≠ 0 ↔ _) ∧
      ((0x48 : UInt8) &&& _ ≠ 0 ∨ _)
    exact ⟨by decide, by decide, iff_of_false (by decide) nofun, Or.inl (by decide)⟩

def plainWord (disk : Buffer) : Phase → ℕ × Phase
  | .transfer b i => (le32 disk (b * 512 + i * 4),
      if i + 1 = 128 then .ready fun _ => 0 else .transfer b (i + 1))
  | d => (0, d)

def plainWrite (p : ℕ) (v : UInt8) : Phase → Phase
  | .ready r =>
    if p = port 1 + 7 then .reading (lba r) else .ready (Function.update r (p - (port 1 + 2)) v)
  | d => d

def plainBus (disk : Buffer) : Bus where
  State := Phase
  inb _ d v d' := d' = d ∧ v = plainStatus d
  outb p v d d' := d' = plainWrite p v d
  inl _ d w d' := (w, d') = plainWord disk d
  work d d' := ∃ b, d = .reading b ∧ d' = .transfer b 0

def plainPio (disk : Buffer) : Pio (plainBus disk) 1 disk where
  phase d := d
  work := Or.inr
  status := by
    rintro d v d' ⟨rfl, rfl⟩
    exact ⟨rfl, plainStatus_spec d'⟩
  register := by
    rintro d d' r i v hi rfl rfl
    rw [plainWrite, if_neg (by omega), Nat.add_sub_cancel_left]
  command := by
    rintro d d' r rfl rfl -
    rfl
  word := by
    rintro d w d' b i hin rfl
    obtain ⟨rfl, rfl⟩ := Prod.mk.inj hin
    refine ⟨rfl, ?_⟩
    by_cases hlast : i + 1 = 128
    · rw [if_pos hlast]
      exact ⟨_, if_pos hlast⟩
    · rw [if_neg hlast]
      exact if_neg hlast
  status_exists d := ⟨_, d, rfl, rfl⟩
  write_exists d i v := ⟨_, rfl⟩
  word_exists d := ⟨_, _, rfl⟩
  work_exists d b hd := ⟨_, ⟨b, hd, rfl⟩, rfl⟩

/-- One core of two reads sector 3. -/
theorem plainBus_reads : ∃ t : State Bool (plainBus fun i => .ofNat i),
    Reachable (Init (plainPio _)) (Step _ 1) t ∧ t.pc true = .finished ∧
      (driver fun i => .ofNat i).readBlock 3 0 (fun _ => 0) = .ok (t.buffer true) := by
  let s : State Bool (plainBus fun i => .ofNat i) :=
    ⟨.ready fun _ => 0, none, 0, fun _ => ⟨0, 0, fun _ => 0⟩, fun _ _ => 0, fun _ => .outside⟩
  have hinit : Init (plainPio _) s := ⟨⟨_, rfl⟩, rfl, fun _ => rfl⟩
  have hcalled := (Reachable.init hinit).step
    (show Step _ 1 s _ from .call true ⟨3, 0, fun _ => 0⟩ (Or.inl rfl))
  obtain ⟨-, -, -, hends⟩ := read_block_correct hcalled
  obtain ⟨t, hsteps, hpc, hcall, -⟩ := hends true (by decide)
  obtain ⟨s₀, h₀, hr⟩ := hcalled
  have ht : Reachable (Init (plainPio _)) (Step _ 1) t := ⟨s₀, h₀, hr.trans hsteps⟩
  obtain ⟨-, -, hresult, -⟩ := read_block_correct ht
  refine ⟨t, ht, hpc, ?_⟩
  have hreads := hresult true hpc
  rw [hcall] at hreads
  exact hreads

end OsShell.Ide
