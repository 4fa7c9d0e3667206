import OsShell.Library.AddressSpace

/-!
# Formatted output

`dopr` of the kernel's `snprintf.cc` and of the user programs' `printf.c`, which differ
in where `dopr_outch` puts a character: what is put is kept in `out`, and `currlen` is
its length. The arguments are the words on the caller's stack; two of them are a
`double`, three a `long double`. What the pointers among them point to, and how a floating
point number is written, is open. The variable `ch` is the first character of `format`
here, which therefore stays one character behind the source's.
-/

namespace OsShell.Format

open AddressSpace

inductive ReadState
  | default
  | flags
  | min
  | dot
  | max
  | mod
  | conv
  | done
deriving DecidableEq

structure Flags where
  minus : Bool := false
  plus : Bool := false
  space : Bool := false
  num : Bool := false
  zero : Bool := false
  up : Bool := false
  unsigned : Bool := false

inductive Modifier
  | none
  | short
  | long
  | ldouble
deriving DecidableEq

structure Env where
  maxlen : ℕ
  /-- the string at an address -/
  string : Word → List UInt8
  fmtfp : List Word → ℤ → ℤ → Flags → List UInt8

structure Printed where
  out : List UInt8
  counts : List (Word × Modifier × ℕ)
  args : ℕ → Word

def Printed.put (p : Printed) (cs : List UInt8) : Printed := { p with out := p.out ++ cs }

def Printed.drop (p : Printed) (n : ℕ) : Printed := { p with args := fun i => p.args (i + n) }

/-- `while (n > 0) { dopr_outch(c); --n; }` -/
def pad (c : UInt8) (n : ℤ) : List UInt8 := List.replicate n.toNat c

def nullText : List UInt8 := [60, 78, 85, 76, 76, 62]

def fmtstr (env : Env) (value : Word) (flags : Flags) (min max : ℤ) : List UInt8 :=
  let value := if value = 0 then nullText else env.string value
  let padlen := if min - value.length < 0 then 0 else min - value.length
  -- every character counts against `max`, the padding too
  let left := if flags.minus then [] else pad 32 (padlen ⊓ max)
  let text := value.take (max - left.length).toNat
  let right := if flags.minus then pad 32 (padlen ⊓ (max - text.length)) else []
  left ++ text ++ right

def digit (caps : Bool) (d : ℕ) : UInt8 :=
  .ofNat (if d < 10 then 48 + d else if caps then 55 + d else 87 + d)

/-- The digits in `convert`, the lowest first; there is room for `fuel` of them. -/
def convertLoop (caps : Bool) (base : ℕ) : ℕ → ℕ → List UInt8
  | 0, _ => []
  | fuel + 1, uvalue => digit caps (uvalue % base) ::
      if uvalue / base = 0 then [] else convertLoop caps base fuel (uvalue / base)

/-- The second half of `fmtint`: `digits` has the `place` digits in the order in which they are
put. `spadlen` is an `int`: a width far below zero comes round. -/
def justify (min max : ℤ) (flags : Flags) (signvalue digits : List UInt8) : List UInt8 :=
  let place := digits.length
  let zpadlen := if max - place < 0 then 0 else max - place
  let spadlen := (min - (max ⊔ place) - signvalue.length).bmod (2 ^ 32)
  let spadlen := if spadlen < 0 then 0 else spadlen
  let (zpadlen, spadlen) := if flags.zero then (zpadlen ⊔ spadlen, 0) else (zpadlen, spadlen)
  let (left, right) := if flags.minus then (0, spadlen) else (spadlen, 0)
  pad 32 left ++ signvalue ++ pad 48 zpadlen ++ digits ++ pad 32 right

def fmtint (value : Word) (base : ℕ) (min max : ℤ) (flags : Flags) : List UInt8 :=
  let negative := ¬ flags.unsigned ∧ value.toInt < 0
  let uvalue := if negative then -value else value
  let signvalue : List UInt8 :=
    if flags.unsigned then [] else if negative then [45] else if flags.plus then [43]
    else if flags.space then [32] else []
  let convert := convertLoop flags.up base 20 uvalue.toNat
  let place := if convert.length = 20 then 19 else convert.length
  justify min (if max < 0 then 0 else max) flags signvalue (convert.take place).reverse

structure Conversion where
  flags : Flags := {}
  cflags : Modifier := .none
  min : ℤ := 0
  max : ℤ := -1

/-- The conversions but `%w`. -/
def convert (env : Env) (c : Conversion) (ch : UInt8) (p : Printed) : Printed :=
  let value := p.args 0
  let unsigned := { c.flags with unsigned := true }
  let fwords := if c.cflags = .ldouble then 3 else 2
  match ch with
  -- d, i
  | 100 | 105 => (p.drop 1).put (fmtint value 10 c.min c.max c.flags)
  -- o
  | 111 => (p.drop 1).put (fmtint value 8 c.min c.max unsigned)
  -- u
  | 117 => (p.drop 1).put (fmtint value 10 c.min c.max unsigned)
  -- X
  | 88 => (p.drop 1).put (fmtint value 16 c.min c.max { unsigned with up := true })
  -- x
  | 120 => (p.drop 1).put (fmtint value 16 c.min c.max unsigned)
  -- f
  | 102 => (p.drop fwords).put
      (env.fmtfp ((List.range fwords).map p.args) c.min c.max c.flags)
  -- E, e, G, g: the argument is taken and nothing is written
  | 69 | 101 | 71 | 103 => p.drop fwords
  -- c
  | 99 => (p.drop 1).put [byte value 0]
  -- s
  | 115 => (p.drop 1).put
      (fmtstr env value c.flags c.min (if c.max < 0 then env.maxlen else c.max))
  -- p: as a signed number
  | 112 => (p.drop 1).put (fmtint value 16 c.min c.max c.flags)
  -- n
  | 110 => { p.drop 1 with counts := p.counts ++ [(value, c.cflags, p.out.length)] }
  -- %
  | 37 => p.put [37]
  | _ => p

structure Dopr extends Printed, Conversion where
  state : ReadState
  format : List UInt8

namespace Dopr

def ch (s : Dopr) : UInt8 := s.format.headD 0

/-- `ch = *format++`; none when the format has ended before. -/
def advance (s : Dopr) : Option Dopr :=
  match s.format with
  | _ :: c :: rest => some { s with format := c :: rest }
  | _ => none

def goto (s : Dopr) (state : ReadState) : Dopr := { s with state }

end Dopr

def isdigit (c : UInt8) : Prop := 48 ≤ c ∧ c ≤ 57

instance (c : UInt8) : Decidable (isdigit c) := inferInstanceAs (Decidable (_ ∧ _))

/-- `10 * n + char_to_int(c)`, in an `int` -/
def appendDigit (n : ℤ) (c : UInt8) : ℤ := (10 * n + (c.toNat - 48 : ℤ)).bmod (2 ^ 32)

def round (env : Env) (s : Dopr) : Option Dopr :=
  let s := if s.ch = 0 ∨ env.maxlen ≤ s.out.length then s.goto .done else s
  match s.state with
  | .default =>
    if s.ch = 37 then (s.goto .flags).advance else { s with toPrinted := s.put [s.ch] }.advance
  | .flags =>
    match s.ch with
    | 45 => { s with flags := { s.flags with minus := true } }.advance
    | 43 => { s with flags := { s.flags with plus := true } }.advance
    | 32 => { s with flags := { s.flags with space := true } }.advance
    | 35 => { s with flags := { s.flags with num := true } }.advance
    | 48 => { s with flags := { s.flags with zero := true } }.advance
    | _ => some (s.goto .min)
  | .min =>
    if isdigit s.ch then { s with min := appendDigit s.min s.ch }.advance
    else if s.ch = 42 then
      { s with toPrinted := s.drop 1, min := (s.args 0).toInt, state := .dot }.advance
    else some (s.goto .dot)
  | .dot => if s.ch = 46 then (s.goto .max).advance else some (s.goto .mod)
  | .max =>
    if isdigit s.ch then
      { s with max := appendDigit (if s.max < 0 then 0 else s.max) s.ch }.advance
    else if s.ch = 42 then
      { s with toPrinted := s.drop 1, max := (s.args 0).toInt, state := .mod }.advance
    else some (s.goto .mod)
  | .mod =>
    match s.ch with
    | 104 => { s with cflags := .short, state := .conv }.advance
    | 108 => { s with cflags := .long, state := .conv }.advance
    | 76 => { s with cflags := .ldouble, state := .conv }.advance
    | _ => some (s.goto .conv)
  | .conv =>
    (if s.ch = 119 then s.advance
      else some { s with toPrinted := convert env s.toConversion s.ch s.toPrinted }).bind fun s =>
      { s with toConversion := {}, state := .default }.advance
  | .done => some s

/-- The loop; none when it reads behind the end of the format. -/
def doprLoop (env : Env) : ℕ → Dopr → Option Printed
  | 0, _ => none
  | fuel + 1, s => if s.state = .done then some s.toPrinted
    else (round env s).bind (doprLoop env fuel)

/-- The format ends with its zero. -/
def dopr (env : Env) (fuel : ℕ) (format : List UInt8) (args : ℕ → Word) : Option Printed :=
  doprLoop env fuel ⟨⟨[], [], args⟩, {}, .default, format⟩

end OsShell.Format
