import Mathlib

/-!
# How the kernel stops

`Debug::panic` and a failed `ASSERT` never return, and neither does a thread
that exits. A call that ends so has no result.
-/

namespace OsShell

inductive Halt
  | panic (what : String)
  | assertion (what : String)
  | exit (v : ℕ)
deriving DecidableEq, Repr

def assert (c : Prop) [Decidable c] (what : String) : Except Halt Unit :=
  if c then .ok () else .error (.assertion what)

@[simp] theorem assert_true {c : Prop} [Decidable c] {what : String} (h : c) :
    assert c what = .ok () :=
  if_pos h

end OsShell
