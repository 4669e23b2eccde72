import Decompiler.Eval.Operation

/-!
# Multiplications by constants

A multiplication by a constant is often made of shifts, additions and subtractions. Such a chain is
read back as one multiplication.
-/

namespace Decompiler.Eval

open Asm Code Infer

def shiftedLeft (n amount : Int) : Except Failure Int :=
  if amount < 0 then throw .negativeShift else pure (Integer.shiftLeft n amount.toNat)

/-- An expression as a multiple of another one: the other one and the factor.

At the top a single shift stays as it is, unless it is by a small amount. Where `allowShift` is not
set, as under another shift, even factors are left alone. The first argument bounds the depth. -/
def multipleFrom (s : Session) : Nat → Expr → (top allowShift : Bool) → Except Failure (Expr × Int)
  | 0, e, _, _ => pure (e, 1)
  | depth + 1, e, top, allowShift => do
    match e with
    | .binary left op right _ _ =>
      let (l, m) ← multipleFrom s depth left false (op != .shiftLeft)
      let (r, n) ← multipleFrom s depth right false (op != .shiftLeft)
      match op, right.literal? with
      | .shiftLeft, some k =>
        if allowShift then
          if top && m == 1 && !(1 ≤ k && k ≤ 4) then return (e, 1)
          return (l, ← shiftedLeft m k)
        return (e, 1)
      | .mul, some k =>
        if allowShift || k % 2 != 0 then return (l, m * k)
        return (e, 1)
      | .add, _ => return if l.same r then (l, m + n) else (e, 1)
      | .sub, _ => return if l.same r then (l, m - n) else (e, 1)
      | _, _ => return (e, 1)
    | .unary _ operand _ =>
      if top then return (e, 1)
      let (base, n) ← multipleFrom s depth operand false true
      return (base, -n)
    | .temp id _ =>
      if (s.temp id).isOpen then
        let (base, n) ← multipleFrom s depth (s.temp id).value false allowShift
        return if n != 1 && base.isTrivial then (base, n) else (e, 1)
      return (e, 1)
    | _ => return (e, 1)

def foldMultiple? (e : Expr) : Evaluation (Option Expr) := do
  let s ← get
  let (base, n) ← multipleFrom s s.reach e true true
  if n == 1 then return none
  return some (← apply .int base .mul (← literal n))

def foldMultiple (e : Expr) : Evaluation Expr := do
  return (← foldMultiple? e).getD e

end Decompiler.Eval
