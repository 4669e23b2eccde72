import Decompiler.Eval.Value

/-!
# Conditions and results that go elsewhere

Branches, floating-point comparisons, operations that set `hi` and `lo`, and instructions that only
have an effect.
-/

namespace Decompiler.Eval

open Asm Code Infer

def againstZero (o : Operation) (op : BinOp) : Rule := fun args => do
  let left ← valueAt args 0
  apply o left op (← literal 0)

def notNegative (args : List Operand) : Evaluation Expr := do
  let e ← valueAt args 0
  match ← opened e with
  | .binary inner .shiftLeft (.literal n _) _ _ =>
    let bit ← literal (← shiftedLeft 1 (31 - n))
    let masked ← apply .int inner .bitAnd bit
    return .unary .not masked (← freshType .truth)
  | _ => apply .signedCompare e .ge (← literal 0)

def branchRule? : String → Option Rule
  | "beq" => some (onRegisters .compare .eq 0)
  | "bne" => some (onRegisters .compare .ne 0)
  | "beqz" => some (againstZero .compare .eq)
  | "bnez" => some (againstZero .compare .ne)
  | "blez" => some (againstZero .signedCompare .le)
  | "bgtz" => some (againstZero .signedCompare .gt)
  | "bltz" => some (againstZero .signedCompare .lt)
  | "bgez" => some notNegative
  | _ => none

/-- The comparison that a floating-point condition makes, and whether it is negated. A negated
comparison holds if one side is no number. -/
def floatComparison? : String → Option (BinOp × Bool)
  | "eq" | "seq" => some (.eq, false)
  | "olt" | "lt" => some (.lt, false)
  | "oge" | "ge" => some (.ge, false)
  | "ole" | "le" => some (.le, false)
  | "ogt" | "gt" => some (.gt, false)
  | "neq" | "sne" => some (.eq, true)
  | "uge" | "nlt" => some (.lt, true)
  | "ult" | "nge" => some (.ge, true)
  | "ugt" | "nle" => some (.le, true)
  | "ule" | "ngt" => some (.gt, true)
  | _ => none

def floatCompareRule? (mnemonic : String) : Option Rule :=
  match Text.split '.' mnemonic.toList with
  | [['c'], condition, size] =>
    match floatComparison? (String.ofList condition), size with
    | some (op, negated), ['s'] => some (finish (onRegisters .singleCompare op 0) negated)
    | some (op, negated), ['d'] => some (finish (onDoubles .doubleCompare op 0) negated)
    | _, _ => none
  | _ => none
where
  finish (rule : Rule) (negated : Bool) : Rule := fun args => do
    let e ← rule args
    if negated then negate e else return e

def divide (o : Operation) (args : List Operand) : Evaluation (Expr × Expr) := do
  let remainder ← onRegisters o .mod 0 args
  let quotient ← onRegisters o .div 0 args
  return (remainder, quotient)

def multiply (name : String) (type : TypeNode) (o : Operation) (args : List Operand) :
    Evaluation (Expr × Expr) := do
  let left ← valueAt args 0
  let right ← valueAt args 1
  let upper ← builtin name [left, right] type
  let lower ← onRegisters o .mul 0 args
  return (upper, lower)

/-- The values for `hi` and `lo`, by mnemonic. -/
def highLowRule? : String → Option (List Operand → Evaluation (Expr × Expr))
  | "div" => some (divide .signedWord)
  | "divu" => some (divide .unsignedWord)
  | "ddiv" => some (divide .signedLong)
  | "ddivu" => some (divide .unsignedLong)
  | "mult" => some (multiply "MULT_HI" (.signed 32) .int)
  | "multu" => some (multiply "MULTU_HI" (.unsigned 32) .int)
  | "dmult" => some (multiply "DMULT_HI" (.signed 64) .long)
  | "dmultu" => some (multiply "DMULTU_HI" (.unsigned 64) .long)
  | _ => none

def trapIf (condition : Rule) : Rule := fun args => do
  builtin "TRAP_IF" [← condition args] .any

def effectRule? : String → Option Rule
  | "teq" => some (trapIf (onRegisters .compare .eq 0))
  | "tne" => some (trapIf (onRegisters .compare .ne 0))
  | "tlt" => some (trapIf (onRegisters .signedCompare .lt 0))
  | "tltu" => some (trapIf (onRegisters .unsignedCompare .lt 0))
  | "tge" => some (trapIf (onRegisters .signedCompare .ge 0))
  | "tgeu" => some (trapIf (onRegisters .unsignedCompare .ge 0))
  | "teqi" => some (trapIf (onImmediate .compare .eq signedAt 0))
  | "tnei" => some (trapIf (onImmediate .compare .ne signedAt 0))
  | "tlti" => some (trapIf (onImmediate .signedCompare .lt signedAt 0))
  | "tltiu" => some (trapIf (onImmediate .unsignedCompare .lt signedAt 0))
  | "tgei" => some (trapIf (onImmediate .signedCompare .ge signedAt 0))
  | "tgeiu" => some (trapIf (onImmediate .unsignedCompare .ge signedAt 0))
  | "break" => some fun args => do
    if args.isEmpty then builtin "BREAK" [] .any
    else builtin "BREAK" [← signedAt args 0] .any
  | "sync" => some fun _ => builtin "SYNC" [] .any
  | _ => none

end Decompiler.Eval
