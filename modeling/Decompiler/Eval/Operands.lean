import Decompiler.Asm.FloatRegister
import Decompiler.Eval.Access

/-!
# Operands

The values of the operands of an instruction.
-/

namespace Decompiler.Eval

open Asm Code Infer

def registerAt (args : List Operand) (index : Nat) : Except Failure Register := do
  match ← operandAt args index with
  | .register r => return r
  | operand => reject (.notRegister operand.text)

def valueAt (args : List Operand) (index : Nat) : Evaluation Expr := do
  read (← registerAt args index)

def wordLiteral? (e : Expr) : Evaluation (Option Int) := do
  match e with
  | .literal n type => return if (← sizeBits type) == 64 then none else some n
  | _ => return none

def doubleAt (args : List Operand) (index : Nat) : Evaluation Expr := do
  let r ← registerAt args index
  if !(← r.isFloat) then reject (.notFloatRegister r.text)
  let first ← read r
  match ← wordLiteral? first with
  | none => return first
  | some low =>
    let number ← r.number
    if number % 2 != 0 then reject (.oddDoubleRegister r.text)
    match ← wordLiteral? (← read ⟨"f" ++ toString (number + 1)⟩) with
    | none => reject (.unknownDoubleHalf r.text)
    | some high =>
      return .literal (Integer.lor low (Integer.shiftLeft high 32)) (← freshType .double)

def constant : Operand → Evaluation Expr
  | .literal n => literal n
  | .symbol name => symbol name
  | .inSection name addend => symbol (sectionSymbol name addend)
  | .binary op left right => do
    let left ← constant left
    let right ← constant right
    apply .int left (.ofOperator op) right
  | operand => reject (.notLiteral operand.text)

def immediateAt (args : List Operand) (index : Nat) : Evaluation Expr := do
  match ← constant (← (← operandAt args index).dropLowHalf) with
  | .symbol name _ => addressOfSymbol name
  | e => return e

def signedAt (args : List Operand) (index : Nat) : Evaluation Expr := do
  match ← immediateAt args index with
  | .literal n _ => literal (Integer.signed16 n)
  | e => return e

def unsignedAt (args : List Operand) (index : Nat) : Evaluation Expr := do
  match ← immediateAt args index with
  | .literal n _ => literal (Integer.unsigned16 n)
  | e => return e

def addressAt (args : List Operand) (index : Nat) : Except Failure Address := do
  (← operandAt args index).address

end Decompiler.Eval
