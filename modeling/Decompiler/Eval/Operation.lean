import Decompiler.Eval.Use

/-!
# Typed operations

An operation wants operands of certain types. Where the type of an operand cannot be made to fit, a
cast is added; in some operations the cast is written in any case, since it changes the result.
-/

namespace Decompiler.Eval

open Asm Code Infer

/-- An expression as a value of the given type: with a cast if it cannot have that type, or if the
cast is not to be silent. -/
def asType (e : Expr) (type : TypeId) (silent : Bool) : Evaluation Expr := do
  if ← unifyTypes e.type type then
    if !silent && !e.isLiteral then return .cast e type true false
    return e
  return .cast e type true false

def asNew (e : Expr) (type : TypeNode) (silent : Bool := true) : Evaluation Expr := do
  asType e (← freshType type) silent

/-- What an operation wants from its operands and what it gives. -/
structure Operation where
  operand : TypeNode
  silent : Bool
  result : TypeNode
  floating : Bool := false

namespace Operation

def int : Operation := ⟨.integer, true, .integer, false⟩

def long : Operation := ⟨.long, true, .long, false⟩

def address : Operation := ⟨.intOrPtr, true, .intOrPtr, false⟩

def compare : Operation := ⟨.intOrPtr, true, .truth, false⟩

def signedCompare : Operation := ⟨.signed 32, true, .truth, false⟩

def unsignedCompare : Operation := ⟨.unsigned 32, false, .truth, false⟩

def singleCompare : Operation := ⟨.single, true, .truth, true⟩

def doubleCompare : Operation := ⟨.double, true, .truth, true⟩

def signedWord : Operation := ⟨.signed 32, false, .signed 32, false⟩

def unsignedWord : Operation := ⟨.unsigned 32, false, .unsigned 32, false⟩

def signedLong : Operation := ⟨.signed 64, false, .signed 64, false⟩

def unsignedLong : Operation := ⟨.unsigned 64, false, .unsigned 64, false⟩

def single : Operation := ⟨.single, true, .single, true⟩

def double : Operation := ⟨.double, true, .double, true⟩

end Operation

def apply (o : Operation) (left : Expr) (op : BinOp) (right : Expr) : Evaluation Expr := do
  let left ← asNew left o.operand o.silent
  let right ← asNew right o.operand o.silent
  return .binary left op right (← freshType o.result) o.floating

def negate (e : Expr) : Evaluation Expr := do
  match e with
  | .error _ _ => return e
  | .binary l op r _ floating =>
    if !op.isComparison || (floating && op != .eq && op != .ne) then
      return .unary .not e (← freshType .truth)
    return .binary l op.opposite r (← freshType .truth) false
  | .unary .not operand _ =>
    match operand with
    | .unary _ _ _ | .binary _ _ _ _ _ => return operand
    | _ => return .unary .not e (← freshType .truth)
  | .unary _ _ _ => return .unary .not e (← freshType .truth)
  | .test operand type negated => return .test operand type (!negated)
  | .comma statements condition => return .comma statements (← negate condition)
  | _ => return .unary .not e (← freshType .truth)

/-- A call of a function that stands for an operation without an operator. -/
def builtin (name : String) (args : List Expr) (result : TypeNode) : Evaluation Expr := do
  return .call (.symbol name (← freshType .any)) args (← freshType result)

end Decompiler.Eval
