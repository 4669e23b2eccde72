import Decompiler.Eval.Assign
import Decompiler.Eval.Operands
import Decompiler.Infer.Slots

/-!
# Calls

The arguments of a declared function are in known places. For any other function they have to be
guessed: those registers count that were set and that continue a valid sequence of arguments.
-/

namespace Decompiler.Eval

open Asm Code Infer

def callTarget (mnemonic : String) (args : List Operand) : Evaluation Expr := do
  if mnemonic == "jal" then
    match ← signedAt args 0 with
    | .symbol name type => return .symbol name type
    | .address (.symbol name type) _ => return .symbol name type
    | .literal n type => asNew (.literal n type) .pointer
    | _ => throw (.broken "")
  else
    match args with
    | [_] => asNew (← valueAt args 0) .pointer
    | [_, _] =>
      if (← registerAt args 0) != ⟨"ra"⟩ then reject .linkRegister
      asNew (← valueAt args 1) .pointer
    | _ => reject (.callOperands args.length)

def guessedRegisters : List Register :=
  ["f12", "f13", "f14", "a0", "a1", "a2", "a3"].map Register.mk

def requiredRegisters (r : Register) : List String :=
  match r.name with
  | "f13" | "f14" => ["f12"]
  | "a1" => ["a0", "f12"]
  | "a2" => ["a1", "f13", "f14"]
  | "a3" => ["a2"]
  | _ => []

/-- The arguments in registers that may pass some. Arguments of the function itself that were never
read are not passed on, and the second half of a double is no argument. -/
def guessArguments (registers : Registers) (possible : List Register) : List Expr :=
  (possible.foldl (fun (passed, args) r =>
    match registers.get? r with
    | none => (passed, args)
    | some e =>
      let required := if possible.head? == some r then [] else requiredRegisters r
      if !required.isEmpty && !required.any passed.contains then (passed, args)
      else if r.name == "f13" || e.isUntouched then (r.name :: passed, args)
      else (r.name :: passed, args ++ [e]))
    (([] : List String), ([] : List Expr))).2

def callArguments (signature? : Option C.Signature) : Evaluation (List Expr) := do
  let (known, possible) ← match signature? with
    | some f =>
      if f.params.isSome then do
        let (slots, possible) ← infer (argumentSlots f true)
        let known ← slots.filterMapM fun slot => do
          match slot.register with
          | some r => return some (← asType (← read r) slot.type true)
          | none => return none
        pure (known, possible)
      else pure ([], guessedRegisters)
    | none => pure ([], guessedRegisters)
  let guessed := guessArguments (← get).work.registers possible
  let stored := (← get).work.outgoing.mergeSort fun a b => a.2 ≤ b.2
  modifyWork fun w => { w with outgoing := [] }
  return known ++ guessed ++ stored.map (·.1)

def holdCallResult (call : Expr) : Evaluation Unit := do
  let float : Expr := .cast call (← freshType .float) true true
  hold ⟨"f0"⟩ (← newTemp float "f0" false false)
  hold ⟨"f1"⟩ (.secondHalf (← freshType .any))
  let word : Expr := .cast call (← freshType .intOrPtr) true true
  hold ⟨"v0"⟩ (← newTemp word "v0" false false)
  let long : Expr := .cast call (← freshType (.unsigned 64)) true false
  let lower ← asNew long (.unsigned 32) false
  hold ⟨"v1"⟩ (← newTemp lower "v1" false false)
  hold returnRegister call

def runCall (mnemonic : String) (args : List Operand) : Evaluation Unit := do
  let function ← callTarget mnemonic args
  let s ← get
  let signature? := match function with
    | .symbol name _ => s.signature? name
    | _ => none
  let arguments ← callArguments signature?
  let type ← match signature?.bind (·.result) with
    | some t => infer (ofDeclared t)
    | none => freshType .any
  let call ← newTemp (.call function arguments type) "ret" true false
  modifyWork fun w => { w with registers := callerSaved.foldl (fun rs r => rs.erase r) w.registers }
  protectCalls
  protectReads
  if signature?.all (·.result.isSome) then holdCallResult call
  modifyWork fun w => { w with customReturn := false, hasCall := true }

end Decompiler.Eval
