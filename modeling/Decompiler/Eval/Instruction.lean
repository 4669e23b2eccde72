import Decompiler.Eval.Call
import Decompiler.Eval.Condition
import Decompiler.Flow.Graph

/-!
# Evaluating instructions

Every instruction belongs to one class, which says what it does with the state of its block.
-/

namespace Decompiler.Eval

open Asm Code Infer Decompiler.Flow

/-- What an instruction does. -/
inductive Action where
  | skip
  | store (rule : List Operand → Evaluation (Option Store))
  | moveToFloat
  | branch (rule : Rule)
  | floatBranch (ifHeld : Bool)
  | jump
  | call
  | floatCompare (rule : Rule)
  | setHighLow (rule : List Operand → Evaluation (Expr × Expr))
  | effect (rule : Rule)
  | set (rule : Rule)
  | loadLower
  | unknown

def action (mnemonic : String) : Action :=
  if ["ctc1", "nop", "b", "j"].contains mnemonic then .skip
  else if let some rule := storeRule? mnemonic then .store rule
  else if mnemonic == "mtc1" then .moveToFloat
  else if let some rule := branchRule? mnemonic then .branch rule
  else if mnemonic == "bc1t" then .floatBranch true
  else if mnemonic == "bc1f" then .floatBranch false
  else if mnemonic == "jr" then .jump
  else if mnemonic == "jal" || mnemonic == "jalr" then .call
  else if let some rule := floatCompareRule? mnemonic then .floatCompare rule
  else if let some rule := highLowRule? mnemonic then .setHighLow rule
  else if let some rule := effectRule? mnemonic then .effect rule
  else if let some rule := valueRule? mnemonic then .set rule
  else if mnemonic == "lwr" then .loadLower
  else .unknown

/-- Runs a store. The arguments for a call are kept until the call; those that also go into
registers are dropped. -/
def runStore (args : List Operand) (s : Store) : Evaluation Unit := do
  match s.dest with
  | .outgoing place _ =>
    if place ≥ 0x10 then
      modifyWork fun w => { w with outgoing := w.outgoing ++ [(s.value, place)] }
  | _ =>
    match s.dest with
    | .stackVar place type =>
      declareLocal place type
      let raw := match s.value with
        | .cast operand _ true _ => operand
        | e => e
      let r ← registerAt args 0
      modifyWork fun w => { w with stored := w.stored.insert place (r, raw) }
    | _ => pure ()
    use s.value
    use s.dest
    protectFromStore s.dest
    protectCalls
    write (.store s.value s.dest)

def setCondition (condition : Evaluation Expr) : Evaluation Unit := do
  expect (← get).work.condition.isNone
  let e ← condition
  modifyWork fun w => { w with condition := some e }

def lastComparison : Evaluation Expr := do
  let e ← read conditionRegister
  match e with
  | .binary _ _ _ _ _ => return e
  | _ => return .test e e.type false

def runInstruction (link : Link) (i : Instruction) : Evaluation Unit := do
  let args := i.args
  match action i.mnemonic with
  | .skip => pure ()
  | .store rule =>
    match ← rule args with
    | some s => runStore args s
    | none => pure ()
  | .moveToFloat =>
    let r ← registerAt args 1
    assign r (← valueAt args 0)
  | .branch rule => setCondition (rule args)
  | .floatBranch ifHeld => setCondition do
    let e ← lastComparison
    if ifHeld then return e else negate e
  | .jump =>
    if (← registerAt args 0) == ⟨"ra"⟩ then
      match link with
      | .exit _ => pure ()
      | _ => throw (.broken "")
    else
      match link with
      | .select _ =>
        let e ← valueAt args 0
        modifyWork fun w => { w with switchValue := some e }
      | _ => throw (.broken "")
  | .call => runCall i.mnemonic args
  | .floatCompare rule => hold conditionRegister (← rule args)
  | .setHighLow rule =>
    let (high, low) ← rule args
    assign ⟨"hi"⟩ high
    assign ⟨"lo"⟩ low
  | .effect rule =>
    let e ← rule args
    use e
    write (.run e)
  | .set rule =>
    let r ← registerAt args 0
    assign r (← rule args)
    if setsDouble i.mnemonic then
      assign (← r.partner) (.secondHalf (← freshType .any))
  | .loadLower =>
    let r ← registerAt args 0
    let old ← valueAt args 0
    assign r (← loadLowerBytes args old)
  | .unknown =>
    let e ← errorExpr (some ("unknown instruction: " ++ i.text))
    match args.head? with
    | some (.register r) =>
      let e ← newTemp e r.name true false
      if r != .zero then holdResult r e
    | _ => write (.run e)

end Decompiler.Eval
