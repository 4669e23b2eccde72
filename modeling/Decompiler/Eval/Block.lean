import Decompiler.Eval.Output
import Decompiler.Eval.Text
import Decompiler.Options

/-!
# Evaluating blocks

The nodes of a graph are evaluated along the tree of dominators: a node starts with the registers of
its immediate dominator, except for those that change on the way. A block that fails is replaced by
comments that say why.
-/

namespace Decompiler.Eval

open Asm Code Infer Decompiler.Flow

def runInstructions (node : Node) : Evaluation Unit :=
  node.block.instructions.forM fun i =>
    tryCatch (runInstruction node.link i) fun e => throw (.within i.text e)

def runNode (node : Node) : Evaluation BlockResult := do
  runInstructions node
  (← get).work.condition.forM use
  (← get).work.switchValue.forM use
  let work := (← get).work
  return {
    statements := work.statements.toList
    returnValue := if node.isExit then work.registers.get? returnRegister else none
    switchValue := work.switchValue
    condition := work.condition
    registers := work.registers
    customReturn := work.customReturn
    hasCall := work.hasCall }

def quoted (e : Expr) : Evaluation String := do
  return "\"" ++ (← exprText false e) ++ "\""

def resultText (b : BlockResult) : Evaluation String := do
  let statements ← b.statements.filterMapM fun s => do
    if ← isWritten s then return some ("\"" ++ (← stmtText false s) ++ "\"")
    return none
  let condition ← match b.condition with
    | some e => quoted e
    | none => pure "None"
  let sorted := b.registers.entries.mergeSort fun a b => a.1.name ≤ b.1.name
  let registers ← sorted.filterMapM fun (r, e) => do
    if (← get).isPreservation e none then return none
    return some (r.text ++ ": " ++ (← quoted e))
  return "Statements: " ++ "\n\t".intercalate statements ++ "\nBranch condition: " ++ condition ++
    "\nFinal register states: " ++ ", ".intercalate registers

def lastLine (text : String) : String :=
  let lines := Text.split '\n' (Text.trim text.toList)
  String.ofList (Text.trim (lines.getLast?.getD []))

def failedResult (e : Failure) : Evaluation BlockResult := do
  let (cause, instruction?) := match e with
    | .within i cause => (cause, some i)
    | _ => (e, none)
  let message ←
    if cause.isRejection then do
      printOut (cause.text ++ "\n")
      pure cause.text
    else do
      printErr ("[traceback " ++ cause.kind ++ "]\n")
      pure (lastLine (if cause.text == "" then cause.kind else cause.text))
  let place ← match instruction? with
    | some i => do
      printErr ("Error occurred while processing instruction: " ++ i ++ "\n")
      pure [Stmt.comment ("At instruction: " ++ i)]
    | none => pure []
  printErr "\n"
  return {
    statements := .comment ("Error: " ++ message) :: place
    returnValue := none
    switchValue := none
    condition := some (← errorExpr none)
    registers := (← get).work.registers
    customReturn := false
    hasCall := false }

def newJoin (r : Register) (node : Nat) : Evaluation Expr := do
  let type ← freshType .any
  let id := (← get).joins.size
  modify fun s => { s with joins := s.joins.push { register := r, node := node, type := type } }
  return .join id type

def startRegisters (g : Graph) (fx : Effects) (node : Nat) (before : Registers) :
    Evaluation Registers := do
  (← changedRegisters g fx node).foldlM (fun registers r => do
    if ← isAlwaysSet g fx node r (before.contains r) then
      return registers.insert r (← newJoin r node)
    return registers.erase r) before

/-- Evaluates a node and all nodes that it dominates; the first argument bounds the depth of the
tree of dominators. -/
def evalFrom (o : Options) (g : Graph) (fx : Effects) : Nat → Nat → Registers → Evaluation Unit
  | 0, _, _ => throw .endless
  | depth + 1, i, registers => do
    let node := g.nodes.getD i default
    if o.debug then printOut ("\nNode in question: " ++ g.nodeText i ++ "\n")
    modify fun s => { s with work := { registers := registers } }
    let evaluate : Evaluation BlockResult := do
      let b ← runNode node
      if o.debug then printOut ((← resultText b) ++ "\n")
      return b
    let result ← tryCatch evaluate fun e => do
      if o.stopOnError then throw e
      failedResult e
    modifyBlock i fun _ => result
    if node.isExit then modify fun s => { s with exits := s.exits.push i }
    node.immediatelyDominates.forM fun child => do
      evalFrom o g fx depth child (← startRegisters g fx child result.registers)

end Decompiler.Eval
