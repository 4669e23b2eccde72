import Decompiler.Eval.Join
import Decompiler.Flow.Build

/-!
# Evaluating functions

A function starts with what its caller left in the registers. After all blocks have been evaluated
it is decided whether it returns a value.
-/

namespace Decompiler.Eval

open Asm Code Infer Decompiler.Flow

def untouchedArgument (place : Int) (type : TypeId) : Evaluation Expr := do
  expect (place % 4 == 0)
  return .argument place false type

def declaredArguments (f : C.Signature) (registers : Registers) : Evaluation Registers := do
  let (slots, possible) ← infer (argumentSlots f false)
  let registers ← slots.foldlM (fun registers slot => do
    declareParameter slot.offset slot.name slot.type
    match slot.register with
    | some r => return registers.insert r (← untouchedArgument slot.offset slot.type)
    | none => return registers) registers
  possible.foldlM (fun registers r => do
    let number ← r.number
    let e ← untouchedArgument (4 * number) (← freshType .any)
    return registers.insert r e) registers

def usualArguments (registers : Registers) : Evaluation Registers :=
  [("a0", 0, TypeNode.intOrPtr), ("a1", 4, .any), ("a2", 8, .any), ("a3", 12, .any),
   ("f12", 0, .single), ("f14", 4, .single)].foldlM (fun registers (name, place, node) => do
    let e ← untouchedArgument place (← freshType node)
    return registers.insert ⟨name⟩ e) registers

def callerRegisters : Evaluation Registers := do
  let start : Registers := Table.empty.insert ⟨"sp"⟩ (.symbol "sp" (← freshType .pointer))
  calleeSaved.foldlM (fun registers r => do
    return registers.insert r (← symbol (savedName r))) start

def spreadOnce (g : Graph) (calls : Array Bool) (marks : Array Bool) : Array Bool :=
  (List.range g.nodes.size).foldl (fun marks n =>
    if marks.getD n false || calls.getD n false then marks
    else if (parentsOf g n).any fun p => marks.getD p false then marks.setIfInBounds n true
    else marks) marks

def spread (g : Graph) (calls : Array Bool) (marks : Array Bool) : Array Bool :=
  g.nodes.size.repeat (spreadOnce g calls) marks

def spreadReturns (g : Graph) : Evaluation Unit :=
  modify fun s =>
    let marks := spread g (s.blocks.map (·.hasCall)) (s.blocks.map (·.customReturn))
    { s with blocks := s.blocks.mapIdx fun n b => { b with customReturn := marks.getD n false } }

/-- Whether the function returns a value: what its declaration says, or else whether all of its
returns have a value and one of them has one of its own. -/
def returnsValue (o : Options) (signature? : Option C.Signature) (s : Session) : Bool :=
  if o.void then false
  else
    match signature? with
    | some f => f.result.isSome
    | none =>
      let exits := s.exits.toList.map s.block
      exits.all (·.returnValue.isSome) && exits.any (·.customReturn)

def settleReturns (hasValue : Bool) (type : TypeId) : Evaluation Unit := do
  (← get).exits.toList.forM fun n => do
    match ((← get).block n).returnValue with
    | none => pure ()
    | some e =>
      if hasValue then
        let value ← asType e type true
        modifyBlock n fun b => { b with returnValue := some value }
        use value
      else modifyBlock n fun b => { b with returnValue := none }

def evalFunction (o : Options) (name : String) (g : Graph) : Evaluation TypeId := do
  let entry := g.nodes.getD 0 default
  let frame ← Frame.ofEntry entry.block.instructions
  modify fun s => { s with
    frame := frame
    blocks := g.nodes.map fun _ => default }
  let registers ← callerRegisters
  let signature? := (← get).signature? name
  let returnType ← match signature?.bind (·.result) with
    | some t => infer (ofDeclared t)
    | none => freshType .any
  if signature?.any (·.isVariadic) then modify fun s => { s with isVariadic := true }
  let registers ← match signature? with
    | some f => if f.params.isSome then declaredArguments f registers else usualArguments registers
    | none => usualArguments registers
  if o.debug then
    printOut (frame.text name ++ "\n")
    printOut "\nNow, we attempt to translate:\n"
  let fx := graphEffects (← get).types.context g
  evalFrom o g fx (g.nodes.size + 1) 0 registers
  spreadReturns g
  settleReturns (returnsValue o signature? (← get)) returnType
  settleJoins g
  return returnType

end Decompiler.Eval
