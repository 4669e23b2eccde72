import Decompiler.Eval.Instruction

/-!
# What blocks write

Which registers change on the way from a dominating node to a node. A register that is set on every
way holds a join of values there; one that a call may have changed holds nothing.
-/

namespace Decompiler.Eval

open Asm Code Infer Decompiler.Flow

/-- The registers that change with an operand of an instruction; a result is also a value to
return. -/
def changedAt (i : Instruction) (index : Nat) : Except Failure (List Register) := do
  match ← i.arg index with
  | .register r => return if r.name == "f0" || r.name == "v0" then [r, returnRegister] else [r]
  | _ => return []

def outputs (context : Option C.TypeMap) (i : Instruction) : Except Failure (List Register) := do
  match action i.mnemonic with
  | .jump | .store _ | .branch _ | .floatBranch _ | .skip | .effect _ => return []
  | .call =>
    match context with
    | some m =>
      if i.mnemonic == "jal" then
        let signature? := (← i.arg 0).symbol?.bind m.functions.get?
        if signature?.any (·.result.isNone) then return []
    | none => pure ()
    return [returnRegister, ⟨"f0"⟩, ⟨"v0"⟩, ⟨"v1"⟩]
  | .moveToFloat => changedAt i 1
  | .set _ => changedAt i 0
  | .loadLower => changedAt i 0
  | .floatCompare _ => return [conditionRegister]
  | .setHighLow _ => return [⟨"hi"⟩, ⟨"lo"⟩]
  | .unknown =>
    match i.args.head? with
    | some (.register _) => changedAt i 0
    | _ => return []

structure Effect where
  outputs : List Register
  isCall : Bool

def blockEffects (context : Option C.TypeMap) (instructions : List Instruction) :
    Except Failure (List Effect) :=
  instructions.mapM fun i =>
    match outputs context i with
    | .ok outputs => pure ⟨outputs, i.mnemonic == "jal" || i.mnemonic == "jalr"⟩
    | .error e => throw (.within i.text e)

abbrev Effects := Array (Except Failure (List Effect))

def graphEffects (context : Option C.TypeMap) (g : Graph) : Effects :=
  g.nodes.map fun n => blockEffects context n.block.instructions

def Effects.at (fx : Effects) (i : Nat) : Except Failure (List Effect) :=
  fx.getD i (pure [])

def parentsOf (g : Graph) (i : Nat) : List Nat :=
  match g.nodes[i]? with
  | some n => n.parents
  | none => []

def edgeCount (g : Graph) : Nat :=
  (g.nodes.toList.flatMap (·.parents)).length

/-- Collects the registers that change in the nodes on a stack and their ancestors, except for those
seen before. The last element of the stack comes first. The first argument bounds the number of
steps; each edge leads to one step. -/
def changedFrom (g : Graph) (fx : Effects) :
    Nat → (seen : NodeSet) → (stack : List Nat) → List Register → Except Failure (List Register)
  | 0, _, _, _ => throw .endless
  | _ + 1, _, [], changed => pure changed
  | fuel + 1, seen, n :: stack, changed =>
    if seen.contains n then changedFrom g fx fuel seen stack changed
    else do
      let effects ← fx.at n
      let changed := effects.foldl (fun changed e =>
        changed ++ e.outputs ++ if e.isCall then callerSaved else []) changed
      changedFrom g fx fuel (seen.insert n) ((parentsOf g n).reverse ++ stack) changed

def changedRegisters (g : Graph) (fx : Effects) (i : Nat) : Except Failure (List Register) := do
  match g.nodes[i]?.bind (·.immediateDominator) with
  | none => return []
  | some d =>
    let fuel := edgeCount g + (parentsOf g i).length + 1
    return (← changedFrom g fx fuel (.single d) (parentsOf g i).reverse []).eraseDups

/-- Whether a register is set at the end of a block: `none` if the block leaves it alone, and
`false` if a call may have changed it. -/
def setIn (r : Register) (effects : List Effect) : Option Bool :=
  effects.foldl (fun state e =>
    let state := if e.isCall && callerSaved.contains r then some false else state
    if e.outputs.contains r then some true else state) none

/-- Whether a register is set on all ways to the nodes on a stack; see `changedFrom`. -/
def alwaysSetFrom (g : Graph) (fx : Effects) (r : Register) (dominator : Nat)
    (setInDominator : Bool) : Nat → (seen : NodeSet) → (stack : List Nat) → Except Failure Bool
  | 0, _, _ => throw .endless
  | _ + 1, _, [] => pure true
  | fuel + 1, seen, n :: stack =>
    if n == dominator && !setInDominator then pure false
    else if seen.contains n then alwaysSetFrom g fx r dominator setInDominator fuel seen stack
    else do
      match setIn r (← fx.at n) with
      | some false => return false
      | some true => alwaysSetFrom g fx r dominator setInDominator fuel (seen.insert n) stack
      | none =>
        alwaysSetFrom g fx r dominator setInDominator fuel (seen.insert n)
          ((parentsOf g n).reverse ++ stack)

/-- Whether a register is set on all ways to a node, where it is known whether it is set at the end
of the immediate dominator. -/
def isAlwaysSet (g : Graph) (fx : Effects) (i : Nat) (r : Register) (setInDominator : Bool) :
    Except Failure Bool :=
  match g.nodes[i]?.bind (·.immediateDominator) with
  | none => pure false
  | some d =>
    let fuel := edgeCount g + (parentsOf g i).length + 1
    alwaysSetFrom g fx r d setInDominator fuel (.single d) (parentsOf g i).reverse

end Decompiler.Eval
