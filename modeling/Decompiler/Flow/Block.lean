import Decompiler.Flow.Idiom
import Decompiler.Flow.Labels
import Decompiler.Flow.Likely

/-!
# Blocks

A body is cut into blocks at labels and behind the delay slots of jumps. The delay slot of a call
moves in front of the call, and a likely branch becomes a plain branch around a block that holds
its delay slot.
-/

namespace Decompiler.Flow

open Asm

/-- A run of instructions with at most one jump, which stands at its end. -/
structure Block where
  index : Nat
  label : Option String
  approxLabel : String
  instructions : List Instruction
  deriving DecidableEq, Inhabited

def Block.text (b : Block) : String :=
  "# " ++ toString b.index ++ " (" ++ b.approxLabel ++ ")\n" ++
    String.intercalate "\n" (b.instructions.map fun i => "    " ++ i.text) ++ "\n"

/-- The blocks cut so far and the one being filled. -/
structure Cutter where
  label : Option String := none
  lastLabel : String := "initial"
  count : Nat := 0
  current : List Instruction := []
  blocks : List Block := []
  likelyTargets : List String := []

namespace Cutter

def cut (c : Cutter) : Cutter :=
  if c.current.isEmpty then c
  else
    let name := if c.count == 0 then c.lastLabel else c.lastLabel ++ "." ++ toString c.count
    { c with
      blocks := ⟨c.blocks.length, c.label, name, c.current.reverse⟩ :: c.blocks
      label := none
      count := c.count + 1
      current := [] }

def add (c : Cutter) (i : Instruction) : Cutter :=
  { c with current := i :: c.current }

def setLabel (c : Cutter) (name : String) : Except Failure Cutter :=
  match c.label with
  | some old => if old == name then pure c else reject (.sharedPosition old name)
  | none => pure { c with label := some name, lastLabel := name, count := 0 }

def likelyBranch (c : Cutter) (branch slot : Instruction) : Except Failure Cutter := do
  let target ← branch.target
  let c := { c with likelyTargets := target :: c.likelyTargets }
  let skip := target ++ "_branchlikelyskip_" ++ toString (c.likelyTargets.count target)
  let inverted ← invertLikely branch.mnemonic
  let around := Instruction.derived inverted (branch.args.dropLast ++ [.target skip]) branch
  let nop := Instruction.derived "nop" [] branch
  let goto := Instruction.derived "b" [.target target] branch
  let c := (((c.add around).add nop).cut)
  let c := (((c.add slot).add goto).add nop).cut
  return (← c.setLabel skip).add nop

def withSlot (c : Cutter) (i slot : Instruction) : Except Failure Cutter := do
  if slot.hasDelaySlot then reject (.adjacentDelaySlots i.text slot.text)
  let c ←
    if i.isLikelyBranch then c.likelyBranch i slot
    else if i.mnemonic == "jal" || i.mnemonic == "jalr" then
      match slot.args with
      | [] => pure ((c.add slot).add i)
      | first :: _ => do
        if first == (← i.arg 0) then reject (.overwrittenCallTarget i.mnemonic)
        pure ((c.add slot).add i)
    else pure ((c.add i).add slot)
  return if i.isJump then c.cut else c

/-- Whether running an instruction twice in a row is the same as running it once: its first operand
is none of the others. -/
def isRepeatable (i : Instruction) : Bool :=
  match i.args with
  | [] => true
  | first :: others => !others.contains first

def items (c : Cutter) (body : List Item) : Except Failure Cutter :=
  match body with
  | [] => pure c
  | .label name :: rest => do (← c.cut.setLabel name).items rest
  | .instruction i :: rest =>
    if !i.hasDelaySlot then (c.add i).items rest
    else
      match rest with
      | [] => throw .endOfCode
      | .instruction slot :: rest => do (← c.withSlot i slot).items rest
      | [.label _] => throw .endOfCode
      | .label _ :: .label _ :: _ => throw (.broken "Cannot have two labels in a row")
      | .label name :: .instruction slot :: rest => do
        if !isRepeatable slot then reject (.delaySlotLabel name)
        let c ← (← c.withSlot i slot).cut.setLabel name
        (c.add slot).items rest
termination_by body.length

end Cutter

def missingReturnWarning (label : String) : String :=
  "Warning: missing \"jr $ra\" in last block (." ++ label ++ ").\n"

/-- The blocks of a body in standard form. A labelled block at the end returns; other instructions
behind the last jump are dropped. -/
def cutBlocks (body : List Item) : Command (List Block) := do
  let c ← Cutter.items {} body
  match c.label with
  | none => return c.blocks.reverse
  | some label => do
    printLine (missingReturnWarning label)
    let c := (c.add ⟨"jr", [.register ⟨"ra"⟩], .unknown⟩).add ⟨"nop", [], .unknown⟩
    return c.cut.blocks.reverse

def blocks (mentioned : List String) (body : List Item) : Command (List Block) := do
  let body ← plainBranches body
  let body ← pruneLabels mentioned body
  let body ← replaceIdioms body
  let body ← pruneLabels mentioned body
  cutBlocks body

end Decompiler.Flow
