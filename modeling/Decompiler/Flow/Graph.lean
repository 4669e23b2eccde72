import Decompiler.Flow.Block
import Decompiler.Flow.NodeSet

/-!
# The flow graph

The nodes of a flow graph are blocks with a link that says where control goes behind them. The
graph of a list of blocks holds those that can be reached from the first one.
-/

namespace Decompiler.Flow

open Asm

/-- Where control goes behind a block. -/
inductive Link where
  | next (successor : Nat)
  | branch (target fallthrough : Nat)
  /-- Back to the caller; copies of a return are counted from one. -/
  | exit (copy : Nat)
  | select (cases : List Nat)
  deriving DecidableEq, Inhabited

def Link.targets : Link → List Nat
  | .next s => [s]
  | .branch t f => [t, f]
  | .exit _ => []
  | .select cases => cases

def Link.map (rename : Nat → Nat) : Link → Link
  | .next s => .next (rename s)
  | .branch t f => .branch (rename t) (rename f)
  | .exit copy => .exit copy
  | .select cases => .select (cases.map rename)

/-- A node of the flow graph. -/
structure Node where
  block : Block
  emitGoto : Bool
  link : Link
  parents : List Nat := []
  dominators : NodeSet := .empty
  immediateDominator : Option Nat := none
  immediatelyDominates : List Nat := []
  deriving DecidableEq, Inhabited

namespace Node

def name (n : Node) : String :=
  match n.link with
  | .exit (copy + 1) => toString n.block.index ++ "." ++ toString (copy + 1)
  | _ => toString n.block.index

def isExit (n : Node) : Bool :=
  match n.link with
  | .exit _ => true
  | _ => false

end Node

structure Graph where
  nodes : Array Node
  deriving Inhabited

namespace Graph

def blockIndex (g : Graph) (i : Nat) : Nat :=
  match g.nodes[i]? with
  | some n => n.block.index
  | none => 0

def isLoopEdge (g : Graph) (source target : Nat) : Bool :=
  g.blockIndex target ≤ g.blockIndex source

def isLoop (g : Graph) (i : Nat) : Bool :=
  match g.nodes[i]? with
  | some n =>
    match n.link with
    | .next s => g.isLoopEdge i s
    | .branch t _ => g.isLoopEdge i t
    | _ => false
  | none => false

def returnNode? (g : Graph) : Option Nat :=
  (List.range g.nodes.size).reverse.find? fun i =>
    match g.nodes[i]? with
    | some n => n.link == .exit 0
    | none => false

def nodeText (g : Graph) (i : Nat) : String :=
  match g.nodes[i]? with
  | none => ""
  | some n =>
    let index (j : Nat) : String := toString (g.blockIndex j)
    let loop := if g.isLoop i then " (loop)" else ""
    let goto := if n.emitGoto then " (goto)" else ""
    n.block.text ++ "\n# " ++ index i ++ " -> " ++
      match n.link with
      | .next s => index s ++ loop ++ goto
      | .branch t f => "cond: " ++ index t ++ loop ++ ", def: " ++ index f ++ goto
      | .exit _ => "ret" ++ goto
      | .select cases => String.intercalate ", " (cases.map index)

end Graph

abbrev Draft := List (Nat × Node)

namespace Draft

def addParent (d : Draft) (child parent : Nat) : Draft :=
  d.map fun (i, n) =>
    if i == child then (i, { n with parents := n.parents ++ [parent] }) else (i, n)

def ensureParent (d : Draft) (child parent : Nat) : Draft :=
  match d.lookup child with
  | some n => if n.parents.contains parent then d else d.addParent child parent
  | none => d

def addCase (d : Draft) (i case : Nat) : Draft :=
  d.map fun (j, n) =>
    match n.link with
    | .select cases => if j == i then (j, { n with link := .select (cases ++ [case]) }) else (j, n)
    | _ => (j, n)

end Draft

def jumpTable? : Operand → Option String
  | .memoryAt (.half .low of) _ =>
    match of.symbol? with
    | some name =>
      if ["jtbl", "jpt_"].any fun p => p.toList.isPrefixOf name.toList then some name else none
    | none => none
  | _ => none

def jumpTableLabels : List Datum → List String
  | .symbol name :: rest => dropDots name :: jumpTableLabels rest
  | _ => []

def selectedLabels (rodata : Rodata) (block : Block) (jump : Instruction) :
    Except Failure (List String) :=
  match block.instructions.flatMap fun i => i.args.filterMap jumpTable? with
  | [table] =>
    match rodata.values.get? table with
    | none => reject (.missingJumpTable jump.origin.place)
    | some entry => pure (jumpTableLabels entry.data)
  | _ => reject (.unknownJumpTable jump.origin.place)

def labelledBlock? (blocks : Array Block) (label : String) : Option Nat :=
  blocks.findIdx? fun b => b.label == some label

/-- Visits the block with the given number and all blocks that can be reached from it, except for
those visited before. The first argument bounds the depth; one more than the number of blocks is
enough, since each level of the visit marks a block of its own. -/
def visit (blocks : Array Block) (rodata : Rodata) : Nat → Nat → Draft → Except Failure Draft
  | 0, _, _ => throw .endless
  | depth + 1, k, d =>
    if (d.lookup k).isSome then pure d
    else
      match blocks[k]? with
      | none => throw .missingItem
      | some block =>
        let add (emitGoto : Bool) (link : Link) : Draft :=
          d ++ [(k, { block := block, emitGoto := emitGoto, link := link })]
        let hasNext := k + 1 < blocks.size
        match block.instructions.filter Instruction.isJump with
        | [] => do
          if !hasNext then throw .missingItem
          let d ← visit blocks rodata depth (k + 1) (add false (.next (k + 1)))
          return d.addParent (k + 1) k
        | [jump] => do
          if jump.mnemonic == "jr" then
            if (← jump.arg 0) == .register ⟨"ra"⟩ then return add false (.exit 0)
            else
              let labels ← selectedLabels rodata block jump
              labels.foldlM (fun d label =>
                match labelledBlock? blocks label with
                | none => reject (.jumpTableTarget label)
                | some case => do
                  let d ← visit blocks rodata depth case d
                  return (d.addCase k case).ensureParent case k)
                (add true (.select []))
          else
            let label ← jump.target
            match labelledBlock? blocks label with
            | none => reject (.branchTarget label)
            | some target =>
              if jump.mnemonic == "b" || jump.mnemonic == "j" then
                let d ← visit blocks rodata depth target (add jump.origin.emitGoto (.next target))
                return d.addParent target k
              else
                if !hasNext then throw .missingItem
                let d := add jump.origin.emitGoto (.branch target (k + 1))
                let d ← visit blocks rodata depth target d
                let d ← visit blocks rodata depth (k + 1) d
                return (d.addParent target k).addParent (k + 1) k
        | _ => throw (.broken "too many jump instructions in one block")

def reachableNodes (blocks : List Block) (rodata : Rodata) : Except Failure Draft := do
  let d ← visit blocks.toArray rodata (blocks.length + 1) 0 []
  return d.mergeSort fun a b => a.1 ≤ b.1

end Decompiler.Flow
