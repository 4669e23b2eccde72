import Decompiler.Asm.File

/-!
# Labels in use

A label counts only if a branch goes to it or the read-only data mentions it.
-/

namespace Decompiler.Flow

open Asm

def branchTargets : List Item → Except Failure (List String)
  | [] => pure []
  | .instruction i :: items => do
    if i.isBranch then
      let label ← i.target
      return label :: (← branchTargets items)
    else branchTargets items
  | .label _ :: items => branchTargets items

def pruneLabels (mentioned : List String) (body : List Item) : Except Failure (List Item) := do
  let targets ← branchTargets body
  return body.filter fun
    | .label name => mentioned.contains name || targets.contains name
    | .instruction _ => true

end Decompiler.Flow
