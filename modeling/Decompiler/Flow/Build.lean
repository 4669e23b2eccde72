import Decompiler.Flow.Dominator
import Decompiler.Flow.Fallthrough
import Decompiler.Flow.Return

/-!
# The flow graph of a function
-/

namespace Decompiler.Flow

open Asm

def Graph.ofBody (rodata : Rodata) (body : List Item) : Command Graph := do
  let blocks ← blocks rodata.mentioned body
  let draft ← reachableNodes blocks rodata
  let g := Graph.ofDraft (copyReturns blocks.length draft)
  return (← g.ensureFallthrough).withDominators

end Decompiler.Flow
