import Decompiler.Flow.Graph

/-!
# Fallthrough

Code is written in the order of the nodes. A node that only indirect jumps, loop edges and gotos
lead to would be lost, so the node in front of it is marked to end in a goto, behind which the code
goes on.
-/

namespace Decompiler.Flow.Graph

def leadsTo (g : Graph) (i : Nat) (n : Node) : Except Failure (List Nat) :=
  let hasNext := i + 1 < g.nodes.size
  let next := if hasNext then [i + 1] else []
  let direct (target : Nat) : List Nat := if !n.emitGoto && !g.isLoop i then [target] else []
  match n.link with
  | .next s => pure ((if n.emitGoto then next else []) ++ direct s)
  | .branch t f => do
    expect (hasNext && f == i + 1)
    return (i + 1) :: direct t
  | .select _ => do
    expect hasNext
    return next
  | .exit _ => pure (if n.emitGoto then next else [])

def reached (g : Graph) : Except Failure NodeSet :=
  g.nodes.toList.zipIdx.foldlM
    (fun s (n, i) => do return (← g.leadsTo i n).foldl NodeSet.insert s) (.single 0)

def markBefore (g : Graph) (i : Nat) : Except Failure Graph :=
  match i with
  | 0 => throw (.broken "Start node is never unreachable")
  | k + 1 =>
    match g.nodes[k]? with
    | some ⟨_, _, .branch _ _, _, _, _, _⟩ => throw (.broken "")
    | some n => pure ⟨g.nodes.setIfInBounds k { n with emitGoto := true }⟩
    | none => pure g

/-- Marks nodes until every node is reached; `last` is what was reached before. Each round marks
at least one more node or ends, so that one round for each node and two more are enough. -/
def ensureFallthroughFrom : Nat → NodeSet → Graph → Except Failure Graph
  | 0, _, _ => throw .endless
  | rounds + 1, last, g => do
    let reached ← g.reached
    if reached == last then throw (.broken "Fallthrough process hit a cycle")
    match (List.range g.nodes.size).filter fun i => !reached.contains i with
    | [] => return g
    | missing => ensureFallthroughFrom rounds reached (← missing.foldlM markBefore g)

def ensureFallthrough (g : Graph) : Except Failure Graph :=
  ensureFallthroughFrom (g.nodes.size + 2) .empty g

end Decompiler.Flow.Graph
