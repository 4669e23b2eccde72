import Decompiler.Flow.Graph

/-!
# Postdominators

The node where the paths from a branch meet again. Branches that go back are left out, so that a
loop counts as straight code.
-/

namespace Decompiler.Structure

open Decompiler.Flow

/-- The nodes that control goes on to, without branches that go back. -/
def forward (g : Graph) (i : Nat) : List Nat :=
  match g.nodes[i]? with
  | none => []
  | some n =>
    match n.link with
    | .branch t f => if g.isLoop i then [f] else [t, f]
    | link => link.targets

def searchBound (g : Graph) : Nat :=
  (g.nodes.toList.flatMap (·.link.targets)).length + 2

/-- Searches the nodes that can be reached from those on a stack, except for those seen before; they
come in the order in which they are found, the last one first. The first argument bounds the number
of steps. -/
def searchFrom (g : Graph) : Nat → (seen : NodeSet) → (stack found : List Nat) → NodeSet × List Nat
  | 0, seen, _, found => (seen, found)
  | _ + 1, seen, [], found => (seen, found)
  | fuel + 1, seen, n :: stack, found =>
    if seen.contains n then searchFrom g fuel seen stack found
    else searchFrom g fuel (seen.insert n) ((forward g n).reverse ++ stack) (n :: found)

def reachable (g : Graph) (start : Nat) : List Nat :=
  (searchFrom g (searchBound g) .empty [start] []).2.reverse

def reachableWithout (g : Graph) (start without : Nat) : List Nat :=
  (searchFrom g (searchBound g) (.single without) [start] []).2

abbrev Searches := Table (Nat × Nat) (List Nat)

/-- Whether a node can be reached from another one without passing a third one, and the searches
after that. -/
def isReachableWithout (g : Graph) (start stop without : Nat) (searches : Searches) :
    Bool × Searches :=
  match searches.get? (start, without) with
  | some nodes => (nodes.contains stop, searches)
  | none =>
    let nodes := reachableWithout g start without
    (nodes.contains stop, searches.insert (start, without) nodes)

def lastBlock (g : Graph) : List Nat → Option Nat
  | [] => none
  | n :: ns => some (ns.foldl (fun best m =>
      if g.blockIndex best < g.blockIndex m then m else best) n)

def isPassed (g : Graph) (start stop n : Nat) (searches : Searches) : Bool × Searches :=
  if n == start then (false, searches)
  else (isReachableWithout g start stop n searches).map (!·) id

/-- Searches the nodes on a stack for those that every path from `start` to `stop` passes, and goes
on behind the others; see `searchFrom`. -/
def postdominatorsFrom (g : Graph) (start stop : Nat) :
    Nat → (seen : NodeSet) → (stack found : List Nat) → StateT Searches (Except Failure) (List Nat)
  | 0, _, _, _ => throw .endless
  | _ + 1, _, [], found => pure found.reverse
  | fuel + 1, seen, n :: stack, found =>
    if seen.contains n then postdominatorsFrom g start stop fuel seen stack found
    else do
      if ← modifyGet (isPassed g start stop n) then
        postdominatorsFrom g start stop fuel (seen.insert n) stack (n :: found)
      else if n == stop then throw (.broken "")
      else
        postdominatorsFrom g start stop fuel (seen.insert n) ((forward g n).reverse ++ stack) found

/-- The end of the paths that are looked at: the given one, or the last node that can be reached if
that one cannot. -/
def lastOnPaths (g : Graph) (start : Nat) (stop? : Option Nat) : Option Nat :=
  let nodes := reachable g start
  match stop? with
  | some stop => if nodes.contains stop then some stop else lastBlock g nodes
  | none => lastBlock g nodes

/-- The first node that every path from `start` to `stop` passes. If `stop` cannot be reached, the
last node that can takes its place. -/
def immediatePostdominator (g : Graph) (start : Nat) (stop? : Option Nat) :
    StateT Searches (Except Failure) Nat := do
  match lastOnPaths g start stop? with
  | none => throw (.broken "")
  | some stop =>
    match ← postdominatorsFrom g start stop (searchBound g) .empty [start] [] with
    | [p] => return p
    | _ => throw (.broken "we should always find exactly one postdominator")

end Decompiler.Structure
