import Decompiler.Flow.Graph

/-!
# Dominators

A node dominates another if it lies on every path from the entry to it. The sets of dominators are
the largest ones in which each node has itself and what all its parents have.
-/

namespace Decompiler.Flow.Graph

def dominatorsAt (doms : Array NodeSet) (i : Nat) : NodeSet :=
  (doms[i]?).getD .empty

def joinParents (doms : Array NodeSet) (i : Nat) (n : Node) : NodeSet :=
  (n.parents.foldl (fun s p => s.inter (dominatorsAt doms p)) (dominatorsAt doms i)).insert i

def dominatorPass (nodes : List (Node × Nat)) (doms : Array NodeSet) : Array NodeSet :=
  nodes.foldl (fun doms (n, i) => doms.setIfInBounds i (joinParents doms i n)) doms

/-- Passes over all nodes until nothing changes. The first argument bounds the number of passes:
every pass but the last one takes a node out of some set. -/
def dominatorPasses (nodes : List (Node × Nat)) : Nat → Array NodeSet → Array NodeSet
  | 0, doms => doms
  | passes + 1, doms =>
    let doms' := dominatorPass nodes doms
    if doms' == doms then doms else dominatorPasses nodes passes doms'

def dominatorSets (g : Graph) : Array NodeSet :=
  let n := g.nodes.size
  let start := (Array.replicate n (NodeSet.below n)).setIfInBounds 0 (.single 0)
  dominatorPasses (g.nodes.toList.zipIdx.drop 1) (n * n + 1) start

def lastDominator? (doms : Array NodeSet) (i : Nat) : Option Nat :=
  let n := doms.size
  ((dominatorsAt doms i).toList n).foldl (fun best d =>
    if d == i then best
    else
      match best with
      | none => some d
      | some b =>
        if (dominatorsAt doms b).size n < (dominatorsAt doms d).size n then some d else some b)
    none

def withDominators (g : Graph) : Graph :=
  let doms := g.dominatorSets
  let immediate := (List.range g.nodes.size).map fun i =>
    if i == 0 then none else lastDominator? doms i
  let immediateAt := immediate.toArray
  ⟨g.nodes.mapIdx fun i n =>
    { n with
      dominators := dominatorsAt doms i
      immediateDominator := (immediateAt[i]?).join
      immediatelyDominates :=
        (List.range g.nodes.size).filter fun j => (immediateAt[j]?).join == some i }⟩

end Decompiler.Flow.Graph
