import Decompiler.Flow.Graph

/-!
# Labels

The labels that a node may get: those of the cases of a switch and that of a goto.
-/

namespace Decompiler.Structure

open Decompiler.Flow

structure Case where
  switch : Nat
  index : Option Nat
  deriving DecidableEq

structure Labels where
  switches : List (Nat × Nat) := []
  cases : List (Nat × Case) := []
  loops : NodeSet := .empty

def mostCommon? (xs : List Nat) : Option Nat :=
  xs.foldl (fun best x =>
    match best with
    | none => some x
    | some b => if xs.count b < xs.count x then some x else some b) none

/-- The cases of a switch. If some node is selected more than once, the one that is selected most
often is the default, and only the first index may still name it. -/
def switchCases (switch : Nat) (targets : List Nat) : List (Nat × Case) :=
  let common := (mostCommon? targets).filter fun t => targets.count t > 1
  let default := common.toList.map fun t => (t, ⟨switch, none⟩)
  let explicit := targets.zipIdx.filterMap fun (t, i) =>
    if common == some t && i != 0 then none else some (t, ⟨switch, some i⟩)
  default ++ explicit

def Labels.step (g : Graph) (several : Bool) (l : Labels) (i : Nat) : Except Failure Labels := do
  match (g.nodes.getD i default).link with
  | .select targets =>
    expect (!targets.isEmpty) "jtbl list must not be empty"
    let switch := if several then l.switches.length + 1 else 0
    return { l with
      switches := l.switches ++ [(i, switch)]
      cases := l.cases ++ switchCases switch targets }
  | .branch t _ => return if g.isLoop i then { l with loops := l.loops.insert t } else l
  | .next s => return if g.isLoop i then { l with loops := l.loops.insert s } else l
  | .exit _ => return l

def Labels.ofGraph (g : Graph) : Except Failure Labels :=
  let switches := g.nodes.toList.filter fun n =>
    match n.link with
    | .select _ => true
    | _ => false
  (List.range g.nodes.size).foldlM (Labels.step g (switches.length > 1)) {}

namespace Labels

def switch (l : Labels) (node : Nat) : Nat :=
  (l.switches.lookup node).getD 0

def casesOf (l : Labels) (node : Nat) : List Case :=
  l.cases.filterMap fun (n, c) => if n == node then some c else none

def name (l : Labels) (g : Graph) (node : Nat) : String :=
  (if l.loops.contains node then "loop_" else "block_") ++ toString (g.blockIndex node)

end Labels

def switchNote (switch : Nat) : String :=
  if switch == 0 then "" else " // switch " ++ toString switch

def Case.text (c : Case) : String :=
  (match c.index with
  | some i => "case " ++ toString i
  | none => "default") ++ ":" ++ switchNote c.switch

end Decompiler.Structure
