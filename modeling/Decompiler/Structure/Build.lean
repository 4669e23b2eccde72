import Decompiler.Options
import Decompiler.Structure.Body
import Decompiler.Structure.Postdominator

/-!
# Recovering control flow

A branch becomes a condition around the code up to the node where its paths meet again. Chains of
branches to the same node become one condition with short-circuiting operators.
-/

namespace Decompiler.Structure

open Code Eval Decompiler.Flow Infer

structure Outline where
  gotos : NodeSet := .empty
  emitted : NodeSet := .empty
  returnsValue : Bool := false
  searches : Searches := Table.empty

abbrev Build := StateT Outline Evaluation

structure Plan where
  options : Options
  graph : Graph

namespace Plan

def node (p : Plan) (i : Nat) : Node :=
  p.graph.nodes.getD i default

def isCopy (p : Plan) (i : Nat) : Bool :=
  match (p.node i).link with
  | .exit (_ + 1) => true
  | _ => false

end Plan

def blockOf (i : Nat) : Build BlockResult := do
  return (← (get : Evaluation Session)).block i

def statementsOf (i : Nat) : Build (List Stmt) := do
  (← blockOf i).statements.filterM fun s => (isWritten s : Evaluation Bool)

def conditionOf (i : Nat) : Build Expr := do
  match (← blockOf i).condition with
  | some e => return e
  | none => throw (.broken "")

/-- The statements of a node, below a place for its labels. A copy of a return has no labels. Notes
on nodes are written if `notes` is set. -/
def emitNode (p : Plan) (notes : Bool) (i indent : Nat) : Build Body := do
  let statements ← statementsOf i
  if p.isCopy i then return [.block indent i statements (notes && !statements.isEmpty)]
  return [.label (indent - 1) i, .block indent i statements notes]

def emitGoto (target indent : Nat) : Build Body := do
  modify fun o => { o with gotos := o.gotos.insert target }
  return [.goto indent target]

def textOf (p : Plan) (e : Expr) : Build String :=
  (wholeText p.options.skipCasts e : Evaluation String)

def emitDispatch (p : Plan) (i indent : Nat) : Build Body := do
  match (← blockOf i).switchValue with
  | some e => return [.dispatch indent i (← textOf p e)]
  | none => throw (.broken "")

/-- A return; at the end of the function one without a value is not written. -/
def emitReturn (p : Plan) (notes : Bool) (i indent : Nat) (isLast : Bool) : Build Body := do
  let body ← emitNode p notes i indent
  match (← blockOf i).returnValue with
  | some e =>
    let value ← textOf p e
    modify fun o => { o with returnsValue := true }
    return body ++ [.exit indent i (some value)]
  | none => return if isLast then body else body ++ [.exit indent i none]

def emitJump (p : Plan) (notes : Bool) (target indent : Nat) : Build Body :=
  if p.isCopy target then emitReturn p notes target indent false else emitGoto target indent

def conditionWithStatements (i : Nat) : Build Expr := do
  let condition ← conditionOf i
  let statements ← statementsOf i
  return if statements.isEmpty then condition else .comma statements condition

def isComma : Expr → Bool
  | .comma _ _ => true
  | _ => false

def joinConditions (op : BinOp) : List Expr → Evaluation Expr
  | [] => throw (.broken "")
  | c :: cs => cs.foldlM (fun left right => do
      return .binary left op right (← freshType .truth) false) c

def noneOf (conditions : List Expr) : Evaluation Expr := do
  joinConditions .and (← conditions.mapM negate)

/-- A chain of branches to one node. -/
structure Chain where
  tests : List (Expr × Nat)
  bottom : Nat
  next : Nat
  /-- Whether the node behind is also a branch, which falls through to `bottom`; then its condition
  and the node that it goes to. -/
  closing : Option (Expr × Nat)

/-- One step along a chain of branches to `bottom` behind the given node, whose condition is the last
one of those collected, by means of `follow`, which goes on from the next branch. -/
def followStep (g : Graph) (bottom : Nat) (follow : Nat → List (Expr × Nat) → Build Chain)
    (current : Nat) (tests : List (Expr × Nat)) : Build Chain := do
  match (g.nodes.getD current default).link with
  | .branch _ next =>
    let node := g.nodes.getD next default
    match node.link with
    | .branch target fall =>
      if (target != bottom && fall != bottom) || g.isLoop next || node.parents.length > 1 then
        return ⟨tests, bottom, next, none⟩
      if fall == bottom then
        return ⟨tests, bottom, next, some (← conditionWithStatements next, target)⟩
      follow next (tests ++ [(← conditionWithStatements next, next)])
    | _ => return ⟨tests, bottom, next, none⟩
  | _ => throw (.broken "")

/-- Follows a chain of branches to `bottom` behind the given node. The first argument bounds the
length. -/
def followChain (g : Graph) (bottom : Nat) : Nat → Nat → List (Expr × Nat) → Build Chain
  | 0, _, _ => throw .endless
  | fuel + 1, current, tests => followStep g bottom (followChain g bottom fuel) current tests

def following (g : Graph) (i : Nat) : Except Failure Nat :=
  if i + 1 < g.nodes.size then pure (i + 1) else throw .missingItem

/-- The condition around the code from the first branch of a chain to `stop`, by means of `between`,
which builds the code between two nodes. -/
def buildChain (between : Nat → Option Nat → Nat → Build Body) (chain : Chain)
    (stop indent : Nat) : Build Part := do
  match chain.closing with
  | some (last, other) =>
    let body ← between chain.bottom (some stop) (indent + 1)
    let elseBody ← between other (some stop) (indent + 1)
    let conditions := chain.tests.map (·.1) ++ [← negate last]
    return .branch indent (← joinConditions .or conditions) body (some elseBody)
  | none =>
    match chain.bottom == stop, chain.tests.find? fun (c, _) => isComma c with
    | true, some (_, node) =>
      let plain := chain.tests.takeWhile fun (c, _) => !isComma c
      let body ← between node (some stop) (indent + 1)
      return .branch indent (← noneOf (plain.map (·.1))) body none
    | _, _ =>
      let body ← between chain.next (some stop) (indent + 1)
      let elseBody ← between chain.bottom (some stop) (indent + 1)
      return .branch indent (← noneOf (chain.tests.map (·.1))) body (some elseBody)

/-- The condition around the code from a branch to `stop` if it is the first one of a chain of
branches to `target`, by means of `between`, which builds the code between two nodes. -/
def buildAndOr (p : Plan) (between : Nat → Option Nat → Nat → Build Body) (condition : Expr)
    (start target stop indent : Nat) : Build Part := do
  let g := p.graph
  let chain ← followChain g target (g.nodes.size + 1) start [(condition, start)]
  buildChain between chain stop indent

/-- The condition around the code from a branch to `stop`, by means of `between`, which builds the
code between two nodes. -/
def buildBranch (p : Plan) (between : Nat → Option Nat → Nat → Build Body)
    (start stop indent : Nat) : Build Part := do
  match (p.node start).link with
  | .branch target fall =>
    let condition ← conditionOf start
    let sharesTarget := match (p.node fall).link with
      | .branch t f => t == target || f == target
      | _ => false
    if fall == stop then
      let body ← between target (some stop) (indent + 1)
      return .branch indent condition body none
    else if sharesTarget && p.options.andOr then
      buildAndOr p between condition start target stop indent
    else
      let condition ← (negate condition : Evaluation Expr)
      let body ← between fall (some stop) (indent + 1)
      let elseBody ← between target (some stop) (indent + 1)
      return .branch indent condition body (some elseBody)
  | _ => throw (.broken "")

def meetingNode (g : Graph) (start : Nat) (stop : Option Nat) : Build Nat := do
  let (meet, searches) ← (immediatePostdominator g start stop).run (← get).searches
  modify fun o => { o with searches := searches }
  return meet

/-- The block of a node, which is noted as written. A return is written with its jump. -/
def emitHead (p : Plan) (i indent : Nat) : Build Body := do
  if (p.node i).isExit then return []
  modify fun o => { o with emitted := o.emitted.insert i }
  emitNode p p.options.debug i indent

def emitLeap (p : Plan) (i indent : Nat) : Build Body :=
  match (p.node i).link with
  | .next s => emitJump p p.options.debug s indent
  | .branch t _ => do
    let body ← emitJump p false t (indent + 1)
    return [.branch indent (← conditionOf i) body none]
  | .select _ => emitDispatch p i indent
  | .exit _ => emitReturn p p.options.debug i indent false

def behindLeap (p : Plan) (i : Nat) : Build Nat := do
  let next ← following p.graph i
  match (p.node i).link with
  | .branch _ f => expect (next == f)
  | _ => pure ()
  return next

/-- The code from a node up to `stop`, which is not part of it, by means of `between`, which builds
such code from other nodes on. -/
def buildFrom (p : Plan) (between : Nat → Option Nat → Nat → Build Body) (start : Nat)
    (stop : Option Nat) (indent : Nat) : Build Body := do
  if stop == some start then return []
  let node := p.node start
  if !node.isExit && (← get).emitted.contains start then return ← emitGoto start indent
  let head ← emitHead p start indent
  if node.emitGoto then
    let jump ← emitLeap p start indent
    let next ← behindLeap p start
    return head ++ jump ++ (← between next stop indent)
  match node.link with
  | .select _ => throw (.broken "")
  | .next s => return head ++ (← between s stop indent)
  | .branch _ _ =>
    let meet ← meetingNode p.graph start stop
    let part ← buildBranch p between start meet indent
    return head ++ part :: (← between meet stop indent)
  | .exit _ => return head ++ (← emitReturn p p.options.debug start indent false)

/-- The code from a node up to `stop`, which is not part of it. The first argument bounds the number
of nodes on the way and the depth. -/
def buildBetween (p : Plan) :
    Nat → (start : Nat) → (stop : Option Nat) → (indent : Nat) → Build Body
  | 0, _, _, _ => throw .endless
  | fuel + 1, start, stop, indent => buildFrom p (buildBetween p fuel) start stop indent

/-- The code of a node when all control flow is written as gotos. -/
def buildPlain (p : Plan) (exit? : Option Nat) (i : Nat) : Build Body := do
  let notes := p.options.debug
  let goOn (next : Nat) : Build Body :=
    if next == i + 1 && i + 1 < p.graph.nodes.size && !p.isCopy next then return []
    else emitJump p notes next 1
  match (p.node i).link with
  | .exit _ =>
    if !p.isCopy i && exit? != some i then emitReturn p notes i 1 false else return []
  | .next s =>
    let head ← emitNode p notes i 1
    return head ++ (← goOn s)
  | .select _ =>
    let head ← emitNode p notes i 1
    return head ++ (← emitDispatch p i 1)
  | .branch t f =>
    let head ← emitNode p notes i 1
    let body ← emitJump p false t 2
    let part : Part := .branch 1 (← conditionOf i) body none
    return head ++ part :: (← goOn f)

def buildBody (p : Plan) : Build Body := do
  let g := p.graph
  let exit? := g.returnNode?
  if p.options.debug then (printOut "Here's the whole function!\n\n" : Evaluation Unit)
  let body ←
    if p.options.structured then buildBetween p (Nat.pow (g.nodes.size + 2) 2) 0 exit? 1
    else do
      let bodies ← (List.range g.nodes.size).mapM (buildPlain p exit?)
      pure bodies.flatten
  match exit? with
  | some exit => return body ++ (← emitReturn p p.options.debug exit 1 true)
  | none => return body

end Decompiler.Structure
