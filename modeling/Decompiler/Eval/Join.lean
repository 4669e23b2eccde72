import Decompiler.Eval.Block

/-!
# Joins

A join that is used gets a value: if all paths bring the same value, that value takes its place, and
else every path sets a variable. A join whose only use is the value of another join hands its values
on to that one.
-/

namespace Decompiler.Eval

open Asm Code Infer Decompiler.Flow

def joinedValues (g : Graph) (node : Nat) (r : Register) : Evaluation (List Expr) :=
  (parentsOf g node).mapM fun p => do readFrom ((← get).block p).registers r

def settleJoin (g : Graph) (id : JoinId) : Evaluation Unit := do
  let join := (← get).join id
  let parents := parentsOf g join.node
  expect (join.uses > 0)
  expect (parents.length ≥ 2)
  let values ← joinedValues g join.node join.register
  let s ← get
  let first := s.opened (values.headD default)
  if values.tail.all fun e => (s.opened e).same first then
    let replacement ← asType first join.type true
    modifyJoin id fun j => { j with replacement := some replacement }
    values.forM fun e => tryUnify e.type join.type
    (List.range ((← get).join id).uses).forM fun _ => use first
  else
    parents.forM fun p => do
      let e ← readFrom ((← get).block p).registers join.register
      match e with
      | .join source _ => useByJoin source id
      | _ => use e
      let value ← asType e join.type true
      modifyBlock p fun b => { b with statements := b.statements ++ [.setJoin id value] }

/-- Settles the joins that are used from a position on; more may come into use meanwhile. The first
argument bounds their number. -/
def settleFrom (g : Graph) : Nat → (position : Nat) → Evaluation Unit
  | 0, _ => throw .endless
  | fuel + 1, position => do
    match (← get).usedJoins[position]? with
    | some id =>
      settleJoin g id
      settleFrom g fuel (position + 1)
    | none => pure ()

def nameJoin (counts : Table Register Nat) (id : JoinId) : Evaluation (Table Register Nat) := do
  let s ← get
  let join := s.join id
  if join.replacement.isSome then return counts
  if (← s.destination id) != id then return counts
  let count := (counts.get? join.register).getD 0 + 1
  let stem := "phi_" ++ join.register.name
  let name := if count > 1 then stem ++ "_" ++ toString count else stem
  modifyJoin id fun j => { j with name := some name }
  modify fun s => { s with joinVariables := s.joinVariables.push id }
  return counts.insert join.register count

def settleJoins (g : Graph) : Evaluation Unit := do
  settleFrom g ((← get).joins.size + 1) 0
  discard ((← get).usedJoins.toList.foldlM nameJoin .empty)

end Decompiler.Eval
