import Decompiler.Eval.Session

/-!
# Uses of values

A temporary becomes a variable when it is used a second time, so all uses are counted: an expression
counts as used once it is certain to be written. There are three ways to look behind a temporary:
as far as it is written in place, as far as one may evaluate it again, and all the way.
-/

namespace Decompiler.Eval

open Asm Code Infer

def Session.parts (s : Session) : Expr → List Expr
  | .binary l _ r _ _ => [l, r]
  | .unary _ e _ => [e]
  | .test e _ _ => [e]
  | .cast e _ _ _ => [e]
  | .call f args _ => args ++ [f]
  | .member e _ _ _ _ => [e]
  | .element b i _ => [b, i]
  | .address e _ => [e]
  | .upperBytes e _ _ _ => [e]
  | .upperBytesAt e _ _ _ => [e]
  | .threeBytes e _ => [e]
  | .unaligned e _ => [e]
  | .temp id _ => if (s.temp id).isVariable then [] else [(s.temp id).value]
  | .forced id t => [.temp id t]
  | _ => []

def countJoin (id : JoinId) (user : Option JoinId) : Evaluation Unit := do
  expect (id < (← get).joins.size)
  if ((← get).join id).uses == 0 then
    modify fun s => { s with usedJoins := s.usedJoins.push id }
    modifyJoin id fun j => { j with usedBy := user }
  modifyJoin id fun j => { j with
    uses := j.uses + 1
    usedBy := if j.usedBy == user then user else none }

/-- Counts a use of a temporary, and of its value if it is written there for the first time. There
has to be such a temporary. -/
def useTemp (useValue : Expr → Evaluation Unit) (id : TempId) : Evaluation Unit := do
  expect (id < (← get).temps.size)
  modifyTemp id fun t => { t with uses := t.uses + 1 }
  let t := (← get).temp id
  if t.trivial || (t.uses == 1 && !t.exactlyOnce) then useValue t.value
  else pure ()

/-- Counts a use of an expression; the first argument bounds how deep it goes. -/
def useFrom : Nat → Expr → Evaluation Unit
  | 0, _ => throw .endless
  | depth + 1, e => do
    match e with
    | .comma _ _ => throw (.broken "")
    | .cast operand type _ _ =>
      tryUnify operand.type type
      useFrom depth operand
    | .temp id _ => useTemp (useFrom depth) id
    | .forced id _ =>
      modifyTemp id fun t => { t with trivial := false, forced := true }
      useTemp (useFrom depth) id
      useTemp (useFrom depth) id
    | .join id _ =>
      countJoin id none
      match ((← get).join id).replacement with
      | some value => useFrom depth value
      | none => pure ()
    | _ => ((← get).parts e).forM (useFrom depth)

def use (e : Expr) : Evaluation Unit := do
  useFrom (← get).reach e

def useByJoin (id user : JoinId) : Evaluation Unit := do
  countJoin id (some user)
  match ((← get).join id).replacement with
  | some value => use value
  | none => pure ()

namespace Session

def mentionsFrom (s : Session) (p : Expr → Bool) : Nat → Expr → Bool
  | 0, _ => false
  | depth + 1, e => p e || (s.parts e).any (s.mentionsFrom p depth)

def mentions (s : Session) (p : Expr → Bool) (e : Expr) : Bool :=
  s.mentionsFrom p s.reach e

def writtenFrom (s : Session) : Nat → Expr → Expr
  | 0, e => e
  | depth + 1, e =>
    match e with
    | .forced id t => s.writtenFrom depth (.temp id t)
    | .temp id _ => if (s.temp id).isVariable then e else s.writtenFrom depth (s.temp id).value
    | .join id _ =>
      match (s.join id).replacement with
      | some value => s.writtenFrom depth value
      | none => e
    | _ => e

def written (s : Session) (e : Expr) : Expr :=
  s.writtenFrom s.reach e

def openedFrom (s : Session) : Nat → Expr → Expr
  | 0, e => e
  | depth + 1, e =>
    match e with
    | .temp id _ => if (s.temp id).isOpen then s.openedFrom depth (s.temp id).value else e
    | _ => e

def opened (s : Session) (e : Expr) : Expr :=
  s.openedFrom s.reach e

def coreFrom (s : Session) : Nat → Expr → Expr
  | 0, e => e
  | depth + 1, e =>
    match e with
    | .temp id _ => s.coreFrom depth (s.temp id).value
    | .forced id _ => s.coreFrom depth (s.temp id).value
    | _ => e

def core (s : Session) (e : Expr) : Expr :=
  s.coreFrom s.reach e

def hasOffsetAccess (s : Session) (base : Expr) : Bool :=
  s.offsetBases.any (·.same (s.core base))

/-- The join that takes the stores to a join: the last in the chain of only users. The chain is
bounded. -/
def destinationFrom (s : Session) : Nat → JoinId → Except Failure JoinId
  | 0, _ => throw .endless
  | depth + 1, id =>
    match (s.join id).usedBy with
    | some user => s.destinationFrom depth user
    | none => pure id

def destination (s : Session) (id : JoinId) : Except Failure JoinId :=
  s.destinationFrom (s.joins.size + 1) id

end Session

def opened (e : Expr) : Evaluation Expr := do
  return (← get).opened e

def noteAccess (base : Expr) (offset : Int) : Evaluation Unit := do
  if offset != 0 then
    let core := (← get).core base
    modify fun s =>
      if s.offsetBases.any (·.same core) then s else { s with offsetBases := core :: s.offsetBases }

end Decompiler.Eval
