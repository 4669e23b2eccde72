import Decompiler.Eval.Function
import Decompiler.Structure.Build

/-!
# The text of a function

A function is written with its arguments, the declarations of its variables and its body.
-/

namespace Decompiler.Structure

open Asm Code Eval Decompiler.Flow Infer

def declarationLine (type : TypeId) (name : String) : Evaluation String := do
  return line 1 0 ((← infer (declaration type name)) ++ ";")

/-- The declarations of the temporaries that are variables; they are sorted, and equal ones are
written once. -/
def tempLines : Evaluation (List String) := do
  let ids := (List.range (← get).temps.size)
  let lines ← ids.filterMapM fun id => do
    let t := (← get).temp id
    if t.isVariable then return some (← declarationLine t.type (← tempName id))
    return none
  return (lines.mergeSort fun a b => a ≤ b).eraseDups

def declarationLines (skipCasts : Bool) : Evaluation (List String) := do
  let locals ← (← get).locals.reverse.mapM fun (place, type) => do
    declarationLine type (← exprText skipCasts (.stackVar place type))
  let temps ← tempLines
  let joins ← (← get).joinVariables.toList.mapM fun id => do
    let join := (← get).join id
    declarationLine join.type join.text
  return locals ++ temps ++ joins

def headText (skipCasts returnsValue : Bool) (name : String) (returnType : TypeId) :
    Evaluation String := do
  let args ← (← get).arguments.mapM fun (place, type) => do
    let arg ← exprText skipCasts (.argument place true type)
    infer (declaration type arg)
  let args := if (← get).isVariadic then args ++ ["..."] else args
  let list := if args.isEmpty then "void" else ", ".intercalate args
  let head := name ++ "(" ++ list ++ ")"
  if returnsValue then infer (declaration returnType head) else return "void " ++ head

def functionText (o : Options) (name : String) (g : Graph) (returnType : TypeId) :
    Evaluation String := do
  let labels ← Labels.ofGraph g
  let (body, outline) ← (buildBody ⟨o, g⟩).run {}
  let style : Style := {
    graph := g
    labels := labels
    gotos := outline.gotos
    skipCasts := o.skipCasts
    allman := o.allman }
  let head ← headText o.skipCasts outline.returnsValue name returnType
  let declarations ← declarationLines o.skipCasts
  let declarations := if declarations.isEmpty then [] else declarations ++ [""]
  let text ← bodyText style (2 * Nat.pow (g.nodes.size + 2) 2) 0 body
  let first := head ++ (if o.allman then "\n" else " ") ++ "\x7b"
  return "\n".intercalate (first :: declarations ++ [text, "\x7d"])

end Decompiler.Structure
