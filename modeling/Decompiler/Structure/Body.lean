import Decompiler.Eval.Text
import Decompiler.Structure.Label

/-!
# Structured code

The body of a function: the statements of nodes with labels, gotos and conditions between them.
-/

namespace Decompiler.Structure

open Code Eval Decompiler.Flow

/-- A part of a body. The first number of a part is how deep it is nested. -/
inductive Part where
  | block (indent node : Nat) (statements : List Stmt) (header : Bool)
  | label (indent node : Nat)
  | goto (indent target : Nat)
  | dispatch (indent node : Nat) (value : String)
  | exit (indent node : Nat) (value : Option String)
  | branch (indent : Nat) (condition : Expr) (thenBody : List Part) (elseBody : Option (List Part))
  deriving Inhabited

abbrev Body := List Part

structure Style where
  graph : Graph
  labels : Labels
  gotos : NodeSet
  skipCasts : Bool
  allman : Bool

def Part.isWritten (style : Style) : Part → Bool
  | .block _ _ statements header => header || !statements.isEmpty
  | .label _ node => style.gotos.contains node || !(style.labels.casesOf node).isEmpty
  | _ => true

def loneBranch? (style : Style) (body : Body) : Option Part :=
  match body.filter (Part.isWritten style) with
  | [p] =>
    match p with
    | .branch _ _ _ _ => some p
    | _ => none
  | _ => none

/-- The space in front of a line. The second argument moves all lines. -/
def margin (indent : Nat) (shift : Int) : String :=
  String.ofList (List.replicate (4 * (indent + shift).toNat) ' ')

def line (indent : Nat) (shift : Int) (text : String) : String :=
  margin indent shift ++ text

def labelText (style : Style) (indent : Nat) (shift : Int) (node : Nat) : String :=
  let cases := (style.labels.casesOf node).map fun c => line indent shift c.text
  let goto := if style.gotos.contains node then [style.labels.name style.graph node ++ ":"] else []
  "\n".intercalate (cases ++ goto)

mutual

/-- The text of a part that is written. The first argument bounds the depth. -/
def partText (style : Style) : Nat → (shift : Int) → Part → Evaluation String
  | 0, _, _ => throw .endless
  | depth + 1, shift, part => do
    match part with
    | .block indent node statements header =>
      let name := (style.graph.nodes.getD node default).name
      let first := if header then [line indent shift ("// Node " ++ name)] else []
      let rest ← statements.mapM fun s => do
        return line indent shift (← stmtText style.skipCasts s)
      return "\n".intercalate (first ++ rest)
    | .label indent node => return labelText style indent shift node
    | .goto indent target =>
      return line indent shift ("goto " ++ style.labels.name style.graph target ++ ";")
    | .dispatch indent node value =>
      let note := switchNote (style.labels.switch node)
      return line indent shift ("goto *" ++ value ++ ";" ++ note)
    | .exit indent _ value =>
      return line indent shift (match value with
        | some v => "return " ++ v ++ ";"
        | none => "return;")
    | .branch indent condition thenBody elseBody =>
      let space := margin indent shift
      let separator := if style.allman then "\n" ++ space else " "
      let condition ← wholeText style.skipCasts (← simplify condition)
      let body ← bodyText style depth shift thenBody
      let text := "\n".intercalate
        [space ++ "if (" ++ condition ++ ")" ++ separator ++ "\x7b", body, space ++ "\x7d"]
      match elseBody with
      | none => return text
      | some elseBody =>
        if !elseBody.any (Part.isWritten style) then return text
        match loneBranch? style elseBody with
        | some branch =>
          let inner ← partText style depth (shift - 1) branch
          return text ++ separator ++ "else " ++
            String.ofList (inner.toList.dropWhile Text.isBlank)
        | none =>
          let inner ← bodyText style depth shift elseBody
          return text ++ "\n".intercalate
            [separator ++ "else" ++ separator ++ "\x7b", inner, space ++ "\x7d"]

def bodyText (style : Style) : Nat → (shift : Int) → Body → Evaluation String
  | 0, _, _ => throw .endless
  | depth + 1, shift, body => do
    let texts ← (body.filter (Part.isWritten style)).mapM (partText style depth shift)
    return "\n".intercalate texts

end

end Decompiler.Structure
