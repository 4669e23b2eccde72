import Decompiler.C.Grammar.Statement

/-!
# C files

The readers of all parts of the grammar are tied together here, and a file is read as a list of
declarations.
-/

namespace Decompiler.C

open Read

def readStep (go : Reader) : Reader
  | _, .expression => Expression.expression go
  | _, .assignment => Expression.assignment go
  | _, .conditional => Expression.conditional go
  | _, .cast => Expression.cast go
  | _, .unary => Expression.unary go
  | _, .initializer => Expression.initializer go
  | _, .typeName => do Declaration.typeNameFrom go (← Declaration.memberSpecifiers go)
  | _, .baseType => Declaration.baseType go
  | _, .declarator mode => Declaration.declarator go mode
  | _, .parameters => Declaration.parameters go
  | _, .declaration => Declaration.declaration go
  | _, .statement => Statement.statement go

/-- Reads a part of the grammar. The first argument bounds the depth to which parts contain each
other; each level takes a token of its own, so the length of the text is enough. -/
def readPart : Nat → Reader
  | 0, _, _ => throw (.failed .endless)
  | depth + 1, _, goal => readStep (readPart depth) goal

/-- The definition of a function behind its declarator. The function is declared once its body has
been read. -/
def functionDefinition (go : Reader) (spec : Specifiers) (d : Declarator) : Read External := do
  loop (fun () => do
    if (← peek).startsDeclaration then
      discard (go .declaration)
      return ((), true)
    else return ((), false)) (← bound) ()
  Statement.block go
  if spec.storage.contains "typedef" then failAt d.place "Invalid typedef"
  match ← Declaration.external spec d with
  | .declaration decl => return .definition decl
  | other => return other

/-- A declaration or a definition at the top of a file. -/
def externalDeclaration (go : Reader) : Read (List External) := do
  let t ← peek
  if t.is ";" then
    discard next
    return []
  else if t.kind == .pragma then
    discard Declaration.pragma
    return []
  else if t.kind == .hash then
    discard next
    let follows ← peek
    if follows.kind == .eof || follows.kind == .hash || follows.kind == .pragma ||
        follows.kind == .name || follows.startsDeclaration || follows.isOneOf [";", "*", "("] then
      failAt (← placeOf t) "Directives not supported yet"
    else unexpected
  else if t.startsDeclaration then
    let spec ← Declaration.specifiers go
    if (← peek).is ";" then
      let d ← Declaration.tagDeclaration spec
      require ";"
      return [d]
    let d ← Declaration.firstDeclarator go spec
    let follows ← peek
    if !spec.types.isEmpty && !d.isTypeName && (follows.is "\x7b" || follows.startsDeclaration) then
      return [← functionDefinition go spec d]
    else Declaration.declarationFrom go spec d
  else if t.kind == .name || t.isOneOf ["*", "("] then
    let d ← go (.declarator .plain)
    let follows ← peek
    if !(follows.is "\x7b" || follows.startsDeclaration) then unexpected
    return [← functionDefinition go { types := [⟨.words ["int"], ""⟩] } d]
  else unexpected

def externals : Read (List External) := do
  let n ← bound
  discard next
  loop (fun ds => do
    if (← peek).kind == .eof then return (ds, false)
    return (ds ++ (← externalDeclaration (readPart n)), true)) n []

/-- The report of an error in a text, whose lines are given. The place of the error stands in front
of its message; it names the line after the first one, which the reader has added. -/
def syntaxFailure (text : List Char) (place message : String) : Failure :=
  let rec cut : List Char → List Char × List Char
    | ':' :: ' ' :: rest => ([], rest)
    | c :: cs => let (a, b) := cut cs; (c :: a, b)
    | [] => ([], [])
  let (position, message) := cut ((place ++ ": " ++ message).toList)
  match Text.split ':' position with
  | _ :: line :: rest =>
    match Integer.readDecimal? line with
    | none => .badNumber "invalid literal for int()"
    | some n =>
      let line := n - 1
      let column := match rest with
        | c :: _ => ", column " ++ String.ofList c
        | [] => ""
      let lines := Text.split '\n' text
      let index := if line < 0 then line + lines.length else line
      let shown := match (if index < 0 then none else lines[index.toNat]?) with
        | some l => "\n\n" ++ String.ofList (Text.dropEndWhile Text.isBlank l)
        | none => "(out of bounds?)"
      .rejected (.contextSyntax (String.ofList message)
        (" at line " ++ toString line ++ column ++ shown))
  | _ => .rejected (.contextSyntax (String.ofList message) "")

def parseText (text : List Char) : Except Failure (List External) :=
  match externals.run { rest := text, size := text.length } with
  | .ok (ds, _) => pure ds
  | .error (.malformed place message) => throw (syntaxFailure text place message)
  | .error (.failed f) => throw f

end Decompiler.C
