import Decompiler.C.Grammar.Declaration

/-!
# Statements

Function bodies are read only to find their end and the errors in them.
-/

namespace Decompiler.C.Statement

open Read

def blockItems (go : Reader) : Read Unit := do
  loop (fun () => do
    if ← accept "\x7d" then return ((), false)
    if (← peek).startsDeclaration then discard (go .declaration) else go .statement
    return ((), true)) (← bound) ()

def block (go : Reader) : Read Unit := do
  require "\x7b"
  blockItems go

def condition (go : Reader) : Read Unit := do
  require "("
  discard (go .expression)
  require ")"

def optionalExpression (go : Reader) (close : String) : Read Unit := do
  if ← accept close then return
  discard (go .expression)
  require close

/-- A statement with pragmas in front of it. A pragma in front of what starts no statement is one
itself. -/
def guarded (go : Reader) : Read Unit := do
  if (← peek).kind == .pragma then
    discard Declaration.pragma
    let t ← peek
    if t.kind == .eof || t.is "\x7d" || t.startsDeclaration || t.is "else" then return
    go .statement
  else go .statement

def keywordStatement (go : Reader) (keyword : String) : Read Unit := do
  match keyword with
  | "if" =>
    condition go
    guarded go
    if ← accept "else" then guarded go
  | "switch" =>
    condition go
    guarded go
  | "while" =>
    condition go
    guarded go
  | "do" =>
    guarded go
    require "while"
    condition go
    require ";"
  | "for" =>
    require "("
    if (← peek).startsDeclaration then discard (go .declaration)
    else optionalExpression go ";"
    optionalExpression go ";"
    optionalExpression go ")"
    guarded go
  | "goto" =>
    discard (take .name)
    require ";"
  | "return" => optionalExpression go ";"
  | "case" =>
    discard (go .conditional)
    require ":"
    guarded go
  | "default" =>
    require ":"
    guarded go
  | _ => require ";"

def statementKeywords : List String :=
  ["if", "switch", "while", "do", "for", "goto", "return", "case", "default", "break", "continue"]

def statement (go : Reader) : Read Unit := do
  let t ← peek
  if t.is "\x7b" then block go
  else if t.is ";" then discard next
  else if t.isOneOf statementKeywords then
    discard next
    keywordStatement go t.text
  else if t.kind == .pragma then discard Declaration.pragma
  else if t.kind == .name then
    discard next
    if ← accept ":" then guarded go
    else
      discard (Expression.expressionFromName go t.text)
      require ";"
  else
    discard (go .expression)
    require ";"

end Decompiler.C.Statement
