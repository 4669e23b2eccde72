import Decompiler.C.Grammar.Goal

/-!
# Expressions and initializers
-/

namespace Decompiler.C.Expression

open Read

/-- The binary operators by precedence, the loosest ones first. -/
def levels : List (List String) :=
  [["||"], ["&&"], ["|"], ["^"], ["&"], ["==", "!="], [">", ">=", "<", "<="], [">>", "<<"],
   ["+", "-"], ["*", "/", "%"]]

def assignments : List String :=
  ["=", "^=", "*=", "/=", "%=", "+=", "-=", "<<=", ">>=", "&=", "|="]

/-- Adjacent string literals as one constant; `joint` is what is left out at the start of each but
the first. -/
def strings (kind : TokenKind) (joint : Nat) : Read Expr := do
  let first ← take kind
  let text ← loop (fun text => do
    if (← peek).kind == kind then
      let t ← next
      return (text.dropLast ++ t.text.toList.drop joint, true)
    else return (text, false)) (← bound) first.text.toList
  return .constant (String.ofList text)

def initializers (go : Reader) : Read (List Expr) := do
  loop (fun es => do
    if ← accept "\x7d" then return (es, false)
    let path ← loop (fun path => do
      if ← accept "[" then
        let e ← go .conditional
        require "]"
        return (path ++ [e], true)
      else if ← accept "." then
        return (path ++ [.ident (← take .name).text], true)
      else return (path, false)) (← bound) []
    if !path.isEmpty then require "="
    let e ← go .initializer
    let es := es ++ [if path.isEmpty then e else .designated path e]
    if ← accept "," then return (es, true)
    require "\x7d"
    return (es, false)) (← bound) []

def initializer (go : Reader) : Read Expr := do
  if ← accept "\x7b" then return .braces (← initializers go)
  else go .assignment

/-- What may follow an operand: an index, arguments, a member or a step. -/
def postfixes (go : Reader) (e : Expr) : Read Expr := do
  loop (fun e => do
    let t ← peek
    if t.is "[" then
      discard next
      let i ← go .expression
      require "]"
      return (.index e i, true)
    else if t.is "(" then
      discard next
      if ← accept ")" then return (.call e none, true)
      let args ← loop (fun args => do
        let a ← go .assignment
        return (args ++ [a], ← accept ",")) (← bound) []
      require ")"
      return (.call e (some args), true)
    else if t.is "." || t.is "->" then
      discard next
      let field ← peek
      if field.kind == .name || field.kind == .typeName then
        discard next
        return (.member e t.text (.ident field.text), true)
      else unexpected
    else if t.is "++" || t.is "--" then
      discard next
      return (.stepped t.text e, true)
    else return (e, false)) (← bound) e

def memberPath (go : Reader) (e : Expr) : Read Expr := do
  loop (fun e => do
    if ← accept "." then
      let field ← take .name
      return (.member e "." (.ident field.text), true)
    else if ← accept "[" then
      let i ← go .expression
      require "]"
      return (.index e i, true)
    else return (e, false)) (← bound) e

def primary (go : Reader) : Read Expr := do
  let t ← peek
  match t.kind with
  | .name =>
    discard next
    return .ident t.text
  | .constant =>
    discard next
    return .constant t.text
  | .string => strings .string 1
  | .wideString => strings .wideString 2
  | _ =>
    if t.is "offsetof" then
      discard next
      require "("
      let type ← go .typeName
      require ","
      let field ← take .name
      let path ← memberPath go (.ident field.text)
      require ")"
      return .call (.ident "offsetof") (some [.type type, path])
    else unexpected

/-- What follows a type in parentheses if it is a literal: its initializers and what may follow an
operand. -/
def compound (go : Reader) (type : CType) : Read Expr := do
  require "\x7b"
  if (← peek).is "\x7d" then unexpected
  postfixes go (.compound type (← initializers go))

def parenthesized (go : Reader) : Read Expr := do
  let e ← go .expression
  require ")"
  postfixes go e

def sizeArgument (go : Reader) : Read Expr := do
  if ← accept "(" then
    if (← peek).startsTypeName then
      let type ← go .typeName
      require ")"
      if (← peek).is "\x7b" then compound go type else return .type type
    else parenthesized go
  else go .unary

/-- A unary expression that does not start with a parenthesis. -/
def operand (go : Reader) : Read Expr := do
  let t ← peek
  if t.isOneOf ["++", "--"] then
    discard next
    return .unary t.text (← go .unary)
  else if t.isOneOf ["&", "*", "+", "-", "~", "!"] then
    discard next
    return .unary t.text (← go .cast).1
  else if t.is "sizeof" then
    discard next
    return .sizeOf (← sizeArgument go)
  else do
    postfixes go (← primary go)

def unary (go : Reader) : Read Expr := do
  if ← accept "(" then
    if (← peek).startsTypeName then
      let type ← go .typeName
      require ")"
      compound go type
    else parenthesized go
  else operand go

def cast (go : Reader) : Read (Expr × Bool) := do
  if ← accept "(" then
    if (← peek).startsTypeName then
      let type ← go .typeName
      require ")"
      if (← peek).is "\x7b" then return (← compound go type, true)
      else return (.cast type (← go .cast).1, false)
    else return (← parenthesized go, true)
  else return (← operand go, true)

def operations (go : Reader) : List (List String) → Expr → Read Expr
  | [], first => pure first
  | ops :: tighter, first => do
    let left ← operations go tighter first
    loop (fun left => do
      let t ← peek
      if t.isOneOf ops then
        discard next
        let right ← operations go tighter (← go .cast).1
        return (.binary t.text left right, true)
      else return (left, false)) (← bound) left

def conditionalFrom (go : Reader) (first : Expr) : Read Expr := do
  let e ← operations go levels first
  if ← accept "?" then
    let yes ← go .expression
    require ":"
    return .ternary e yes (← go .conditional)
  else return e

/-- An assignment or a conditional expression with a first operand, to which only a unary
expression can be assigned. -/
def assignmentFrom (go : Reader) (first : Expr) (isUnary : Bool) : Read Expr := do
  let t ← peek
  if isUnary && t.isOneOf assignments then
    discard next
    return .assign t.text first (← go .assignment)
  else conditionalFrom go first

def sequenceFrom (go : Reader) (first : Expr) : Read Expr := do
  loop (fun e => do
    if ← accept "," then
      let right ← go .assignment
      match e with
      | .sequence es => return (.sequence (es ++ [right]), true)
      | _ => return (.sequence [e, right], true)
    else return (e, false)) (← bound) first

def conditional (go : Reader) : Read Expr := do
  conditionalFrom go (← cast go).1

def assignment (go : Reader) : Read Expr := do
  let (first, isUnary) ← cast go
  assignmentFrom go first isUnary

def expression (go : Reader) : Read Expr := do
  sequenceFrom go (← assignment go)

def expressionFromName (go : Reader) (name : String) : Read Expr := do
  sequenceFrom go (← assignmentFrom go (← postfixes go (.ident name)) true)

end Decompiler.C.Expression
