import Decompiler.C.Lexeme
import Decompiler.Failure
import Decompiler.Number.Integer
import Decompiler.Text.Quoted

/-!
# C source text

The text that is left to read, with one token read ahead. Whether a name is that of a type depends
on the declarations so far, so the names in scope belong to the text; a brace opens or closes a
scope as soon as it is read.
-/

namespace Decompiler.C

/-- The classes of tokens. -/
inductive TokenKind where
  | name
  | typeName
  | keyword
  | constant
  | string
  | wideString
  | operator
  | hash
  | pragma
  | pragmaText
  | eof
  deriving DecidableEq, Inhabited

structure Token where
  kind : TokenKind
  text : String
  line : Nat := 0
  column : Nat := 0
  deriving DecidableEq, Inhabited

def Token.is (t : Token) (text : String) : Bool :=
  (t.kind == .keyword || t.kind == .operator) && t.text == text

def Token.isOneOf (t : Token) (texts : List String) : Bool :=
  (t.kind == .keyword || t.kind == .operator) && texts.contains t.text

/-- Why a C text could not be read. -/
inductive Problem where
  /-- An error in the text, at a place that has the form `file:line:column` if it is known. -/
  | malformed (place message : String)
  | failed (f : Failure)

inductive Mode where
  | code
  | lineMark (number : Option (List Char)) (file : Option String)
  | pragma
  deriving DecidableEq

/-- A C text that is being read. -/
structure Source where
  rest : List Char
  line : Nat := 1
  column : Nat := 1
  file : String := "<source>"
  mode : Mode := .code
  /-- The names of each scope, the innermost one first; `true` marks the name of a type. -/
  scopes : List (List (String × Bool)) := [[]]
  token : Token := ⟨.eof, "", 0, 0⟩
  fresh : Nat := 1
  size : Nat
  deriving Inhabited

namespace Source

def place (s : Source) (line column : Nat) : String :=
  s.file ++ ":" ++ toString line ++ (if column == 0 then "" else ":" ++ toString column)

def malformed {α : Type} (s : Source) (message : String) : Except Problem α :=
  throw (.malformed (s.place s.line s.column) message)

/-- The text behind the next `n` characters of the current line. -/
def skip (s : Source) (n : Nat) : Source :=
  { s with rest := s.rest.drop n, column := s.column + n }

def skipLine (s : Source) : Source :=
  { s with rest := s.rest.drop 1, column := 1, line := s.line + 1 }

def take (s : Source) (kind : TokenKind) (n : Nat) : Source :=
  { s.skip n with token := ⟨kind, String.ofList (s.rest.take n), s.line, s.column⟩ }

def isType (s : Source) (name : String) : Bool :=
  match s.scopes.findSome? fun scope => scope.lookup name with
  | some isType => isType
  | none => false

def pushScope (s : Source) : Source :=
  { s with scopes := [] :: s.scopes }

def popScope (s : Source) : Except Problem Source :=
  match s.scopes with
  | _ :: outer :: rest => pure { s with scopes := outer :: rest }
  | _ => throw (.failed (.broken ""))

def keywords : List String :=
  ["_Bool", "_Complex", "auto", "break", "case", "char", "const", "continue", "default", "do",
   "double", "else", "enum", "extern", "float", "for", "goto", "if", "inline", "int", "long",
   "register", "offsetof", "restrict", "return", "short", "signed", "sizeof", "static", "struct",
   "switch", "typedef", "union", "unsigned", "void", "volatile", "while", "__int128"]

/-- Reads an identifier or a keyword of `n` characters. -/
def takeName (s : Source) (n : Nat) : Source :=
  let name := String.ofList (s.rest.take n)
  if keywords.contains name then s.take .keyword n
  else if s.isType name then s.take .typeName n
  else s.take .name n

/-- Whether a line that starts with a hash sign sets the line number; `cs` follows the sign. -/
def isLineMark (cs : List Char) : Bool :=
  match cs.dropWhile fun c => c == ' ' || c == '\t' with
  | 'l' :: 'i' :: 'n' :: 'e' :: c :: _ => !Text.isWordChar c
  | c :: _ => (Text.digitValue? c).isSome
  | [] => false

/-- Whether a line that starts with a hash sign is a pragma; `cs` follows the sign. -/
def isPragma (cs : List Char) : Bool :=
  match cs.dropWhile fun c => c == ' ' || c == '\t' with
  | 'p' :: 'r' :: 'a' :: 'g' :: 'm' :: 'a' :: c :: _ => !Text.isWordChar c
  | _ => false

/-- The classes of lexemes that start with a digit or a point, in the order in which they are
tried. A `none` marks the malformed octal constants. -/
def numberLexeme? (cs : List Char) : Option (Option Nat) :=
  match Lexeme.floating? cs with
  | some n => some (some n)
  | none =>
    match Lexeme.hexFloating? cs with
    | some n => some (some n)
    | none =>
      match Lexeme.marked? 'x' 'X' Text.isHexDigit cs with
      | some n => some (some n)
      | none =>
        match Lexeme.marked? 'b' 'B' (fun c => c == '0' || c == '1') cs with
        | some n => some (some n)
        | none =>
          match Lexeme.badOctal? cs, Lexeme.octal? cs, Lexeme.decimal? cs with
          | some _, _, _ => some none
          | none, some n, _ => some (some n)
          | none, none, some n => some (some n)
          | none, none, none => none

def takeChar (s : Source) : Except Problem Source :=
  match Lexeme.charConstant? 1 4 s.rest, Lexeme.unmatchedQuote? s.rest, Lexeme.badChar? s.rest with
  | some n, _, _ => pure (s.take .constant n)
  | none, some _, _ => s.malformed "Unmatched '"
  | none, none, some n =>
    s.malformed ("Invalid char constant " ++ String.ofList (s.rest.take n))
  | none, none, none => s.malformed "Illegal character \"'\""

/-- One step in code: reads a token, or passes over what is none (with `none`). -/
def codeStep (s : Source) (c : Char) (cs : List Char) : Except Problem (Option Source × Source) :=
  let token (s : Source) : Except Problem (Option Source × Source) := pure (some s, s)
  let illegal : Except Problem (Option Source × Source) :=
    s.malformed ("Illegal character " ++ Text.quote (String.singleton c))
  if c == ' ' || c == '\t' then pure (none, s.skip 1)
  else if c == '\n' then pure (none, s.skipLine)
  else if c == '#' then
    if isLineMark cs then pure (none, { s.skip 1 with mode := .lineMark none none })
    else if isPragma cs then pure (none, { s.skip 1 with mode := .pragma })
    else token (s.take .hash 1)
  else if c == '\x7b' then token (s.take .operator 1).pushScope
  else if c == '\x7d' then do token (← (s.take .operator 1).popScope)
  else
    match numberLexeme? s.rest with
    | some (some n) => token (s.take .constant n)
    | some none => s.malformed "Invalid octal constant"
    | none =>
      if c == '\'' then do token (← s.takeChar)
      else
        match Lexeme.wide? (Lexeme.charConstant? 1 1) s.rest, Lexeme.wide? Lexeme.string? s.rest,
            Lexeme.badString? s.rest, Lexeme.identifier? s.rest with
        | some n, _, _, _ => token (s.take .constant n)
        | none, some n, _, _ => token (s.take .wideString n)
        | none, none, some _, _ => s.malformed "String contains invalid escape code"
        | none, none, none, some n => token (s.takeName n)
        | none, none, none, none =>
          match Lexeme.string? s.rest, Lexeme.operator? s.rest with
          | some n, _ => token (s.take .string n)
          | none, some n => token (s.take .operator n)
          | none, none => illegal

def unquoted (cs : List Char) : String :=
  String.ofList (Text.dropEndWhile (· == '"') (cs.dropWhile (· == '"')))

def lineMarkStep (s : Source) (number : Option (List Char)) (file : Option String) (c : Char) :
    Except Problem Source :=
  if c == ' ' || c == '\t' then pure (s.skip 1)
  else if c == '\n' then
    match number with
    | none => s.malformed "line number missing in #line"
    | some digits =>
      match Integer.readDecimal? digits with
      | none => throw (.failed (.badNumber "invalid literal for int()"))
      | some n =>
        pure { s.skipLine with line := n.toNat, file := file.getD s.file, mode := .code }
  else
    match Lexeme.string? s.rest with
    | some n =>
      if number.isNone then s.malformed "filename before line number in #line"
      else pure { s.skip n with mode := .lineMark number (some (unquoted (s.rest.take n))) }
    | none =>
      let digits? := if c == '0' then some (Lexeme.withSuffix s.rest 1) else Lexeme.decimal? s.rest
      match digits? with
      | some n =>
        pure { s.skip n with mode := .lineMark (some (number.getD (s.rest.take n))) file }
      | none =>
        if "line".toList.isPrefixOf s.rest then pure (s.skip 4)
        else s.malformed "invalid #line directive"

def pragmaStep (s : Source) (c : Char) : Option Source × Source :=
  if c == ' ' || c == '\t' then (none, s.skip 1)
  else if c == '\n' then (none, { s.skipLine with mode := .code })
  else if "pragma".toList.isPrefixOf s.rest then
    let s := s.take .pragma 6
    (some s, s)
  else
    let s := s.take .pragmaText (Lexeme.run (· != '\n') s.rest)
    (some s, s)

/-- Reads the next token. The first argument bounds the number of steps; every step passes over at
least one character. -/
def readFrom : Nat → Source → Except Problem Source
  | 0, _ => throw (.failed .endless)
  | bound + 1, s =>
    match s.rest with
    | [] => pure { s with token := ⟨.eof, "", s.line, s.column⟩ }
    | c :: cs => do
      let (found, s) ← match s.mode with
        | .code => s.codeStep c cs
        | .lineMark number file => do pure (none, ← s.lineMarkStep number file c)
        | .pragma => pure (s.pragmaStep c)
      match found with
      | some s => return s
      | none => readFrom bound s

def read (s : Source) : Except Problem Source :=
  readFrom (s.size + 1) s

end Source

abbrev Read := StateT Source (Except Problem)

namespace Read

def peek : Read Token := do
  return (← get).token

def next : Read Token := do
  let s ← get
  set (← s.read)
  return s.token

def failAt {α : Type} (place message : String) : Read α :=
  throw (.malformed place message)

def unexpected {α : Type} : Read α := do
  let s ← get
  if s.token.kind == .eof then failAt s.file "At end of input"
  else failAt (s.place s.token.line s.token.column) ("before: " ++ s.token.text)

def placeOf (t : Token) : Read String := do
  return (← get).place t.line t.column

def require (text : String) : Read Unit := do
  if (← peek).is text then discard next else unexpected

def accept (text : String) : Read Bool := do
  if (← peek).is text then
    discard next
    return true
  else return false

def take (kind : TokenKind) : Read Token := do
  if (← peek).kind == kind then next else unexpected

def fresh : Read Nat := do
  let s ← get
  set { s with fresh := s.fresh + 1 }
  return s.fresh

/-- Adds a name to the innermost scope. A name cannot change between a type and something else
within a scope. -/
def declare (name : String) (isType : Bool) (place : String) : Read Unit := do
  let s ← get
  match s.scopes with
  | [] => return
  | scope :: outer =>
    match scope.lookup name, isType with
    | some true, false =>
      failAt place
        ("Non-typedef " ++ Text.quote name ++ " previously declared as typedef in this scope")
    | some false, true =>
      failAt place
        ("Typedef " ++ Text.quote name ++ " previously declared as non-typedef in this scope")
    | _, _ => set { s with scopes := ((name, isType) :: scope) :: outer }

def loop {α : Type} (step : α → Read (α × Bool)) : Nat → α → Read α
  | 0, _ => throw (.failed .endless)
  | bound + 1, a => do
    let (a, more) ← step a
    if more then loop step bound a else return a

def bound : Read Nat := do
  return (← get).size + 2

end Read

end Decompiler.C
