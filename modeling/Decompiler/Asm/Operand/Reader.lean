import Decompiler.Asm.Operand
import Decompiler.Failure

/-!
# Reading operands

A reader for the text of one operand. It goes through the text from the left and keeps the value
read so far; a second value may only follow where a memory reference or an operator joins the two.
-/

namespace Decompiler.Asm

def Operator.apply (op : Operator) (m n : Int) : Except Failure Int :=
  match op with
  | .add => pure (m + n)
  | .sub => pure (m - n)
  | .mul => pure (m * n)
  | .and => pure (Integer.land m n)
  | .shiftRight => if n < 0 then throw Failure.negativeShift else pure (m >>> n.toNat)

namespace Operand

/-- An operand in which the value of an operation on literals is computed. An operation that has
another operand than a literal is left as it is. -/
def fold : Operand → Except Failure Operand
  | .binary op left right => do
    let l ← fold left
    let r ← fold right
    match l, r with
    | .literal m, .literal n => return .literal (← op.apply m n)
    | _, _ => return .binary op left right
  | operand => pure operand

def isNumberChar (c : Char) : Bool :=
  c == '-' || c == 'x' || c == 'X' || Text.isHexDigit c

/-- Reads an integer from the start of a text that begins with a digit or a minus sign. A leading
zero has to stand alone or to open a hexadecimal numeral. -/
def readNumber (cs : List Char) : Except Failure (Int × List Char) := do
  let (number, rest) := cs.span isNumberChar
  match number with
  | '0' :: c :: _ => expect (c == 'x' || c == 'X')
  | _ => pure ()
  match Integer.read? number with
  | some n => return (n, rest)
  | none => throw (.badNumber "invalid number")

def sections : List String :=
  ["data", "rodata", "bss", "text"]

def close (c : Char) : List Char → Except Failure (List Char)
  | [] => throw .missingItem
  | d :: rest => if d == c then pure rest else throw (.broken "Expected another character")

def operator? (c : Char) : Option Operator :=
  if c == '>' then some .shiftRight
  else if c == '+' then some .add
  else if c == '-' then some .sub
  else if c == '&' then some .and
  else if c == '*' then some .mul
  else none

def registerNamed (name : String) : Register :=
  if name == "s8" then ⟨"fp"⟩ else if name == "r0" then Register.zero else ⟨name⟩

def constantOperand (operand : Option Operand) : Except Failure Int := do
  let operand ← match operand with
    | some (.binary .mul l r) => some <$> fold (.binary .mul l r)
    | other => pure other
  match operand with
  | some (.literal n) => return n
  | some (.binary op l r) =>
    match ← fold (.binary op l r) with
    | .literal _ => reject .nestedArithmetic
    | _ => throw (.broken "")
  | _ => throw (.broken "")

/-- Reads on in a text after an operand, if one has been read, and gives the operand that has been
read in the end and the rest of the text. -/
abbrev ReadOn := Option Operand → List Char → Except Failure (Option Operand × List Char)

def readHalf (read : ReadOn) (cs : List Char) : Except Failure (Option Operand × List Char) := do
  let (word, rest) := cs.span Text.isWordChar
  let word := String.ofList word
  expect (word == "hi" || word == "lo")
  let (argument, rest) ← read none (← close '(' rest)
  match argument with
  | none => throw (.broken "")
  | some argument =>
    let rest ← close ')' rest
    read (some (.half (if word == "hi" then .high else .low) argument)) rest

def opens : Option Operand → Bool
  | none | some (.literal _) | some (.half _ _) => true
  | _ => false

def readParenthesis (read : ReadOn) (value : Option Operand) (cs : List Char) :
    Except Failure (Option Operand × List Char) := do
  expect (opens value)
  let (inner, rest) ← read none cs
  match inner with
  | none => throw (.broken "")
  | some inner =>
    let rest ← close ')' rest
    match inner, value with
    | .binary op l r, _ => read (some (← fold (.binary op l r))) rest
    | .register base, none => read (some (.memory base)) rest
    | .register base, some offset => read (some (.memoryAt offset base)) rest
    | _, _ => throw (.broken "")

def closeOperator (op : Operator) (cs : List Char) : Except Failure (List Char) :=
  if op == .shiftRight then close '>' cs else pure cs

def readOperation (read : ReadOn) (op : Operator) (left : Operand) (cs : List Char) :
    Except Failure (Option Operand × List Char) := do
  expect (left.literal?.isSome || left.symbol?.isSome)
  let (right, rest) ← read none (← closeOperator op cs)
  let right ← constantOperand right
  match left with
  | .inSection name addend => return (some (.inSection name (addend + right)), rest)
  | _ => return (some (.binary op left (.literal right)), rest)

def readAt (read : ReadOn) (value : Option Operand) (c : Char) (cs : List Char) :
    Except Failure (Option Operand × List Char) :=
  if Text.isBlank c then read value cs
  else if c == '$' then do
    expect value.isNone
    let (word, rest) := cs.span Text.isWordChar
    read (some (.register (registerNamed (String.ofList word)))) rest
  else if c == '.' then do
    expect value.isNone
    let (word, rest) := cs.span Text.isWordChar
    let word := String.ofList word
    read (some (if sections.contains word then .inSection word 0 else .target word)) rest
  else if c == '%' then do
    expect value.isNone
    readHalf read cs
  else if c == ')' then pure (value, c :: cs)
  else if Text.isAsciiDigit c || (c == '-' && value.isNone) then do
    expect value.isNone
    let (number, rest) ← readNumber (c :: cs)
    read (some (.literal number)) rest
  else if c == '(' then readParenthesis read value cs
  else if Text.isWordChar c then do
    expect value.isNone
    let (word, rest) := (c :: cs).span Text.isWordChar
    read (some (.symbol (String.ofList word))) rest
  else
    match operator? c, value with
    | some op, some left => readOperation read op left cs
    | _, _ => throw (.broken "")

/-- Reads an operand up to the end of the text or a closing parenthesis, after the operand `value`
if one has been read. The first argument bounds the number of steps. -/
def readFrom : Nat → ReadOn
  | 0, _, _ => throw .endless
  | _ + 1, value, [] => pure (value, [])
  | n + 1, value, c :: cs => readAt (readFrom n) value c cs

/-- Reads the text of an operand; a text without an operand gives `none`. -/
def read (cs : List Char) : Except Failure (Option Operand) := do
  return (← readFrom (cs.length + 1) none cs).1

end Operand

end Decompiler.Asm
