import Decompiler.Asm.Ascii
import Decompiler.Asm.Instruction
import Decompiler.Asm.Line
import Decompiler.Console
import Decompiler.Number.Literal
import Decompiler.Table

/-!
# Assembly files

A file holds functions, each a list of labels and instructions, and read-only data under symbols.
Conditional assembly and macro definitions switch parts of a file off.
-/

namespace Decompiler.Asm

inductive Item where
  | label (name : String)
  | instruction (i : Instruction)
  deriving DecidableEq

structure Function where
  name : String
  body : List Item
  deriving DecidableEq

/-- A part of a data entry: the address of a symbol, or bytes. -/
inductive Datum where
  | symbol (name : String)
  | bytes (bs : List UInt8)
  deriving DecidableEq

structure Entry where
  data : List Datum := []
  isString : Bool := false
  deriving DecidableEq

/-- Read-only data: the entries by symbol, and all labels that some entry mentions. -/
structure Rodata where
  values : Table String Entry := .empty
  mentioned : List String := []

structure File where
  name : String
  functions : List Function
  rodata : Rodata

def dropDots (name : String) : String :=
  String.ofList (name.toList.dropWhile (· == '.'))

def Item.text : Item → String
  | .label name => "  ." ++ name ++ ":"
  | .instruction i => i.text

def Function.text (f : Function) : String :=
  "glabel " ++ f.name ++ "\n" ++ String.intercalate "\n" (f.body.map Item.text)

def File.text (f : File) : String :=
  "# " ++ f.name ++ "\n" ++ String.intercalate "\n\n" (f.functions.map Function.text)

namespace Entry

def addSymbol (e : Entry) (name : String) : Entry :=
  { e with data := e.data ++ [.symbol name] }

def addBytes (e : Entry) (bs : List UInt8) (isString : Bool) : Entry :=
  let marked := if e.data.isEmpty && isString then true else e.isString
  match e.data.getLast? with
  | some (.bytes old) => ⟨e.data.dropLast ++ [.bytes (old ++ bs)], marked⟩
  | _ => ⟨e.data ++ [.bytes bs], marked⟩

end Entry

namespace Rodata

/-- The data with that of another file added; its entries replace those of the same symbol. -/
def merge (into : Rodata) (other : Rodata) : Rodata where
  values := other.values.entries.foldl (fun t (k, e) => t.insert k e) into.values
  mentioned := into.mentioned ++ other.mentioned

end Rodata

/-- What has been read of a file. Functions and their bodies are kept last item first. -/
structure Reader where
  file : String
  functions : List Function := []
  rodata : Rodata := {}
  /-- The symbol that data goes to, if a data label has been seen. -/
  current : Option String := none
  /-- The data before the first data label. -/
  unnamed : Entry := {}
  defines : Table String Nat
  /-- How many open conditionals and macro definitions switch the current line off. -/
  depth : Int := 0
  levels : List Int := []
  section_ : String := ".text"

namespace Reader

def newFunction (r : Reader) (name : String) : Reader :=
  { r with functions := ⟨name, []⟩ :: r.functions }

def newItem (r : Reader) (item : Item) : Except Failure Reader :=
  match r.functions with
  | [] => throw (.broken "")
  | f :: fs => pure { r with functions := { f with body := item :: f.body } :: fs }

def newEntry (r : Reader) (symbol : String) : Reader :=
  { r with
    current := some symbol
    rodata := { r.rodata with values := r.rodata.values.insert symbol {} } }

def changeEntry (r : Reader) (change : Entry → Entry) : Reader :=
  match r.current with
  | none => { r with unnamed := change r.unnamed }
  | some symbol =>
    let entry := (r.rodata.values.get? symbol).getD {}
    { r with rodata := { r.rodata with values := r.rodata.values.insert symbol (change entry) } }

def addSymbol (r : Reader) (name : String) : Reader :=
  let r := r.changeEntry (·.addSymbol name)
  { r with rodata := { r.rodata with mentioned := r.rodata.mentioned ++ [dropDots name] } }

def addBytes (r : Reader) (bs : List UInt8) (isString : Bool) : Reader :=
  r.changeEntry (·.addBytes bs isString)

/-- Whether a global label names a position within a function: `L` and eight upper-case
hexadecimal digits, perhaps with `_U_` between them. -/
def isLocalGlobal (name : String) : Bool :=
  let upperHex (c : Char) : Bool := Text.isAsciiDigit c || ('A' ≤ c && c ≤ 'F')
  let eight (cs : List Char) : Bool := 8 ≤ (cs.takeWhile upperHex).length
  match name.toList with
  | 'L' :: '_' :: 'U' :: '_' :: cs => eight cs
  | 'L' :: cs => eight cs
  | _ => false

def isLocalPlain (name : String) : Bool :=
  ["loc_", "locret_", "def_"].any fun p => p.toList.isPrefixOf name.toList

/-- Takes in a label; `global` says that it is declared as one. In code a label starts a function
unless it starts with a dot or names a position within a function. -/
def label (r : Reader) (name : String) (global : Bool) : Except Failure Reader :=
  if r.section_ == ".rodata" then pure (r.newEntry name)
  else if r.section_ == ".text" then
    if name.toList.head? == some '.' then
      if r.functions.isEmpty then reject (.strayLabel name)
      else r.newItem (.label (dropDots name))
    else if (if global then isLocalGlobal name else isLocalPlain name) && !r.functions.isEmpty then
      r.newItem (.label name)
    else pure (r.newFunction name)
  else pure r

def secondWord (line : List Char) : Except Failure String :=
  match Text.words line with
  | _ :: w :: _ => pure (String.ofList w)
  | _ => throw .missingItem

def isDirective (name : String) (line : List Char) : Bool :=
  name.toList.isPrefixOf line

def closeLevel (r : Reader) : Except Failure (Int × Reader) :=
  match r.levels with
  | [] => throw .missingItem
  | level :: levels => pure (level, { r with depth := r.depth - level, levels := levels })

def openLevel (r : Reader) (level : Int) : Reader :=
  { r with depth := r.depth + level, levels := level :: r.levels }

def sectionName (line : List Char) : Except Failure String :=
  match Text.split ' ' line with
  | _ :: part :: _ =>
    let name := String.ofList (part.takeWhile (· != ','))
    pure (if name == ".late_rodata" then ".rodata" else name)
  | _ => throw .missingItem

def operands (directive : String) (line : List Char) : List (List Char) :=
  Text.split ',' (line.drop directive.length)

def word (line : List Char) (r : Reader) (operand : List Char) : Except Failure Reader :=
  let w := Text.trim operand
  match w with
  | [] => reject (.dataValue ".word" (String.ofList line))
  | c :: _ =>
    if Text.isDigit c then
      match Integer.read? w with
      | none => reject (.dataValue ".word" (String.ofList line))
      | some n =>
        if 0 ≤ n && n < 0x100000000 then pure (r.addBytes (Number.bigEndian 4 n.toNat) false)
        else throw .wordRange
    else pure (r.addSymbol (String.ofList w))

def byte (line : List Char) (r : Reader) (operand : List Char) : Except Failure Reader :=
  match Integer.read? operand with
  | none => reject (.dataValue ".byte" (String.ofList line))
  | some n =>
    if 0 ≤ n && n < 256 then pure (r.addBytes [n.toNat.toUInt8] false)
    else throw (.badNumber "bytes must be in range(0, 256)")

/-- Adds one operand of a single precision directive; a number that only fits after rounding to
infinity is too large. -/
def float (line : List Char) (r : Reader) (operand : List Char) : Except Failure Reader :=
  match Number.numeral? operand with
  | none => reject (.dataValue ".float" (String.ofList line))
  | some numeral =>
    let wide := numeral.toDouble
    let bits := Number.narrow wide
    let finite := wide % Number.double.signBit < Number.double.infinity
    if finite && bits % Number.single.signBit == Number.single.infinity then throw .tooLarge
    else pure (r.addBytes (Number.bigEndian 4 bits) false)

def double (line : List Char) (r : Reader) (operand : List Char) : Except Failure Reader :=
  match Number.numeral? operand with
  | none => reject (.dataValue ".double" (String.ofList line))
  | some numeral => pure (r.addBytes (Number.bigEndian 8 numeral.toDouble) false)

def dataDirective (r : Reader) (line : List Char) : Except Failure Reader :=
  if isDirective ".word" line then (operands ".word" line).foldlM (word line) r
  else if isDirective ".byte" line then (operands ".byte" line).foldlM (byte line) r
  else if isDirective ".float" line then (operands ".float" line).foldlM (float line) r
  else if isDirective ".double" line then (operands ".double" line).foldlM (double line) r
  else if isDirective ".asci" line then do
    let terminated := isDirective ".asciz" line || isDirective ".asciiz" line
    return r.addBytes (← Ascii.bytes line terminated) true
  else pure r

def activeDirective (r : Reader) (line : List Char) : Except Failure Reader :=
  if isDirective ".section" line then do
    return { r with section_ := ← sectionName line }
  else if isDirective ".rdata" line || isDirective ".rodata" line ||
      isDirective ".late_rodata" line then
    pure { r with section_ := ".rodata" }
  else if isDirective ".text" line then pure { r with section_ := ".text" }
  else if r.section_ == ".rodata" then r.dataDirective line
  else pure r

def unsetNote (name : String) : String :=
  "Note: assuming " ++ name ++ " is unset for .ifdef, " ++
    "pass -D" ++ name ++ "/-U" ++ name ++ " to set/unset explicitly."

/-- Takes in the start of a conditional; a name that is not known is unset from here on. -/
def conditional (r : Reader) (line : List Char) : Command Reader := do
  let name ← secondWord line
  let (r, set) ← match r.defines.get? name with
    | some set => pure (r, set)
    | none => do
      printLine (unsetNote name)
      pure ({ r with defines := r.defines.insert name 0 }, 0)
  return r.openLevel (if isDirective ".ifdef" line then 1 - (set : Int) else set)

def directive (r : Reader) (line : List Char) : Command Reader := do
  if isDirective ".ifdef" line || isDirective ".ifndef" line then r.conditional line
  else if isDirective ".else" line then do
    let (level, r) ← r.closeLevel
    return r.openLevel (1 - level)
  else if isDirective ".endif" line then return (← r.closeLevel).2
  else if isDirective ".macro" line then return { r with depth := r.depth + 1 }
  else if isDirective ".endm" line then return { r with depth := r.depth - 1 }
  else if r.depth == 0 then r.activeDirective line
  else return r

def instruction (r : Reader) (line : List Char) (origin : Origin) : Command Reader := do
  match Instruction.read line origin with
  | .ok i => r.newItem (.instruction i)
  | .error e => do
    modify (·.warn (Instruction.readFailure line origin))
    throw e

/-- Takes in a line. `patterns` are the texts that mark a branch to be written as a goto. -/
def line (patterns : List String) (r : Reader) (number : Nat) (raw : List Char) :
    Command Reader := do
  let (labels, rest) := Line.labels (Line.clean raw)
  let r ← if r.depth == 0 then labels.foldlM (fun r name => r.label name false) r else pure r
  match rest with
  | [] => return r
  | '.' :: _ => r.directive rest
  | _ =>
    if r.depth != 0 then return r
    else if isDirective "glabel" rest then r.label (← secondWord rest) true
    else if r.section_ == ".text" then
      let emitGoto := patterns.any fun p => Text.contains p.toList raw
      r.instruction rest ⟨emitGoto, r.file, number, false⟩
    else return r

def finish (r : Reader) : File where
  name := r.file
  functions := (r.functions.map fun f => { f with body := f.body.reverse }).reverse
  rodata := r.rodata

end Reader

def unifyNewlines : List Char → List Char
  | '\r' :: '\n' :: cs => '\n' :: unifyNewlines cs
  | '\r' :: cs => '\n' :: unifyNewlines cs
  | c :: cs => c :: unifyNewlines cs
  | [] => []

/-- The text of a file: without a mark of its byte order, and with every line ended by one newline
character. -/
def fileText (raw : List Char) : List Char :=
  match raw with
  | c :: cs => if c.toNat == 0xfeff then unifyNewlines cs else unifyNewlines raw
  | [] => []

def lines : List Char → List (List Char)
  | [] => []
  | c :: cs =>
    if c == '\n' then ['\n'] :: lines cs
    else
      match lines cs with
      | [] => [[c]]
      | l :: ls => (c :: l) :: ls

def File.read (name : String) (text : List Char) (patterns : List String)
    (defines : Table String Nat) : Command (File × Table String Nat) := do
  let start : Reader := { file := name, defines := defines }
  let (r, _) ← (lines text).foldlM
    (fun (r, number) raw => do return (← r.line patterns number raw, number + 1)) (start, 1)
  return (r.finish, r.defines)

end Decompiler.Asm
