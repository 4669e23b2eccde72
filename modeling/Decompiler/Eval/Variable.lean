import Decompiler.Eval.Operation

/-!
# Variables

Arguments, local variables and symbols. All accesses to the same one share a type.
-/

namespace Decompiler.Eval

open Asm Code Infer

def sharedType {κ : Type} [BEq κ] (table : Session → Table κ TypeId)
    (keep : Session → Table κ TypeId → Session) (key : κ) : Evaluation TypeId := do
  match (table (← get)).get? key with
  | some t => return t
  | none =>
    let t ← freshType .any
    modify fun s => keep s ((table s).insert key t)
    return t

def argumentType (place : Int) : Evaluation TypeId :=
  sharedType Session.argumentTypes (fun s t => { s with argumentTypes := t }) place

def stackType (place : Int) : Evaluation TypeId :=
  sharedType Session.stackTypes (fun s t => { s with stackTypes := t }) place

def memberType (base : Expr) (offset : Int) : Evaluation TypeId := do
  match (← get).memberTypes.find? fun (b, n, _) => n == offset && b.same base with
  | some (_, _, t) => return t
  | none =>
    let t ← freshType .any
    modify fun s => { s with memberTypes := (base, offset, t) :: s.memberTypes }
    return t

def symbol (name : String) : Evaluation Expr := do
  let t ← sharedType Session.symbolTypes (fun s t => { s with symbolTypes := t }) name
  return .symbol name t

def insertByPlace (place : Int) (type : TypeId) (vars : List (Int × TypeId)) :
    List (Int × TypeId) :=
  if vars.any (·.1 == place) then vars
  else vars.takeWhile (·.1 ≤ place) ++ (place, type) :: vars.dropWhile (·.1 ≤ place)

def declareLocal (place : Int) (type : TypeId) : Evaluation Unit :=
  modify fun s => { s with locals := insertByPlace place type s.locals }

def declareArgument (place : Int) (type : TypeId) : Evaluation Unit :=
  modify fun s => { s with arguments := insertByPlace place type s.arguments }

/-- The argument that holds the bytes at a place, as an expression of those bytes; with the place
and the type of the whole argument. -/
def argumentAt (place : Int) : Evaluation (Expr × Int × TypeId) := do
  let start := place - place % 4
  let type ← argumentType start
  let whole : Expr := .argument start true type
  let part ←
    if place == start + 3 then asNew whole (.ofSize 8)
    else if place == start + 2 then asNew whole (.ofSize 16)
    else pure whole
  return (part, start, type)

def declareParameter (place : Int) (name : Option String) (type : TypeId) : Evaluation Unit := do
  match name with
  | some n =>
    if n != "" then
      modify fun s => { s with argumentNames := s.argumentNames.insert place n }
  | none => pure ()
  let (_, start, known) ← argumentAt place
  declareArgument start known
  tryUnify known type

/-- The variable at a place relative to the stack pointer. An argument that is only stored to is not
declared. -/
def stackVariable (place : Int) (isStore : Bool) : Evaluation Expr := do
  let frame := (← get).frame
  if frame.holdsLocal place then return .stackVar place (← stackType place)
  if frame.isAbove place then
    let (part, start, type) ← argumentAt (place - frame.size)
    if !isStore then declareArgument start type
    return part
  if frame.holdsOutgoing place then return .outgoing place (← freshType .any)
  return .stackVar place (← freshType .any)

def leadingBytes? (e : Entry) : Option (List UInt8) :=
  match e.data with
  | .bytes bs :: _ => some bs
  | _ => none

/-- The address of a symbol. That of a text is the text, and the name of an array or a function is
its own address. -/
def addressOfSymbol (name : String) : Evaluation Expr := do
  let sym ← symbol name
  let s ← get
  match (s.rodata.values.get? name).bind fun e => if e.isString then leadingBytes? e else none with
  | some bytes =>
    let char ← freshType (.signed 8)
    return .string bytes (← freshType (.pointer (some (.type char))))
  | none =>
    match s.variableType? name with
    | some t =>
      let (type, isAddress) ← infer (pointerToDeclared t)
      if isAddress then asType sym type true else return .address sym type
    | none => return .address sym (← freshType .pointer)

def savedName (r : Register) : String :=
  "saved_reg_" ++ r.name

namespace Session

/-- Whether storing a value only preserves it for the caller: it is what the caller left in a
register, or an argument that goes to its own place. -/
def isPreservation (s : Session) (e : Expr) (place : Option Int) : Bool :=
  match e with
  | .symbol name _ => name.startsWith "saved_reg_"
  | .argument offset false _ =>
    match place with
    | none => true
    | some p => p == s.frame.size + offset
  | _ => false

end Session

/-- What a register holds when it is read. An argument counts as an argument of the function from
then on, and a temporary that had to be forced becomes a variable. -/
def readFrom (registers : Registers) (r : Register) : Evaluation Expr := do
  if r == .zero then return ← literal 0
  match registers.get? r with
  | none => errorExpr (some ("Read from unset register " ++ r.text))
  | some (.argument offset false type) =>
    let (part, start, known) ← argumentAt offset
    declareArgument start known
    tryUnify part.type type
    return part
  | some (.forced id type) =>
    use (.forced id type)
    return .temp id type
  | some e => return e

def read (r : Register) : Evaluation Expr := do
  readFrom (← get).work.registers r

def peek (r : Register) : Evaluation (Option Expr) := do
  return (← get).work.registers.get? r

end Decompiler.Eval
