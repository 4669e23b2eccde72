import Decompiler.Asm.File
import Decompiler.Code.Same
import Decompiler.Eval.Frame
import Decompiler.Infer.Declared

/-!
# The state of an evaluation

Blocks are evaluated one after the other. What is found out about one of them, such as the type of a
variable or that a value is used twice, may change how others are written.
-/

namespace Decompiler.Eval

open Asm Code Infer

/-- A value that is computed once. It becomes a variable if it is used several times. -/
structure Temp where
  value : Expr
  type : TypeId
  stem : String
  exactlyOnce : Bool
  /-- Whether the value is written in place of a variable, however often it is used. -/
  trivial : Bool
  forced : Bool := false
  uses : Nat := 0
  name : Option String := none
  deriving Inhabited

namespace Temp

def isVariable (t : Temp) : Bool :=
  t.uses > 1 && !t.trivial

def isOpen (t : Temp) : Bool :=
  !t.forced && !t.exactlyOnce

end Temp

/-- The value of a register where several paths meet. -/
structure Join where
  register : Register
  node : Nat
  type : TypeId
  name : Option String := none
  uses : Nat := 0
  replacement : Option Expr := none
  usedBy : Option JoinId := none
  deriving Inhabited

/-- The name of an accessed member. -/
inductive FieldName where
  | known (name : String)
  /-- Not known yet; it is looked up again when it is written. -/
  | pending
  | none
  deriving DecidableEq, Inhabited

abbrev Registers := Table Register Expr

/-- The result of evaluating a block. -/
structure BlockResult where
  statements : List Stmt
  returnValue : Option Expr
  switchValue : Option Expr
  condition : Option Expr
  registers : Registers
  customReturn : Bool
  hasCall : Bool
  deriving Inhabited

/-- A block in the course of its evaluation. -/
structure Work where
  registers : Registers := .empty
  statements : Array Stmt := #[]
  stored : Table Int (Register × Expr) := .empty
  /-- The arguments stored for the next call, with their places. -/
  outgoing : List (Expr × Int) := []
  condition : Option Expr := none
  switchValue : Option Expr := none
  customReturn : Bool := false
  hasCall : Bool := false
  deriving Inhabited

/-- The state of an evaluation. -/
structure Session where
  console : Console := {}
  types : Types := {}
  rodata : Rodata
  frame : Frame := {}
  temps : Array Temp := #[]
  joins : Array Join := #[]
  usedJoins : Array JoinId := #[]
  joinVariables : Array JoinId := #[]
  fields : Array FieldName := #[]
  argumentTypes : Table Int TypeId := .empty
  stackTypes : Table Int TypeId := .empty
  symbolTypes : Table String TypeId := .empty
  memberTypes : List (Expr × Int × TypeId) := []
  locals : List (Int × TypeId) := []
  arguments : List (Int × TypeId) := []
  argumentNames : Table Int String := .empty
  isVariadic : Bool := false
  stems : Table String Nat := .empty
  offsetBases : List Expr := []
  work : Work := {}
  blocks : Array BlockResult := #[]
  exits : Array Nat := #[]

abbrev Evaluation := ExceptT Failure (StateM Session)

namespace Session

def reach (s : Session) : Nat :=
  64 * (s.temps.size + s.joins.size + 4)

def temp (s : Session) (id : TempId) : Temp :=
  s.temps.getD id default

def block (s : Session) (node : Nat) : BlockResult :=
  s.blocks.getD node default

def join (s : Session) (id : JoinId) : Join :=
  s.joins.getD id default

def hasContext (s : Session) : Bool :=
  s.types.context.isSome

def declarations (s : Session) : C.TypeMap :=
  s.types.context.getD {}

def variableType? (s : Session) (name : String) : Option C.CType :=
  s.declarations.globals.get? name

def signature? (s : Session) (name : String) : Option C.Signature :=
  s.declarations.functions.get? name

end Session

def infer {α : Type} (step : Inference α) : Evaluation α := do
  let types ← modifyGet fun s => (s.types, { s with types := {} })
  let (result, types) := step.run.run types
  modify fun s => { s with types := types }
  result

def freshType (n : TypeNode) : Evaluation TypeId :=
  infer (fresh n)

def unifyTypes (a b : TypeId) : Evaluation Bool :=
  infer (unify a b)

def tryUnify (a b : TypeId) : Evaluation Unit :=
  discard (unifyTypes a b)

def isPointer (t : TypeId) : Evaluation Bool := do
  return (← get).types.store.isPointer t

def isFloat (t : TypeId) : Evaluation Bool := do
  return (← get).types.store.isFloat t

def sizeBits (t : TypeId) : Evaluation Nat := do
  return (← get).types.store.sizeBits t

def literal (value : Int) : Evaluation Expr := do
  return .literal value (← freshType .any)

def errorExpr (why : Option String) : Evaluation Expr := do
  return .error why (← freshType .any)

def modifyTemp (id : TempId) (f : Temp → Temp) : Evaluation Unit :=
  modify fun s => { s with temps := s.temps.modify id f }

def modifyJoin (id : JoinId) (f : Join → Join) : Evaluation Unit :=
  modify fun s => { s with joins := s.joins.modify id f }

def modifyWork (f : Work → Work) : Evaluation Unit :=
  modify fun s => { s with work := f s.work }

def modifyBlock (node : Nat) (f : BlockResult → BlockResult) : Evaluation Unit :=
  modify fun s => { s with blocks := s.blocks.modify node f }

def write (s : Stmt) : Evaluation Unit :=
  modifyWork fun w => { w with statements := w.statements.push s }

def newField (name : Option String) : Evaluation FieldId :=
  modifyGet fun s =>
    let field := match name with
      | some n => .known n
      | none => .pending
    (s.fields.size, { s with fields := s.fields.push field })

def memberAt (base : Expr) (offset : Int) (size : Option Int) (name : Option String)
    (type : TypeId) : Evaluation Expr := do
  return .member base offset size (← newField name) type

def printOut (text : String) : Evaluation Unit :=
  modify fun s => { s with console := s.console.print text }

def printErr (text : String) : Evaluation Unit :=
  modify fun s => { s with console := s.console.warn text }

end Decompiler.Eval
