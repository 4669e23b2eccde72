import Decompiler.Asm.Address
import Decompiler.Eval.Fold
import Decompiler.Eval.Variable

/-!
# Access to memory

What lies at an address, as a variable, a member of an aggregate or an element of an array.
-/

namespace Decompiler.Eval

open Asm Code Infer

def scaledIndex (s : Session) (addend : Expr) : Except Failure (Expr × Int) := do
  match s.opened addend with
  | .binary left .mul (.literal n _) _ _ => return (left, n)
  | .binary left .shiftLeft (.literal n _) _ _ => return (left, ← shiftedLeft 1 n)
  | _ => return (addend, 1)

/-- A sum of a pointer and a multiple of an index, at an offset, as an access to an array; with its
address taken if `takeAddress` is set. -/
def arrayAccess? (e : Expr) (offset : Int) (size : Option Int) (takeAddress : Bool) :
    Evaluation (Option Expr) := do
  match ← opened e with
  | .binary left .add right _ _ =>
    let swap := (← isPointer right.type) && !(← isPointer left.type)
    let (base, addend) := if swap then (right, left) else (left, right)
    let (index, scale) ← scaledIndex (← get) addend
    match ← infer (pointerTarget? base.type) with
    | none => return none
    | some (targetSize, target) =>
      if targetSize == scale then some <$> finish base index target scale offset
      else
        match ← infer (arrayWithin base.type offset scale) with
        | none => return none
        | some (name, start, elementType) =>
          let pointer ← freshType (.pointer (some (.declared elementType)))
          let array ← memberAt base start none (some name) pointer
          let target ← infer (ofDeclared elementType)
          some <$> finish array index target scale (offset - start)
  | _ => return none
where
  finish (base index : Expr) (target : TypeId) (scale offset : Int) : Evaluation Expr := do
    let item : Expr := .element base index target
    let field ← infer (fieldAt base.type offset size)
    let item ←
      if offset != 0 || (size.isSome && size != some scale) then
        let address : Expr := .address item (← freshType .pointer)
        let type := if field.isArray then field.pointer else field.type
        memberAt address offset size field.name type
      else pure item
    return if takeAddress && !field.isArray then .address item field.pointer else item

def moveOffset (s : Session) (base : Expr) (offset : Int) : Expr × Int :=
  match s.opened base with
  | .binary left .add right _ _ =>
    let isLarge (e : Expr) : Option Int :=
      match e with
      | .literal n _ =>
        if (n % 0x8000 == 0 || n % 0x8000 == 0x7fff) && n < 0x1000000 then some n else none
      | _ => none
    match isLarge right, isLarge left with
    | some n, _ => (left, offset + n)
    | none, some n => (right, offset + n)
    | none, none => (base, offset)
  | _ => (base, offset)

def completeAddress (base : Expr) (offset : Int) : Expr × Int :=
  match base with
  | .literal n type =>
    if n % 0x10000 == 0 then (.literal (n + offset) type, 0) else (base, offset)
  | _ => (base, offset)

def accessAt (base : Expr) (offset size : Int) : Evaluation Expr := do
  let (base, offset) := completeAddress base offset
  let (base, offset) := moveOffset (← get) base offset
  tryUnify base.type (← freshType .pointer)
  noteAccess base offset
  let shared ← memberType base offset
  let hasContext := (← get).hasContext
  if hasContext then
    if let some item ← arrayAccess? base offset (some size) false then return item
  let mut name : Option String := none
  let mut type := shared
  if hasContext then
    let field ← infer (fieldAt base.type offset (some size))
    name := field.name
    if name.isSome then
      tryUnify field.type shared
      type := field.type
  match ← infer (pointerTarget? base.type) with
  | some (targetSize, target) =>
    if name.isNone && targetSize == size && offset % size == 0 then
      if offset != 0 then
        let index : Expr := .literal (offset / size) (← freshType (.signed 32))
        return .element base index target
      type := target
  | none => pure ()
  memberAt base offset (some size) name type

def access (a : Address) (size : Int) (isStore : Bool := false) : Evaluation Expr := do
  match a with
  | .atRegister offset base =>
    if (← get).frame.isStackRegister base then stackVariable offset isStore
    else accessAt (← read base) offset size
  | .atSymbol offset name => accessAt (← addressOfSymbol name) offset size

/-- A pointer with a constant added to it: the address of a member or an element if there is one. -/
def pointerPlus (source : Expr) (n : Int) (imm : Expr) : Evaluation Expr := do
  if (← get).hasContext then
    if let some item ← arrayAccess? source n none true then return item
    let field ← infer (fieldAt source.type n none)
    if field.name.isSome then
      if field.isArray then return ← memberAt source n none field.name field.pointer
      return .address (← memberAt source n none field.name field.type) field.pointer
  match ← infer (pointerTarget? source.type) with
  | some (size, _) =>
    if size == 0 then throw .zeroModulus
    if n % size == 0 then
      let imm ← asNew imm .integer
      -- The sum has the type of the pointer, under a number of its own.
      let type ← freshType .any
      tryUnify source.type type
      return .binary source .add imm type false
  | none => pure ()
  let imm ← asNew imm .integer
  return .binary source .add imm (← freshType .pointer) false

def plus (source imm : Expr) : Evaluation Expr := do
  match imm with
  | .literal 0 _ => return source
  | _ =>
    if ← isPointer source.type then
      match imm with
      | .literal n _ => pointerPlus source n imm
      | _ =>
        let imm ← asNew imm .integer
        return .binary source .add imm (← freshType .pointer) false
    else
      match source, imm with
      | .literal m _, .literal n _ => literal (m + n)
      | _, _ => apply .address source .add imm

/-- The value of an addition with an immediate operand; `from?` is the register that is added to.
The address of a variable on the stack declares the variable. -/
def addImmediate (target : Register) (from? : Option Register) (source imm : Expr) :
    Evaluation Expr := do
  let frame := (← get).frame
  match from? with
  | some r =>
    if frame.isStackRegister r then
      match imm with
      | .literal n _ =>
        if frame.isStackRegister target then return source
        let var ← stackVariable n false
        match var with
        | .stackVar place type => declareLocal place type
        | _ => pure ()
        return .address var (← freshType (.pointer (some (.type var.type))))
      | _ => throw (.broken "")
    else plus source imm
  | none => plus source imm

end Decompiler.Eval
