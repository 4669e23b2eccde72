import Decompiler.Asm.File
import Decompiler.Asm.FloatRegister

/-!
# Compiler idioms

Sequences of instructions that a compiler writes for one operation: the checks behind a division,
the division by a power of two, the conversions between unsigned integers and floating-point
numbers, and the two halves of a double precision load or store. Each is replaced by what it
stands for, where needed by an instruction of its own.
-/

namespace Decompiler.Flow

open Asm

/-- What an item of an idiom looks like. -/
inductive Shape where
  | anything
  | label
  | operation (mnemonic : String)
  | constant
  | temporary (value : Int)
  | skippable (mnemonic : String)
  | skippableConstant
  deriving DecidableEq

namespace Shape

def isSkippable : Shape → Bool
  | .skippable _ => true
  | .skippableConstant => true
  | _ => false

def loadsConstant (i : Instruction) : Bool :=
  i.mnemonic == "li" || i.mnemonic == "lui" || i.mnemonic == "addiu"

def loadsTemporary (value : Int) (i : Instruction) : Except Failure Bool := do
  let temporary := Operand.register ⟨"at"⟩
  if i.text == (Instruction.mk "li" [temporary, .literal value] .unknown).text then return true
  else if (← i.arg 0) != temporary then return false
  else if i.mnemonic == "li" then
    match ← i.arg 1 with
    | .literal n => return Integer.unsigned32 n == Integer.unsigned32 value
    | _ => return false
  else return false

def isMatch (shape : Shape) (item : Item) : Except Failure Bool :=
  match shape, item with
  | .anything, _ => pure true
  | .label, .label _ => pure true
  | .label, .instruction _ => pure false
  | _, .label _ => pure false
  | .operation m, .instruction i => pure (i.mnemonic == m)
  | .skippable m, .instruction i => pure (i.mnemonic == m)
  | .constant, .instruction i => pure (loadsConstant i)
  | .skippableConstant, .instruction i => pure (loadsConstant i)
  | .temporary value, .instruction i => loadsTemporary value i

def consumed? : List Shape → List Item → Except Failure (Option Nat)
  | [], _ => pure (some 0)
  | shape :: shapes, items => do
    let fits ← match items with
      | item :: _ => shape.isMatch item
      | [] => pure false
    if fits then return (← consumed? shapes (items.drop 1)).map (· + 1)
    else if shape.isSkippable then consumed? shapes items
    else return none

end Shape

abbrev Replacement := List Item × Nat

abbrev Idiom := List Item → Except Failure (Option Replacement)

def goesTo (branch : Instruction) (label : String) : Except Failure Bool := do
  return (← branch.target) == label

def matched? (shapes : List Shape) (items : List Item) : Except Failure (Option (List Item)) := do
  let window := items.take shapes.length
  return (← Shape.consumed? shapes window).map fun n => window.take n

/-- The checks of a signed division: for a zero divisor and for the one overflow. What stands in
the delay slot of the first branch is kept, and so is the last label. -/
def signedDivisionChecks : Idiom := fun items => do
  let shapes : List Shape :=
    [.operation "bnez", .anything, .operation "break", .label, .temporary (-1), .operation "bne",
     .temporary 0x80000000, .operation "bne", .operation "nop", .operation "break", .label]
  match ← matched? shapes items with
  | some [.instruction bnez, slot, _, .label first, _, .instruction bne, _, .instruction bne', _,
      _, .label last] =>
    if !(← goesTo bnez first) then return none
    else if ← goesTo bne last then return some ([slot], 10)
    else if ← goesTo bne' last then return some ([slot], 10)
    else return none
  | _ => return none

def unsignedDivisionCheck : Idiom := fun items => do
  let shapes : List Shape := [.operation "bnez", .operation "nop", .operation "break", .label]
  match ← matched? shapes items with
  | some [.instruction bnez, _, _, .label label] =>
    if ← goesTo bnez label then return some ([], 3) else return none
  | _ => return none

def divisionByPower (branch shift : Instruction) : Except Failure Instruction := do
  match ← shift.arg 2 with
  | .literal n =>
    let power : Int := Nat.pow 2 (n % 32).toNat
    return .derived "div.fictive" [← shift.arg 0, ← branch.arg 0, .literal power] shift
  | _ => throw (.broken "")

def powerDivisionShifted : Idiom := fun items => do
  let shapes : List Shape :=
    [.operation "bgez", .operation "sra", .operation "addiu", .operation "sra", .label]
  match ← matched? shapes items with
  | some [.instruction bgez, _, .instruction addiu, .instruction sra, .label label] =>
    if (← addiu.arg 0) != .register ⟨"at"⟩ then return none
    else if ← goesTo bgez label then
      return some ([.instruction (← divisionByPower bgez sra)], 4)
    else return none
  | _ => return none

def powerDivisionMoved : Idiom := fun items => do
  let shapes : List Shape :=
    [.operation "bgez", .operation "move", .operation "addiu", .label, .operation "sra"]
  match ← matched? shapes items with
  | some [.instruction bgez, .instruction move, .instruction addiu, .label label,
      .instruction sra] =>
    if (← move.arg 0) != .register ⟨"at"⟩ then return none
    else if (← addiu.arg 0) != .register ⟨"at"⟩ then return none
    else if ← goesTo bgez label then
      return some ([.instruction (← divisionByPower bgez sra)], 5)
    else return none
  | _ => return none

/-- The conversion of an unsigned integer to single precision; its label is kept. -/
def unsignedToFloat : Idiom := fun items => do
  let shapes : List Shape :=
    [.operation "bgez", .operation "cvt.s.w", .temporary 0x4f800000, .operation "mtc1",
     .operation "nop", .operation "add.s", .label]
  match ← matched? shapes items with
  | some [.instruction bgez, .instruction cvt, _, _, _, _, .label label] =>
    if ← goesTo bgez label then
      return some ([.instruction (.derived "cvt.s.u.fictive" cvt.args cvt)], 6)
    else return none
  | _ => return none

def floatToUnsignedShapes : List Shape :=
  [.operation "cfc1", .operation "nop", .operation "andi", .skippable "andi", .anything,
   .anything, .skippableConstant, .operation "mtc1", .skippable "mtc1", .constant, .anything,
   .operation "ctc1", .operation "nop", .anything, .operation "cfc1", .operation "nop",
   .operation "andi", .skippable "andi", .operation "bnez", .operation "nop", .operation "mfc1",
   .constant, .operation "b", .operation "or", .label, .operation "b", .constant, .anything,
   .anything, .operation "nop", .operation "bltz", .operation "nop"]

def subtraction? : List Item → Option Instruction
  | [] => none
  | .instruction i :: items =>
    if "sub".toList.isPrefixOf i.mnemonic.toList then some i else subtraction? items
  | .label _ :: items => subtraction? items

/-- The conversion of a floating-point number to an unsigned integer. The format and the source
are those of the subtraction within. -/
def floatToUnsigned : Idiom := fun items => do
  let window := items.take floatToUnsignedShapes.length
  match ← Shape.consumed? floatToUnsignedShapes window, items with
  | some n, .instruction cfc :: _ =>
    match subtraction? (items.take floatToUnsignedShapes.length) with
    | none => throw .endOfCode
    | some sub =>
      let isSingle := (Text.split '.' sub.mnemonic.toList).getLast? == some ['s']
      let args := [← cfc.arg 0, ← sub.arg 1]
      let mnemonic := if isSingle then "cvt.u.s.fictive" else "cvt.u.d.fictive"
      return some ([.instruction (.derived mnemonic args cfc)], n)
  | _, _ => return none

/-- The two halves of a double precision load or store: an even numbered register and its partner,
at the same base register. -/
def doubleHalves : Idiom := fun items => do
  match items with
  | .instruction a :: .instruction b :: _ =>
    let both (m : String) : Bool := a.mnemonic == m && b.mnemonic == m
    if !both "lwc1" && !both "swc1" then return none
    let ra ← a.arg 0
    let rb ← b.arg 0
    let ma ← a.arg 1
    let mb ← b.arg 1
    match ra with
    | .register r =>
      if !(← r.isFloat) then return none
      if rb != .register (← r.partner) then return none
      match ma.memory?, mb.memory? with
      | some (_, base), some (_, base') =>
        if base != base' then return none
        let args := if (← r.number) % 2 == 1 then [rb, ma] else [ra, mb]
        let mnemonic := if a.mnemonic == "lwc1" then "ldc1" else "sdc1"
        return some ([.instruction (.derived mnemonic args a)], 2)
      | _, _ => return none
    | _ => return none
  | _ => return none

def idioms : List Idiom :=
  [signedDivisionChecks, unsignedDivisionCheck, powerDivisionShifted, powerDivisionMoved,
   unsignedToFloat, floatToUnsigned, doubleHalves]

def firstReplacement? (items : List Item) : List Idiom → Except Failure (Option Replacement)
  | [] => pure none
  | idiom :: rest => do
    match ← idiom items with
    | some r => return some r
    | none => firstReplacement? items rest

def replaceIdioms : List Item → Except Failure (List Item)
  | [] => pure []
  | item :: rest => do
    match ← firstReplacement? (item :: rest) idioms with
    | some (new, n) => return new ++ (← replaceIdioms (rest.drop (n - 1)))
    | none => return item :: (← replaceIdioms rest)
termination_by items => items.length

end Decompiler.Flow
