import Decompiler.Asm.Operand
import Decompiler.Infer.Declared

/-!
# Slots of arguments

Where a call passes the arguments of a declared function. Every argument has a place on the stack
that is a multiple of its alignment.
-/

namespace Decompiler.Infer

open Asm

/-- A word that passes an argument or a part of it. -/
structure Slot where
  offset : Int
  register : Option Register
  name : Option String
  type : TypeId

/-- The slots of a parameter list that is read from left to right. -/
structure SlotReader where
  slots : Array Slot := #[]
  offset : Int := 0
  onlyFloats : Bool := true
  count : Nat := 0

def wordsBetween (start stop : Int) : List Int :=
  (List.range (Int.fdiv stop 4 - Int.fdiv start 4).toNat).map fun k : Nat => Int.fdiv start 4 + k

def wordRegister? (n : Int) : Option Register :=
  if n < 4 then some ⟨"a" ++ toString n⟩ else none

namespace SlotReader

/-- Takes in a floating-point parameter that has a register of its own. The caller of a function
passes a double as one argument, but the function finds two registers. -/
def addFloat (r : SlotReader) (name : Option String) (isDouble forCall : Bool) :
    Inference SlotReader := do
  let first := r.count == 0
  let type ← fresh (if isDouble then .double else .single)
  let slot : Slot := ⟨r.offset, some ⟨if first then "f12" else "f14"⟩, name, type⟩
  if isDouble && !forCall then
    let lower : Slot := {
      offset := r.offset + 4
      register := some ⟨if first then "f13" else "f15"⟩
      name := match name with
        | some n => if n == "" then none else some (n ++ "_lo")
        | none => none
      type := ← fresh .any }
    return { r with slots := (r.slots.push slot).push lower }
  return { r with slots := r.slots.push slot }

def addWords (r : SlotReader) (p : C.Parameter) (size : Int) : Inference SlotReader := do
  (wordsBetween r.offset (r.offset + size)).foldlM (fun r n => do
    let inner := 4 * n - r.offset
    let name := match p.name with
      | some name =>
        some (if name != "" && inner != 0 then name ++ "_unk" ++ Integer.upperHex inner else name)
      | none => none
    let slot : Slot := ⟨4 * n, wordRegister? n, name, ← ofDeclared p.type⟩
    return { r with slots := r.slots.push slot }) r

def add (forCall : Bool) (r : SlotReader) (p : C.Parameter) : Inference SlotReader := do
  let (size, align) ← declared (C.argumentExtent p.type)
  let size := C.alignUp size 4
  let words ← p.type.words? ((← get).context.getD {})
  let onlyFloats := r.onlyFloats && (words == some ["float"] || words == some ["double"])
  let r := { r with offset := C.alignUp r.offset align, onlyFloats := onlyFloats }
  let r ←
    if r.count < 2 && onlyFloats then r.addFloat p.name (words == some ["double"]) forCall
    else r.addWords p size
  return { r with offset := r.offset + size, count := r.count + 1 }

end SlotReader

/-- The slots of the arguments of a function, as a caller or the function itself sees them, and the
registers that may pass further arguments. -/
def argumentSlots (f : C.Signature) (forCall : Bool) : Inference (List Slot × List Register) := do
  match f.params with
  | none => throw (.broken "checked by caller")
  | some params =>
    let context := (← get).context.getD {}
    let returnsAggregate ← match f.result with
      | some t => t.isAggregate context
      | none => pure false
    let start : SlotReader ←
      if returnsAggregate then do
        let slot : Slot := ⟨0, some ⟨"a0"⟩, some "__return__", ← fresh .pointer⟩
        pure { slots := #[slot], offset := 4, onlyFloats := false }
      else pure {}
    let r ← params.foldlM (SlotReader.add forCall) start
    let possible := if f.isVariadic then (wordsBetween r.offset 16).filterMap wordRegister? else []
    return (r.slots.toList, possible)

end Decompiler.Infer
