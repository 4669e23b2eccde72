import Decompiler.Asm.Instruction
import Decompiler.Table
import Decompiler.Text.Quoted

/-!
# The stack frame

A function sets up its frame in its first block: it lowers the stack pointer and stores the return
address and the registers that belong to its caller. From the bottom, the frame holds the arguments
of calls, the stored registers and the local variables; above it lie the arguments of the function.
-/

namespace Decompiler.Eval

open Asm

/-- The layout of a stack frame; places are offsets from the stack pointer. -/
structure Frame where
  size : Int := 0
  /-- Whether the function does not store its return address. -/
  isLeaf : Bool := true
  /-- Whether `fp` is used like the stack pointer. -/
  usesFramePointer : Bool := false
  localsStart : Int := 0
  returnAddress : Int := 0
  saved : Table Register Int := .empty
  deriving Inhabited

namespace Frame

def stackOffset? : Operand → Option (Except Failure Int)
  | .memory base => if base.name == "sp" then some (pure 0) else none
  | .memoryAt offset base =>
    if base.name == "sp" then
      match offset with
      | .literal n => some (pure (Integer.signed16 n))
      | _ => some (throw (.broken ""))
    else none
  | _ => none

def step (f : Frame) (i : Instruction) (r : Register) : Except Failure Frame := do
  if i.mnemonic == "addiu" && r.name == "sp" then
    match ← i.arg 2 with
    | .literal n => return { f with size := (Integer.signed16 n).natAbs }
    | _ => throw (.broken "")
  if i.mnemonic == "move" && r.name == "fp" then
    if (← i.arg 1) == .register ⟨"sp"⟩ then return { f with usesFramePointer := true }
  if i.mnemonic == "sw" && r.name == "ra" then
    match stackOffset? (← i.arg 1) with
    | some offset =>
      if f.isLeaf then return { f with isLeaf := false, returnAddress := ← offset }
    | none => pure ()
  if ["sw", "swc1", "sdc1"].contains i.mnemonic && r.isCalleeSaved then
    match stackOffset? (← i.arg 1) with
    | some offset => return { f with saved := f.saved.insert r (← offset) }
    | none => pure ()
  return f

def scan (f : Frame) : List Instruction → Except Failure Frame
  | [] => pure f
  | i :: is => do
    match i.args.head? with
    | some (.register r) =>
      if i.mnemonic == "jal" then return f
      (← f.step i r).scan is
    | _ => f.scan is

def savedPlaces (f : Frame) : List Int :=
  f.saved.values

def placeLocals (f : Frame) : Frame :=
  let start := if f.isLeaf then 0 else f.returnAddress + 4
  let start := match f.savedPlaces.max? with
    | some top => max start (top + 4)
    | none => start
  { f with localsStart := start }

def ofEntry (instructions : List Instruction) : Except Failure Frame := do
  return (← scan {} instructions).placeLocals

def holdsOutgoing (f : Frame) (place : Int) : Bool :=
  if f.isLeaf then false
  else
    let top := match f.savedPlaces.min? with
      | some bottom => min f.returnAddress bottom
      | none => f.returnAddress
    place < top

def holdsLocal (f : Frame) (place : Int) : Bool :=
  f.localsStart ≤ place && place < f.size

def isAbove (f : Frame) (place : Int) : Bool :=
  f.size ≤ place

def isStackRegister (f : Frame) (r : Register) : Bool :=
  r.name == "sp" || (r.name == "fp" && f.usesFramePointer)

def text (f : Frame) (function : String) : String :=
  let word (b : Bool) : String := if b then "True" else "False"
  let saved := f.saved.entries.map fun (r, place) =>
    "Register(register_name=" ++ Text.quote r.name ++ "): " ++ toString place
  String.intercalate "\n"
    ["Stack info for function " ++ function ++ ":",
     "Allocated stack size: " ++ toString f.size,
     "Leaf? " ++ word f.isLeaf,
     "Bottom of local vars region: " ++ toString f.localsStart,
     "Location of return addr: " ++ toString f.returnAddress,
     "Locations of callee save registers: \x7b" ++ String.intercalate ", " saved ++ "\x7d"]

end Frame

end Decompiler.Eval
