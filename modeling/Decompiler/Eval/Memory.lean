import Decompiler.Eval.Operands

/-!
# Loads and stores
-/

namespace Decompiler.Eval

open Asm Code Infer

structure Store where
  value : Expr
  dest : Expr

def bigEndian (bytes : List UInt8) : Int :=
  bytes.foldl (fun n b => n * 256 + b.toNat) 0

def constantLoad? (s : Session) (e : Expr) (size : Nat) : Option Int :=
  match e with
  | .member base _ _ _ _ =>
    match s.opened base with
    | .address (.symbol name _) _ =>
      match (s.rodata.values.get? name).bind leadingBytes? with
      | some bytes => if bytes.length ≥ size then some (bigEndian (bytes.take size)) else none
      | none => none
    | _ => none
  | _ => none

def load (args : List Operand) (node : TypeNode) : Evaluation Expr := do
  let type ← freshType node
  let size := (← sizeBits type) / 8
  let e ← access (← addressAt args 1) size
  if ← isFloat type then
    if let some n := constantLoad? (← get) e size then return .literal n type
  asType e type true

def accessUnaligned (a : Address) (isStore : Bool := false) : Evaluation Expr :=
  access a 1 isStore

def loadUpperBytes (args : List Operand) : Evaluation Expr := do
  let a ← addressAt args 1
  let e ← accessUnaligned a
  match a with
  | .atRegister offset base =>
    let base ← read base
    return .upperBytes e offset base (← freshType .any)
  | .atSymbol offset name => return .upperBytesAt e offset name (← freshType .any)

def upperBytes? : Expr → Option (Expr × Int)
  | .upperBytes e offset _ _ => some (e, offset)
  | .upperBytesAt e offset _ _ => some (e, offset)
  | _ => none

/-- The value of a load of the lower bytes of a word, which completes a load of the upper bytes if
they were loaded three bytes before. -/
def loadLowerBytes (args : List Operand) (old : Expr) : Evaluation Expr := do
  let old ← opened old
  let a ← addressAt args 1
  match a with
  | .atRegister _ base => discard (read base)
  | .atSymbol _ _ => pure ()
  match upperBytes? old with
  | some (e, offset) =>
    if offset == a.offset - 3 then return .unaligned e (← freshType .any)
  | none => pure ()
  if a.offset % 4 == 2 then
    let e ← accessUnaligned (a.withOffset (a.offset - 2))
    return .threeBytes e (← freshType .any)
  errorExpr (some "Unable to handle lwr; missing a corresponding lwl")

/-- A store of a register; none if it only preserves what belongs to the caller. -/
def store (args : List Operand) (node : TypeNode) : Evaluation (Option Store) := do
  let type ← freshType node
  let size := (← sizeBits type) / 8
  let r ← registerAt args 0
  let value ← read r
  let raw ← peek r
  let a ← addressAt args 1
  let s ← get
  let onStack := match a with
    | .atRegister _ base => s.frame.isStackRegister base
    | .atSymbol _ _ => false
  if onStack && raw.any fun e => s.isPreservation e (some a.offset) then return none
  let dest ← access a size true
  tryUnify dest.type type
  return some ⟨← asType value type onStack, dest⟩

def isUnaligned : Expr → Bool
  | .unaligned _ _ => true
  | _ => false

def storeUpperBytes (args : List Operand) : Evaluation (Option Store) := do
  let value ← valueAt args 0
  let a ← addressAt args 1
  let value ←
    if isUnaligned (← opened value) then pure value
    else pure (.unaligned value (← freshType .any))
  return some ⟨value, ← accessUnaligned a true⟩

def storeLowerBytes (args : List Operand) : Evaluation (Option Store) := do
  let value ← opened (← valueAt args 0)
  let a ← addressAt args 1
  match value with
  | .threeBytes _ _ =>
    return some ⟨value, ← accessUnaligned (a.withOffset (a.offset - 2)) true⟩
  | _ => return none

def storeRule? : String → Option (List Operand → Evaluation (Option Store))
  | "sb" => some (store · (.ofSize 8))
  | "sh" => some (store · (.ofSize 16))
  | "sw" => some (store · (.ofSize 32))
  | "swl" => some storeUpperBytes
  | "swr" => some storeLowerBytes
  | "swc1" => some (store · .single)
  | "sdc1" => some (store · .double)
  | _ => none

end Decompiler.Eval
