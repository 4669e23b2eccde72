import Decompiler.Asm.Operand
import Decompiler.Failure

/-!
# Addresses

The memory that an operand refers to: a place relative to a register or to a symbol. An address is
loaded in two halves; the upper half already counts as the whole address, so the lower half counts
as nothing.
-/

namespace Decompiler.Asm

inductive Address where
  | atRegister (offset : Int) (base : Register)
  | atSymbol (offset : Int) (symbol : String)
  deriving DecidableEq

namespace Address

def offset : Address → Int
  | .atRegister offset _ => offset
  | .atSymbol offset _ => offset

def withOffset (offset : Int) : Address → Address
  | .atRegister _ base => .atRegister offset base
  | .atSymbol _ symbol => .atSymbol offset symbol

def text : Address → String
  | .atRegister offset base =>
    (if offset == 0 then "" else toString offset) ++ "(" ++ base.text ++ ")"
  | .atSymbol offset symbol => if offset == 0 then symbol else symbol ++ " + " ++ toString offset

end Address

namespace Operand

def dropLowHalf (operand : Operand) : Except Failure Operand :=
  match operand with
  | .half .high _ => reject .strayUpperHalf
  | .half .low _ => pure (.literal 0)
  | .memoryAt (.half .high _) _ => reject (.badRelocation operand.text)
  | .memoryAt (.half .low _) base => pure (.memory base)
  | _ => pure operand

/-- The symbol and the offset of an operand that is a symbol, perhaps with a literal added or
subtracted. -/
def symbolOffset? : Operand → Option (String × Int)
  | .binary .add left (.literal n) => left.symbol?.map fun name => (name, n)
  | .binary .sub left (.literal n) => left.symbol?.map fun name => (name, -n)
  | operand => operand.symbol?.map fun name => (name, 0)

def address (operand : Operand) : Except Failure Address := do
  let operand ← operand.dropLowHalf
  match operand.symbolOffset?, operand with
  | some (name, offset), _ => return .atSymbol offset name
  | none, .memory base => return .atRegister 0 base
  | none, .memoryAt (.literal n) base => return .atRegister (Integer.signed16 n) base
  | none, .memoryAt _ _ => reject (.badOffset operand.text)
  | none, _ => reject (.notMemory operand.text)

end Operand

def operandAt (args : List Operand) (index : Nat) : Except Failure Operand :=
  match args[index]? with
  | some operand => pure operand
  | none => reject (.fewOperands (index + 1))

end Decompiler.Asm
