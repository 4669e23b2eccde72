import Decompiler.Number.Integer

/-!
# Operands

The operands of an assembly instruction and how they are written: registers, symbols, literals,
relocations of an address half, memory references, jump targets and sums of these.
-/

namespace Decompiler.Asm

structure Register where
  name : String
  deriving DecidableEq, Inhabited

def Register.zero : Register := ⟨"zero"⟩

inductive Half where
  | high
  | low
  deriving DecidableEq

inductive Operator where
  | add
  | sub
  | mul
  | and
  | shiftRight
  deriving DecidableEq

/-- An operand of an instruction. -/
inductive Operand where
  | register (r : Register)
  | symbol (name : String)
  | inSection (name : String) (addend : Int)
  | half (h : Half) (of : Operand)
  | literal (value : Int)
  | memory (base : Register)
  | memoryAt (offset : Operand) (base : Register)
  | binary (op : Operator) (left right : Operand)
  | target (label : String)
  deriving DecidableEq, Inhabited

namespace Register

def isCalleeSaved (r : Register) : Bool :=
  match r.name.toList with
  | 's' :: d :: _ => '0' ≤ d && d ≤ '7'
  | 'f' :: '2' :: d :: _ => Text.isAsciiDigit d
  | 'f' :: '3' :: d :: _ => d == '0' || d == '1'
  | 'g' :: 'p' :: _ => true
  | _ => false

def text (r : Register) : String :=
  "$" ++ r.name

end Register

def Half.text : Half → String
  | .high => "hi"
  | .low => "lo"

def Operator.text : Operator → String
  | .add => "+"
  | .sub => "-"
  | .mul => "*"
  | .and => "&"
  | .shiftRight => ">>"

def sectionSymbol (name : String) (addend : Int) : String :=
  let digits := (Integer.hex addend).toList.drop 2
  "__" ++ name ++ String.ofList (digits.map Char.toUpper)

namespace Operand

def text : Operand → String
  | .register r => r.text
  | .symbol name => name
  | .inSection name addend => sectionSymbol name addend
  | .half h of => "%" ++ h.text ++ "(" ++ of.text ++ ")"
  | .literal value => Integer.hex value
  | .memory base => "(" ++ base.text ++ ")"
  | .memoryAt offset base => offset.text ++ "(" ++ base.text ++ ")"
  | .binary op left right => left.text ++ " " ++ op.text ++ " " ++ right.text
  | .target label => "." ++ label

def literal? : Operand → Option Int
  | .literal value => some value
  | _ => none

def symbol? : Operand → Option String
  | .symbol name => some name
  | .inSection name addend => some (sectionSymbol name addend)
  | _ => none

def memory? : Operand → Option (Option Operand × Register)
  | .memory base => some (none, base)
  | .memoryAt offset base => some (some offset, base)
  | _ => none

def isRegister (r : Register) : Operand → Bool
  | .register r' => r' == r
  | _ => false

end Operand

end Decompiler.Asm
