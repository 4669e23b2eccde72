import Decompiler.Eval.Memory

/-!
# Values of instructions

What an instruction computes, by mnemonic. The order in which operands are read is fixed, since
reading a register counts as a use in some cases.
-/

namespace Decompiler.Eval

open Asm Code Infer

abbrev Rule := List Operand → Evaluation Expr

def loadUpper (args : List Operand) : Evaluation Expr := do
  match ← operandAt args 1 with
  | .half .low _ => reject .upperRelocation
  | .half .high of =>
    match of.symbolOffset? with
    | none => reject (.upperArgument of.text)
    | some (name, offset) =>
      let source ← addressOfSymbol name
      let imm ← literal offset
      addImmediate (← registerAt args 0) none source imm
  | operand => reject (.upperOperand operand.text)

def addSigned (args : List Operand) : Evaluation Expr := do
  let r ← registerAt args 1
  let source ← read r
  let imm ← signedAt args 2
  addImmediate (← registerAt args 0) (some r) source imm

def loadAddress (args : List Operand) : Evaluation Expr := do
  match ← addressAt args 1 with
  | .atRegister offset base =>
    addSigned [.register (← registerAt args 0), .register base, .literal offset]
  | .atSymbol offset name =>
    let var ← addressOfSymbol name
    plus var (← literal offset)

def orImmediate (args : List Operand) : Evaluation Expr := do
  let imm ← unsignedAt args 2
  let source ← valueAt args 1
  match source, imm with
  | .literal m _, .literal n _ => literal (Integer.lor m n)
  | _, _ => apply .int source .bitOr imm

/-- Whether a value is zero, or is not, as a comparison; that of an exclusive or compares its
operands. -/
def compareZero (e : Expr) (op : BinOp) : Evaluation Expr := do
  match ← opened e with
  | .binary left .bitXor right _ _ => apply .compare left op right
  | _ => apply .compare e op (← literal 0)

def lessUnsigned (args : List Operand) : Evaluation Expr := do
  let right ← valueAt args 2
  if (← registerAt args 1) == .zero then compareZero right .ne
  else apply .unsignedCompare (← valueAt args 1) .lt right

def lessUnsignedImmediate (args : List Operand) : Evaluation Expr := do
  let left ← valueAt args 1
  let right ← signedAt args 2
  match right with
  | .literal n _ =>
    let n := Integer.unsigned32 n
    if n == 1 then compareZero left .eq
    else apply .unsignedCompare left .lt (← literal n)
  | _ => apply .unsignedCompare left .lt right

def add (args : List Operand) : Evaluation Expr := do
  let left ← valueAt args 1
  let right ← valueAt args 2
  let pointers := (← isPointer left.type) || (← isPointer right.type)
  let type ← freshType (if pointers then .pointer else .intOrPtr)
  if right.isLiteral then
    addImmediate (← registerAt args 0) (some (← registerAt args 1)) left right
  else if left.isLiteral then
    addImmediate (← registerAt args 0) (some (← registerAt args 2)) right left
  else
    let left ← asNew left .intOrPtr
    let right ← asNew right .intOrPtr
    let sum : Expr := .binary left .add right type false
    if let some product ← foldMultiple? sum then return product
    if (← get).hasContext then
      if let some item ← arrayAccess? sum 0 none true then return item
    return sum

/-- An arithmetic shift to the right; behind a shift to the left it is a cast to a smaller type. -/
def shiftRightSigned (args : List Operand) : Evaluation Expr := do
  let left ← valueAt args 1
  let shift ← signedAt args 2
  let narrow : Option (Nat × Int) := match shift with
    | .literal 16 _ => some (16, 0x10000)
    | .literal 24 _ => some (8, 0x1000000)
    | _ => none
  if let some (bits, power) := narrow then
    match ← opened left with
    | .binary inner .shiftLeft (.literal n _) _ _ =>
      if shift.literal? == some n then return ← asNew inner (.signed bits) false
    | .binary inner .mul (.literal n _) _ _ =>
      if n % power == 0 && n != power then
        let product ← apply .int inner .mul (← literal (n / power))
        return ← asNew product (.signed bits) false
    | _ => pure ()
  let left ← asNew left (.signed 32) false
  let shift ← asNew shift .integer
  return .binary left .shiftRight shift (← freshType (.signed 32)) false

/-- A sum of floating-point numbers; twice a number is a product. -/
def addFloats (o : Operation) (two : Int) (value : List Operand → Nat → Evaluation Expr)
    (args : List Operand) : Evaluation Expr := do
  if (← registerAt args 1) == (← registerAt args 2) then
    let two : Expr := .literal two (← freshType o.result)
    apply o two .mul (← value args 1)
  else
    let left ← value args 1
    let right ← value args 2
    apply o left .add right

def onRegisters (o : Operation) (op : BinOp) (first : Nat := 1) : Rule := fun args => do
  let left ← valueAt args first
  let right ← valueAt args (first + 1)
  apply o left op right

def onDoubles (o : Operation) (op : BinOp) (first : Nat := 1) : Rule := fun args => do
  let left ← doubleAt args first
  let right ← doubleAt args (first + 1)
  apply o left op right

def onImmediate (o : Operation) (op : BinOp) (imm : List Operand → Nat → Evaluation Expr)
    (first : Nat := 1) : Rule := fun args => do
  let left ← valueAt args first
  let right ← imm args (first + 1)
  apply o left op right

def onOne (op : UnOp) (type : TypeNode) (silent : Bool) : Rule := fun args => do
  let operand ← asNew (← valueAt args 1) type silent
  return .unary op operand (← freshType type)

def convert (source : TypeNode) (silent : Bool) (target : TypeNode)
    (value : List Operand → Nat → Evaluation Expr := valueAt) : Rule := fun args => do
  let operand ← asNew (← value args 1) source silent
  return .cast operand (← freshType target) false true

def onFloat (name : String) (type : TypeNode) (value : List Operand → Nat → Evaluation Expr) :
    Rule :=
  fun args => do
    builtin name [← asNew (← value args 1) type] type

def shiftAmount (imm : List Operand → Nat → Evaluation Expr) (args : List Operand) :
    Evaluation Expr := do
  asNew (← imm args 2) .integer

def longShiftAmount (args : List Operand) : Evaluation Expr := do
  match ← signedAt args 2 with
  | .literal n _ => asNew (← literal (n + 32)) .integer
  | e => apply .int e .add (← literal 32)

def shiftLeft (o : Operation) (amount : Rule) : Rule := fun args => do
  let left ← valueAt args 1
  let right ← amount args
  apply o left .shiftLeft right

def shiftRight (type : TypeNode) (amount : Rule) : Rule := fun args => do
  let left ← asNew (← valueAt args 1) type false
  let right ← amount args
  return .binary left .shiftRight right (← freshType type) false

def folded (rule : Rule) : Rule := fun args => do
  foldMultiple (← rule args)

/-- The rules of the instructions that set their first operand, by mnemonic. -/
def valueRule? : String → Option Rule
  -- Comparisons
  | "slt" => some (onRegisters .signedCompare .lt)
  | "slti" => some (onImmediate .signedCompare .lt signedAt)
  | "sltu" => some lessUnsigned
  | "sltiu" => some lessUnsignedImmediate
  -- Integer arithmetic
  | "addi" | "addiu" | "daddi" | "daddiu" => some addSigned
  | "addu" | "daddu" => some add
  | "subu" | "dsubu" => some (folded (onRegisters .address .sub))
  | "negu" | "neg" => some (folded (onOne .neg (.signed 32) false))
  | "dnegu" | "dneg" => some (folded (onOne .neg (.signed 64) false))
  | "div.fictive" => some (onImmediate .signedWord .div immediateAt)
  -- Results of divisions and multiplications
  | "mfhi" => some fun _ => read ⟨"hi"⟩
  | "mflo" => some fun _ => read ⟨"lo"⟩
  -- Floating-point arithmetic
  | "add.s" => some (addFloats .single (Integer.shiftLeft 1 30) valueAt)
  | "sub.s" => some (onRegisters .single .sub)
  | "neg.s" => some (onOne .neg .single true)
  | "abs.s" => some (onFloat "fabsf" .single valueAt)
  | "sqrt.s" => some (onFloat "sqrtf" .single valueAt)
  | "div.s" => some (onRegisters .single .div)
  | "mul.s" => some (onRegisters .single .mul)
  | "add.d" => some (addFloats .double (Integer.shiftLeft 1 62) doubleAt)
  | "sub.d" => some (onDoubles .double .sub)
  | "neg.d" => some fun args => do
    let operand ← asNew (← doubleAt args 1) .double
    return .unary .neg operand (← freshType .double)
  | "abs.d" => some (onFloat "fabs" .double doubleAt)
  | "sqrt.d" => some (onFloat "sqrt" .double doubleAt)
  | "div.d" => some (onDoubles .double .div)
  | "mul.d" => some (onDoubles .double .mul)
  -- Conversions
  | "cvt.d.s" => some (convert .single true .double)
  | "cvt.d.w" => some (convert .integer true .double)
  | "cvt.s.d" => some (convert .double true .single doubleAt)
  | "cvt.s.w" => some (convert .integer true .single)
  | "cvt.w.d" | "trunc.w.d" => some (convert .double true (.signed 32) doubleAt)
  | "cvt.w.s" | "trunc.w.s" => some (convert .single true (.signed 32))
  | "cvt.s.u.fictive" => some (convert (.unsigned 32) false .single)
  | "cvt.u.d.fictive" => some (convert .double true (.unsigned 32) doubleAt)
  | "cvt.u.s.fictive" => some (convert .single true (.unsigned 32))
  -- Bits
  | "ori" => some orImmediate
  | "and" => some (onRegisters .int .bitAnd)
  | "or" => some (onRegisters .int .bitOr)
  | "not" => some fun args => do
    let operand ← valueAt args 1
    return .unary .complement operand (← freshType .integer)
  | "nor" => some fun args => do
    let operand ← onRegisters .int .bitOr 1 args
    return .unary .complement operand (← freshType .integer)
  | "xor" => some (onRegisters .int .bitXor)
  | "andi" => some (onImmediate .int .bitAnd unsignedAt)
  | "xori" => some (onImmediate .int .bitXor unsignedAt)
  -- Shifts
  | "sll" => some (folded (shiftLeft .int (shiftAmount signedAt)))
  | "sllv" => some (shiftLeft .int (shiftAmount valueAt))
  | "srl" => some (shiftRight (.unsigned 32) (shiftAmount signedAt))
  | "srlv" => some (shiftRight (.unsigned 32) (shiftAmount valueAt))
  | "sra" => some shiftRightSigned
  | "srav" => some (shiftRight (.signed 32) (shiftAmount valueAt))
  | "dsll" => some (folded (shiftLeft .long (shiftAmount signedAt)))
  | "dsll32" => some (folded (shiftLeft .long longShiftAmount))
  | "dsllv" => some (shiftLeft .long (shiftAmount valueAt))
  | "dsrl" => some (shiftRight (.unsigned 64) (shiftAmount signedAt))
  | "dsrl32" => some (shiftRight (.unsigned 64) longShiftAmount)
  | "dsrlv" => some (shiftRight (.unsigned 64) (shiftAmount valueAt))
  | "dsra" => some (shiftRight (.signed 64) (shiftAmount signedAt))
  | "dsra32" => some (shiftRight (.signed 64) longShiftAmount)
  | "dsrav" => some (shiftRight (.signed 64) (shiftAmount valueAt))
  -- Moves and constants
  | "move" | "mfc1" | "mov.s" => some (valueAt · 1)
  | "mov.d" => some fun args => do asNew (← doubleAt args 1) .double
  | "cfc1" => some fun _ => errorExpr (some "cfc1")
  | "li" => some (immediateAt · 1)
  | "lui" => some loadUpper
  | "la" => some loadAddress
  -- Loads
  | "lb" => some (load · (.signed 8))
  | "lbu" => some (load · (.unsigned 8))
  | "lh" => some (load · (.signed 16))
  | "lhu" => some (load · (.unsigned 16))
  | "lw" => some (load · .wordOrPtr)
  | "lwu" => some (load · (.unsigned 32))
  | "lwc1" => some (load · .single)
  | "ldc1" => some (load · .double)
  | "lwl" => some loadUpperBytes
  | _ => none

def setsDouble (mnemonic : String) : Bool :=
  (Text.split '.' mnemonic.toList)[1]? == some ['d'] || mnemonic == "ldc1"

end Decompiler.Eval
