import Decompiler.Asm.Operand.Reader

/-!
# Instructions

An instruction is a mnemonic with operands and the place it came from. Reading an instruction
brings the many spellings of one operation into a single form.
-/

namespace Decompiler.Asm

structure Origin where
  emitGoto : Bool
  file : String
  line : Nat
  synthetic : Bool
  deriving DecidableEq

def Origin.unknown : Origin := ⟨false, "<unknown>", 0, true⟩

def Origin.place (o : Origin) : String :=
  (if o.synthetic then "near" else "at") ++ " " ++ o.file ++ " line " ++ toString o.line

structure Instruction where
  mnemonic : String
  args : List Operand
  origin : Origin
  deriving DecidableEq

namespace Instruction

def derived (mnemonic : String) (args : List Operand) (old : Instruction) : Instruction :=
  ⟨mnemonic, args, { old.origin with synthetic := true }⟩

def text (i : Instruction) : String :=
  i.mnemonic ++ " " ++ String.intercalate ", " (i.args.map Operand.text)

def likelyBranches : List String :=
  ["beql", "bnel", "beqzl", "bnezl", "bgezl", "bgtzl", "blezl", "bltzl", "bc1tl", "bc1fl"]

def plainBranches : List String :=
  ["j", "b", "beq", "bne", "beqz", "bnez", "bgez", "bgtz", "blez", "bltz", "bc1t", "bc1f"]

def isLikelyBranch (i : Instruction) : Bool :=
  likelyBranches.contains i.mnemonic

def isBranch (i : Instruction) : Bool :=
  plainBranches.contains i.mnemonic || i.isLikelyBranch

def isJump (i : Instruction) : Bool :=
  i.isBranch || i.mnemonic == "jr"

def hasDelaySlot (i : Instruction) : Bool :=
  i.isBranch || i.mnemonic == "jr" || i.mnemonic == "jal" || i.mnemonic == "jalr"

def target (i : Instruction) : Except Failure String :=
  match i.args.getLast? with
  | none => throw .missingItem
  | some (.target label) => pure label
  | some operand =>
    match operand.symbol? with
    | some name => pure name
    | none => reject (.branchOperand i.text)

def arg (i : Instruction) (index : Nat) : Except Failure Operand :=
  match i.args[index]? with
  | some operand => pure operand
  | none => throw .missingItem

def unaryOperations : List String :=
  ["neg", "negu", "not", "neg.s", "abs.s", "sqrt.s", "neg.d", "abs.d", "sqrt.d"]

def binaryOperations : List String :=
  ["slt", "slti", "sltu", "sltiu", "addi", "addiu", "addu", "subu", "daddi", "daddiu", "dsubu",
   "add.s", "sub.s", "div.s", "mul.s", "add.d", "sub.d", "div.d", "mul.d", "ori", "and", "or",
   "nor", "xor", "andi", "xori", "sll", "sllv", "srl", "srlv", "sra", "srav", "dsll", "dsll32",
   "dsllv", "dsrl", "dsrl32", "dsrlv", "dsra", "dsra32", "dsrav"]

/-- Operations whose result goes to the registers `hi` and `lo`. -/
def wideOperations : List String :=
  ["div", "divu", "ddiv", "ddivu", "mult", "multu", "dmult", "dmultu"]

/-- An instruction with three operands without a zero register: as the unused target of a wide
operation, or as what a branch compares with. -/
def dropZero (i : Instruction) (a b c : Operand) : Except Failure Instruction :=
  let isZero := Operand.isRegister .zero
  let become (mnemonic : String) (args : List Operand) : Except Failure Instruction :=
    pure { i with mnemonic := mnemonic, args := args }
  if wideOperations.contains i.mnemonic then
    if isZero a then become i.mnemonic [b, c] else reject .quotientTarget
  else if i.mnemonic == "beq" && isZero a && isZero b then become "b" [c]
  else if isZero b && i.mnemonic == "bne" then become "bnez" [a, c]
  else if isZero b && i.mnemonic == "beq" then become "beqz" [a, c]
  else if isZero b && i.mnemonic == "beql" then become "beqzl" [a, c]
  else if isZero b && i.mnemonic == "bnel" then become "bnezl" [a, c]
  else pure i

def normalizeThree (i : Instruction) (a b c : Operand) : Except Failure Instruction :=
  let isZero := Operand.isRegister .zero
  let become (mnemonic : String) (args : List Operand) : Except Failure Instruction :=
    pure { i with mnemonic := mnemonic, args := args }
  if i.mnemonic == "sll" && isZero a && isZero b then become "nop" []
  else if i.mnemonic == "or" && isZero c then become "move" [a, b]
  else if i.mnemonic == "addu" && isZero c then become "move" [a, b]
  else if i.mnemonic == "daddu" && isZero c then become "move" [a, b]
  else if i.mnemonic == "nor" && isZero b then become "not" [a, c]
  else if i.mnemonic == "nor" && isZero c then become "not" [a, b]
  else if i.mnemonic == "addiu" && c == .literal 0 then become "move" [a, b]
  else
    match c with
    | .literal n =>
      if i.mnemonic == "ori" && isZero b then become "li" [a, .literal (Integer.unsigned16 n)]
      else if i.mnemonic == "addiu" && isZero b then
        become "li" [a, .literal (Integer.signed16 n)]
      else dropZero i a b c
    | _ => dropZero i a b c

/-- The standard form of an instruction: pseudo-instructions for moves, loaded constants and
comparisons with zero, and a destination that was left out repeated. -/
def normalize (i : Instruction) : Except Failure Instruction :=
  match i.args with
  | [a, b, c] => normalizeThree i a b c
  | [a, b] =>
    if i.mnemonic == "beqz" && a.isRegister .zero then pure { i with mnemonic := "b", args := [b] }
    else
      match b with
      | .literal n =>
        if i.mnemonic == "lui" then
          pure { i with mnemonic := "li", args := [a, .literal (Integer.unsigned16 n * 0x10000)] }
        else if binaryOperations.contains i.mnemonic then
          normalizeThree { i with args := [a, a, b] } a a b
        else pure i
      | _ =>
        if binaryOperations.contains i.mnemonic then
          normalizeThree { i with args := [a, a, b] } a a b
        else pure i
  | [a] =>
    if unaryOperations.contains i.mnemonic then pure { i with args := [a, a] } else pure i
  | _ => pure i

/-- Reads an instruction from a trimmed line: the mnemonic up to the first space, then operands
between commas, where an empty operand is left out. -/
def readTrimmed (line : List Char) (origin : Origin) : Except Failure Instruction := do
  let (mnemonic, rest) := line.span (· != ' ')
  let args ← (Text.split ',' (rest.drop 1)).mapM fun part => Operand.read (Text.trim part)
  normalize ⟨String.ofList mnemonic, args.filterMap id, origin⟩

def read (line : List Char) (origin : Origin) : Except Failure Instruction :=
  readTrimmed (Text.trim line) origin

def readFailure (line : List Char) (origin : Origin) : String :=
  "Failed to parse instruction: " ++ String.ofList (Text.trim line) ++ ", " ++ origin.place ++
    "\n\n"

end Instruction

end Decompiler.Asm
