/-!
# Failures

Everything that can stop the decompiler. A `Rejection` is a problem with the input that is reported
in words to the user; the other causes are broken expectations inside a pass.
-/

namespace Decompiler

/-- A problem with the input, reported to the user. -/
inductive Rejection where
  -- Operands and instructions
  | nestedArithmetic
  | quotientTarget
  | branchOperand (instruction : String)
  -- Assembly files
  | trailingBackslash (line : String)
  | unterminatedString (line : String)
  | missingString (line : String)
  | dataValue (directive line : String)
  | strayLabel (label : String)
  -- Blocks and the flow graph
  | sharedPosition (first second : String)
  | delaySlotLabel (label : String)
  | adjacentDelaySlots (first second : String)
  | overwrittenCallTarget (mnemonic : String)
  | unknownJumpTable (place : String)
  | missingJumpTable (place : String)
  | jumpTableTarget (label : String)
  | branchTarget (label : String)
  -- Operands of an evaluated instruction
  | fewOperands (needed : Nat)
  | notRegister (operand : String)
  | notFloatRegister (register : String)
  | oddDoubleRegister (register : String)
  | unknownDoubleHalf (register : String)
  | notMemory (operand : String)
  | badOffset (operand : String)
  | notLiteral (operand : String)
  | upperOperand (operand : String)
  | upperRelocation
  | upperArgument (operand : String)
  | strayUpperHalf
  | badRelocation (operand : String)
  | linkRegister
  | callOperands (count : Nat)
  -- C declarations
  | contextSyntax (problem place : String)
  | untypedParameters (function : String)
  | badInteger (expression : String)
  | zeroDivisor (expression : String)
  | notConstant (expression : String)
  | undefinedAggregate (name : String)
  | unsizedArray (field : String)
  | voidField (field : String)
  | bitfieldType (field : String)
  | bitfieldWidth (field : String)
  | voidParameter
  deriving DecidableEq

/-- Why the decompiler stopped. -/
inductive Failure where
  | rejected (why : Rejection)
  /-- An expectation of a pass did not hold; it may say which. -/
  | broken (expectation : String)
  | missingItem
  /-- A text is shorter than an access to it needs. -/
  | badIndex (message : String)
  | missingName
  | badNumber (message : String)
  | zeroModulus
  | endOfCode
  | tooLarge
  | wordRange
  | missingPart
  | endless
  | within (instruction : String) (cause : Failure)
  deriving DecidableEq

def Rejection.message : Rejection → String
  | .nestedArithmetic => "Math is too complicated for mips_to_c. Try adding parentheses."
  | .quotientTarget => "first argument to div/mult must be $zero"
  | .branchOperand i => "Couldn't parse instruction \"" ++ i ++ "\": invalid branch target"
  | .trailingBackslash line => "backslash at end of .ascii line not supported: " ++ line
  | .unterminatedString line => "unterminated string literal: " ++ line
  | .missingString line => ".ascii with no string: " ++ line
  | .dataValue directive line => "Could not parse rodata " ++ directive ++ ": " ++ line
  | .strayLabel label => "Label " ++ label ++ " is not within a function!"
  | .sharedPosition a b =>
    "A block is currently not allowed to have more than one label,\n" ++
      "but " ++ a ++ "/" ++ b ++ " is given two."
  | .delaySlotLabel label => String.intercalate "\n" <|
    ["Label " ++ label ++ " refers to a delay slot; this is currently not supported.",
     "Please modify the assembly to work around it (e.g. copy the instruction",
     "to all jump sources and move the label, or add a nop to the delay slot)."] ++
    if (label.splitOn "_before").length > 1 then
      ["",
       "This label was auto-generated as the target for a branch-likely",
       "instruction (e.g. beql); you can also try to turn that into a non-likely",
       "branch if that's equivalent in this context, i.e., if it's okay to",
       "execute its delay slot unconditionally."]
    else []
  | .adjacentDelaySlots a b =>
    "Two delay slot instructions in a row is not supported:\n" ++ a ++ "\n" ++ b
  | .overwrittenCallTarget mnemonic =>
    "Instruction after " ++ mnemonic ++ " clobbers its source\n" ++
      "register, which is currently not supported.\n\n" ++
      "Try rewriting the assembly to avoid that."
  | .unknownJumpTable place =>
    "Unable to determine jump table for jr instruction " ++ place ++ ".\n\n" ++
      "There must be a read of a variable in the same block as\n" ++
      "the instruction, which has a name starting with \"jtbl\"/\"jpt_\"."
  | .missingJumpTable place =>
    "Found jr instruction " ++ place ++ ", but the " ++
      "corresponding jump table is not provided.\n" ++
      "\n" ++
      "Please include it in the input .s file, or in a separate .s " ++
      "file pointed to by --rodata.\n" ++
      "It needs to be within \".section .rodata\" or \".section .late_rodata\".\n" ++
      "\n" ++
      "(You might need to pass --goto and --no-andor flags as well, " ++
      "to get correct control flow for non-jtbl switch jumps.)"
  | .jumpTableTarget label => "Cannot find jtbl target " ++ label
  | .branchTarget label => "Cannot find branch target " ++ label
  | .fewOperands n =>
    "Too few arguments for instruction, expected at least " ++ toString n
  | .notRegister operand =>
    "Expected instruction argument to be a register, but found " ++ operand
  | .notFloatRegister r => "Expected instruction argument " ++ r ++ " to be a float register"
  | .oddDoubleRegister r =>
    "Tried to use a double-precision instruction with odd-numbered float register " ++ r
  | .unknownDoubleHalf r =>
    "Unable to determine a value for double-precision register " ++ r ++ " " ++
      "whose second half is non-static. This is a mips_to_c restriction " ++
      "which may be lifted in the future."
  | .notMemory operand =>
    "Expected instruction argument to be of the form offset($register), " ++
      "but found " ++ operand
  | .badOffset operand =>
    "Unable to parse offset for instruction argument " ++ operand ++ ". " ++
      "Expected a constant or a %lo macro."
  | .notLiteral operand => "Instruction argument " ++ operand ++ " must be a literal"
  | .upperOperand operand => "lui argument must be a literal or %hi macro, found " ++ operand
  | .upperRelocation => "Got lui instruction with macro other than %hi"
  | .upperArgument operand => "Invalid %hi argument " ++ operand
  | .strayUpperHalf => "%hi macro outside of lui"
  | .badRelocation operand =>
    "Bad linker macro in instruction argument " ++ operand ++ ", expected %lo"
  | .linkRegister => "Two-argument form of jalr is not supported."
  | .callOperands n => "jalr takes 2 arguments, " ++ toString n ++ " given"
  | .contextSyntax problem place =>
    "Syntax error when parsing C context.\n" ++ problem ++ place
  | .untypedParameters f => "K&R-style function header is not supported: " ++ f
  | .badInteger e => "Failed to parse " ++ e ++ " as an int literal"
  | .zeroDivisor e => "Division by zero when evaluating expression " ++ e
  | .notConstant e =>
    "Failed to evaluate expression " ++ e ++
      " at compile time; only simple arithmetic is supported for now"
  | .undefinedAggregate name => "Tried to use struct " ++ name ++ " before it is defined."
  | .unsizedArray field => "Array field " ++ field ++ " must have a size"
  | .voidField field => "Field " ++ field ++ " cannot be void"
  | .bitfieldType field => "Bitfield " ++ field ++ " is not of primitive type"
  | .bitfieldWidth field => "Width of bitfield " ++ field ++ " exceeds its type"
  | .voidParameter => "Function parameter has void type"

namespace Failure

def kind : Failure → String
  | .rejected _ => "DecompFailure"
  | .broken _ => "AssertionError"
  | .missingItem => "IndexError"
  | .badIndex _ => "IndexError"
  | .missingName => "KeyError"
  | .badNumber _ => "ValueError"
  | .zeroModulus => "ZeroDivisionError"
  | .endOfCode => "StopIteration"
  | .tooLarge => "OverflowError"
  | .wordRange => "struct.error"
  | .missingPart => "AttributeError"
  | .endless => "RecursionError"
  | .within _ _ => "InstrProcessingFailure"

def text : Failure → String
  | .rejected why => why.message
  | .broken expectation => expectation
  | .missingItem => "list index out of range"
  | .badIndex message => message
  | .badNumber message => message
  | .zeroModulus => "integer modulo by zero"
  | .within instruction _ => "Error while processing instruction:\n" ++ instruction
  | _ => ""

def isRejection : Failure → Bool
  | .rejected _ => true
  | _ => false

def negativeShift : Failure :=
  .badNumber "negative shift count"

end Failure

def reject {m : Type → Type} {α : Type} [MonadExcept Failure m] (why : Rejection) : m α :=
  throw (.rejected why)

def expect {m : Type → Type} [Monad m] [MonadExcept Failure m] (holds : Bool)
    (expectation : String := "") : m Unit :=
  if holds then pure () else throw (.broken expectation)

end Decompiler
