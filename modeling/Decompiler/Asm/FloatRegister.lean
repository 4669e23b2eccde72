import Decompiler.Asm.Operand
import Decompiler.Failure
import Decompiler.Text.Quoted

/-!
# Floating-point registers

A floating-point register is named `f` with a number. A double precision value takes an even
numbered register and the one behind it.
-/

namespace Decompiler.Asm.Register

/-- Whether a register is a floating-point register; the frame pointer `fp` is none. -/
def isFloat (r : Register) : Except Failure Bool :=
  match r.name.toList with
  | [] => throw (.badIndex "string index out of range")
  | c :: _ => pure (c == 'f' && r.name != "fp")

def number (r : Register) : Except Failure Int :=
  let digits := r.name.toList.drop 1
  match Integer.readDecimal? digits with
  | some n => pure n
  | none =>
    throw (.badNumber
      ("invalid literal for int() with base 10: " ++ Text.quote (String.ofList digits)))

def partner (r : Register) : Except Failure Register := do
  expect (← r.isFloat) "tried to get complement reg of non-floating point register"
  let n ← r.number
  return ⟨"f" ++ toString (if n % 2 == 0 then n + 1 else n - 1)⟩

end Decompiler.Asm.Register
