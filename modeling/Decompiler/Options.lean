import Decompiler.Table

/-!
# Options

What a user can ask of the decompiler.
-/

namespace Decompiler

/-- The options of a run. -/
structure Options where
  /-- The assembly file; a single dash stands for the standard input. -/
  file : String
  /-- The function to decompile, by index or name; without one all functions are decompiled. -/
  function : Option String := none
  /-- Print notes about the evaluation of each block. -/
  debug : Bool := false
  void : Bool := false
  structured : Bool := true
  /-- Recover the short-circuiting operators. -/
  andOr : Bool := true
  skipCasts : Bool := false
  gotoPatterns : List String := ["GOTO"]
  rodataFiles : List String := []
  stopOnError : Bool := false
  printAssembly : Bool := false
  context : Option String := none
  /-- Print what the C declarations say and nothing else. -/
  dumpTypes : Bool := false
  /-- The names that conditional assembly may ask for, with one for those that are set. -/
  defines : Table String Nat := .empty
  allman : Bool := false

end Decompiler
