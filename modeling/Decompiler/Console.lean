import Decompiler.Failure

/-!
# What is printed

Text is collected on two channels and kept also when a step fails.
-/

namespace Decompiler

/-- The text printed so far on the output and on the error channel. -/
structure Console where
  out : String := ""
  err : String := ""
  deriving Inhabited, DecidableEq

abbrev Command := ExceptT Failure (StateM Console)

namespace Console

def print (c : Console) (text : String) : Console :=
  { c with out := c.out ++ text }

def warn (c : Console) (text : String) : Console :=
  { c with err := c.err ++ text }

end Console

def printLine (line : String) : Command Unit :=
  modify (·.print (line ++ "\n"))

end Decompiler
