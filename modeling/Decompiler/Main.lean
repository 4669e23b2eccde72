import Decompiler.CommandLine
import Decompiler.Program

/-!
# The command

Reads the files that the arguments name, runs the program on them and prints the result.
-/

namespace Decompiler.Main

def usage : String :=
  "usage: decompiler [-h] [options] filename [function]\n"

def textOf (name : String) : IO (Option (List Char)) := do
  try
    return some (← IO.FS.readFile name).toList
  catch _ => return none

def inputs (o : Options) : IO Inputs := do
  let names := o.file :: o.rodataFiles ++ o.context.toList
  let texts ← names.mapM fun name => do return (name, ← textOf name)
  let stdin ← if o.file == "-" then (← IO.getStdin).readToEnd else pure ""
  return { file := fun name => (texts.lookup name).join, stdin := stdin.toList }

end Decompiler.Main

def main (args : List String) : IO UInt32 := do
  match Decompiler.CommandLine.parse args with
  | .error e =>
    (← if e == .help then IO.getStdout else IO.getStderr).putStr Decompiler.Main.usage
    return e.status.toUInt32
  | .ok o =>
    let (result, console) := Decompiler.Program.run o (← Decompiler.Main.inputs o)
    (← IO.getStdout).putStr console.out
    (← IO.getStderr).putStr console.err
    match result with
    | .ok status => return status.toUInt32
    | .error e =>
      (← IO.getStderr).putStr ("[traceback " ++ e.kind ++ "]\n")
      return 1
