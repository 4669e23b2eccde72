import Decompiler.C.Context
import Decompiler.Structure.FunctionText

/-!
# The program

A run reads the assembly and the declarations, and decompiles one function or all of them.
-/

namespace Decompiler

open Asm Eval

structure Inputs where
  file : String → Option (List Char)
  stdin : List Char

namespace Program

def missingFile (name : String) : String :=
  "[Errno 2] No such file or directory: " ++ Text.quote name

structure Loaded where
  assembly : File
  context : Option C.TypeMap

inductive Stop where
  | report (message : String)
  | failure (e : Failure)

abbrev Loading := ExceptT Stop (StateM Console)

def command {α : Type} (step : Command α) : Loading α := do
  let (result, console) := step.run.run (← get)
  set console
  match result with
  | .ok a => return a
  | .error (.rejected why) => throw (.report why.message)
  | .error e => throw (.failure e)

def readText (inputs : Inputs) (name : String) : Loading (List Char) := do
  match inputs.file name with
  | some text => return fileText text
  | none => throw (.report (missingFile name))

/-- Reads all that a run needs. The names that conditional assembly knows after one file are known
in the next one. -/
def load (o : Options) (inputs : Inputs) : Loading Loaded := do
  let (assembly, defines) ←
    if o.file == "-" then
      command (File.read "<stdin>" (unifyNewlines inputs.stdin) o.gotoPatterns o.defines)
    else do
      let text ← readText inputs o.file
      command (File.read o.file text o.gotoPatterns o.defines)
  let (assembly, _) ← o.rodataFiles.foldlM (fun (assembly, defines) name => do
    let text ← readText inputs name
    let (more, defines) ← command (File.read name text o.gotoPatterns defines)
    return ({ assembly with rodata := assembly.rodata.merge more.rodata }, defines))
    (assembly, defines)
  let context ← match o.context with
    | some name => do
      let text ← readText inputs name
      some <$> command (liftM (C.readContext text))
    | none => pure none
  return ⟨assembly, context⟩

def decompileFunction (o : Options) (f : Function) : Evaluation Unit := do
  if o.printAssembly then printOut (f.text ++ "\n\n")
  let s ← get
  let (graph, console) := (Flow.Graph.ofBody s.rodata f.body).run.run s.console
  modify fun s => { s with console := console }
  let graph ← graph
  let returnType ← evalFunction o f.name graph
  printOut ((← Structure.functionText o f.name graph returnType) ++ "\n")

structure State where
  console : Console
  context : Option C.TypeMap

abbrev Run := ExceptT Failure (StateM State)

def print (text : String) : Run Unit :=
  modify fun s => { s with console := s.console.print text }

def warn (text : String) : Run Unit :=
  modify fun s => { s with console := s.console.warn text }

def decompile (o : Options) (rodata : Rodata) (f : Function) : Run (Except Failure Unit) := do
  let s ← get
  let start : Session := {
    console := s.console
    types := { context := s.context }
    rodata := rodata }
  let (result, session) := (decompileFunction o f).run.run start
  set ({ console := session.console, context := session.types.context } : State)
  return result

def rejectionReport (name message : String) : String :=
  "Failed to decompile function " ++ name ++ ":\n\n" ++ message ++ "\n"

def decompileAll (o : Options) (file : File) : Run Nat := do
  let failed ← file.functions.zipIdx.foldlM (fun failed (f, i) => do
    if i != 0 then print "\n"
    match ← decompile o file.rodata f with
    | .ok () => return failed
    | .error (.rejected why) =>
      print (rejectionReport f.name why.message)
      return true
    | .error e =>
      print ("Internal error while decompiling function " ++ f.name ++ ":\n\n")
      warn ("[traceback " ++ e.kind ++ "]\n")
      return true) false
  return if failed then 1 else 0

def chosen (file : File) (which : String) : Except String Function :=
  match Integer.readDecimal? which.toList with
  | some index =>
    let count := file.functions.length
    match (if index < 0 then none else file.functions[index.toNat]?) with
    | some f => pure f
    | none =>
      throw ("Function index " ++ toString index ++ " is out of bounds (must be between 0 and " ++
        toString ((count : Int) - 1) ++ ").\n")
  | none =>
    match file.functions.find? fun f => f.name == which with
    | some f => pure f
    | none => throw ("Function " ++ which ++ " not found.\n")

def decompileOne (o : Options) (file : File) (which : String) : Run Nat := do
  match chosen file which with
  | .error message =>
    warn message
    return 1
  | .ok f =>
    match ← decompile o file.rodata f with
    | .ok () => return 0
    | .error (.rejected why) =>
      print (rejectionReport f.name why.message)
      return 1
    | .error e => throw e

def printDeclarations : Run Nat := do
  match (← get).context with
  | none => throw (.broken "")
  | some m =>
    let (listing, _) := C.listing.run.run m
    print (← listing)
    return 0

def runLoaded (o : Options) (loaded : Loaded) : Run Nat :=
  if o.dumpTypes then printDeclarations
  else
    match o.function with
    | none => decompileAll o loaded.assembly
    | some which => decompileOne o loaded.assembly which

def run (o : Options) (inputs : Inputs) : Except Failure Nat × Console :=
  match (load o inputs).run.run {} with
  | (.error (.report message), console) => (.ok 1, console.print (message ++ "\n"))
  | (.error (.failure e), console) => (.error e, console)
  | (.ok loaded, console) =>
    let (result, s) := (runLoaded o loaded).run.run ⟨console, loaded.context⟩
    (result, s.console)

end Program

end Decompiler
