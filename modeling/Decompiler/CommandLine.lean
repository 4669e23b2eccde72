import Decompiler.Options
import Decompiler.Text.Blank
import Decompiler.Text.Digit

/-!
# The command line

Arguments are first sorted into flags and values, and then taken from the left. A long flag may be
shortened as long as it stays unambiguous, and its value may follow an equals sign; the value of a
short flag may follow it directly.
-/

namespace Decompiler.CommandLine

inductive Exit where
  | usage
  | help
  deriving DecidableEq

def Exit.status : Exit → Nat
  | .usage => 2
  | .help => 0

/-- What a flag asks for. -/
inductive Flag where
  | help
  | debug
  | void
  | noIfs
  | noAndOr
  | noCasts
  | goto
  | rodata
  | stopOnError
  | printAssembly
  | visualize
  | allman
  | define
  | undefine
  | context
  | dumpTypes
  | breakOnError
  deriving DecidableEq

namespace Flag

def names : List (String × Flag) :=
  [("-h", .help), ("--help", .help), ("--debug", .debug), ("--void", .void),
   ("--no-ifs", .noIfs), ("--no-andor", .noAndOr), ("--no-casts", .noCasts), ("--goto", .goto),
   ("--rodata", .rodata), ("--stop-on-error", .stopOnError),
   ("--print-assembly", .printAssembly), ("--visualize", .visualize), ("--allman", .allman),
   ("-D", .define), ("-U", .undefine), ("--context", .context), ("--dump-typemap", .dumpTypes),
   ("--pdb-translate", .breakOnError)]

def takesValue (f : Flag) : Bool :=
  [.goto, .rodata, .define, .undefine, .context].contains f

end Flag

inductive Word where
  | plain (text : String)
  | separator
  | flag (f : Flag) (long : Bool) (value : Option String)
  | unknown
  deriving DecidableEq

def isNegativeNumber : List Char → Bool
  | '-' :: cs =>
    let isDigit (c : Char) : Bool := (Text.digitValue? c).isSome
    match cs.dropWhile isDigit with
    | [] => !cs.isEmpty
    | '.' :: ds => !ds.isEmpty && ds.all isDigit
    | _ => false
  | _ => false

/-- The flags that an argument may stand for, each with the value that the argument gives it. -/
def candidates (arg : List Char) : List Word :=
  match arg with
  | '-' :: '-' :: _ =>
    let (name, rest) := arg.span (· != '=')
    let value := match rest with
      | '=' :: v => some (String.ofList v)
      | _ => none
    (Flag.names.filter fun (n, _) => name.isPrefixOf n.toList).map fun (_, f) =>
      .flag f true value
  | '-' :: c :: v =>
    (Flag.names.filter fun (n, _) => n.toList == ['-', c]).map fun (_, f) =>
      .flag f false (some (String.ofList v))
  | _ => []

def wholeFlag? (arg : List Char) : Option Word :=
  let isLong := "--".toList.isPrefixOf arg
  let named? (name : List Char) : Option Flag := Flag.names.lookup (String.ofList name)
  match named? arg with
  | some f => some (.flag f isLong none)
  | none =>
    match arg.span (· != '=') with
    | (name, '=' :: v) => (named? name).map fun f => .flag f isLong (some (String.ofList v))
    | _ => none

/-- The role of an argument in front of a separator. -/
def classify (text : String) : Except Exit Word :=
  let arg := text.toList
  if arg.head? != some '-' || arg == ['-'] then pure (.plain text)
  else
    match wholeFlag? arg, candidates arg with
    | some w, _ => pure w
    | none, [w] => pure w
    | none, [] =>
      if isNegativeNumber arg || arg.contains ' ' then pure (.plain text) else pure .unknown
    | none, _ => throw .usage

def classifyAll : List String → Except Exit (List Word)
  | [] => pure []
  | "--" :: args => pure (.separator :: args.map .plain)
  | arg :: args => do
    let w ← classify arg
    return w :: (← classifyAll args)

/-- How far the file and the function have been taken. -/
inductive Place where
  | beforeFile
  | afterFile
  | afterFunction
  | closed
  deriving DecidableEq

structure Taken where
  options : Options
  place : Place := .beforeFile
  surplus : Bool := false
  defined : List String := []
  undefined : List String := []

namespace Taken

def flag (t : Taken) (f : Flag) (value : String) : Taken :=
  let o := t.options
  match f with
  | .debug => { t with options := { o with debug := true } }
  | .void => { t with options := { o with void := true } }
  | .noIfs => { t with options := { o with structured := false } }
  | .noAndOr => { t with options := { o with andOr := false } }
  | .noCasts => { t with options := { o with skipCasts := true } }
  | .goto => { t with options := { o with gotoPatterns := o.gotoPatterns ++ [value] } }
  | .rodata => { t with options := { o with rodataFiles := o.rodataFiles ++ [value] } }
  | .stopOnError => { t with options := { o with stopOnError := true } }
  | .printAssembly => { t with options := { o with printAssembly := true } }
  | .allman => { t with options := { o with allman := true } }
  | .define => { t with defined := t.defined ++ [value] }
  | .undefine => { t with undefined := t.undefined ++ [value] }
  | .context => { t with options := { o with context := some value } }
  | .dumpTypes => { t with options := { o with dumpTypes := true } }
  | .help | .visualize | .breakOnError => t

def plain (t : Taken) (text : String) : Taken :=
  match t.place with
  | .beforeFile => { t with place := .afterFile, options := { t.options with file := text } }
  | .afterFile =>
    let function := if text == "--" then none else some text
    { t with place := .afterFunction, options := { t.options with function := function } }
  | .afterFunction | .closed => { t with surplus := true }

/-- Closes the place of the function once a flag stands behind the file. -/
def close (t : Taken) : Taken :=
  if t.place == .beforeFile then t else { t with place := .closed }

/-- The options, if every argument had a place and there is a file. The function `all` stands for
all functions, and a name that is both set and unset is set. -/
def finish (t : Taken) : Except Exit Options :=
  if t.surplus || t.place == .beforeFile then throw .usage
  else
    let name (d : String) : String := String.ofList (d.toList.takeWhile (· != '='))
    let unset := t.undefined.map fun d => (d, 0)
    let set := t.defined.map fun d => (name d, 1)
    let function := if t.options.function == some "all" then none else t.options.function
    pure { t.options with function := function, defines := .ofList (unset ++ set) }

end Taken

/-- Whether the letters joined to a short flag for help are short flags themselves; the last one
may need a value, which `more` says is there. -/
def joinedFlags (more : Bool) : List Char → Bool
  | [] => true
  | 'h' :: cs => joinedFlags more cs
  | 'D' :: cs => !cs.isEmpty || more
  | 'U' :: cs => !cs.isEmpty || more
  | _ => false

def take (t : Taken) : List Word → Except Exit Options
  | [] => t.finish
  | .plain text :: ws => take (t.plain text) ws
  | .separator :: ws => take (if t.place == .closed then { t with surplus := true } else t) ws
  | .unknown :: ws => take { t.close with surplus := true } ws
  | .flag .help _ none :: _ => throw .help
  | .flag .help long (some v) :: ws =>
    let more := match ws with
      | .plain _ :: _ => true
      | _ => false
    throw (if !long && v != "" && joinedFlags more v.toList then .help else .usage)
  | .flag f _ (some v) :: ws =>
    if f.takesValue then take (t.close.flag f v) ws else throw .usage
  | .flag f _ none :: .plain v :: ws =>
    if f.takesValue then take (t.close.flag f v) ws else take ((t.close.flag f "").plain v) ws
  | .flag f _ none :: ws =>
    if f.takesValue then throw .usage else take (t.close.flag f "") ws

def parse (args : List String) : Except Exit Options := do
  take { options := { file := "" } } (← classifyAll args)

end Decompiler.CommandLine
