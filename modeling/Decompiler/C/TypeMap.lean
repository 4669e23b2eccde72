import Decompiler.C.Constant

/-!
# What C declarations say

The types of variables and functions, the layouts of aggregates and the values of enumerators. An
aggregate is laid out when it is first needed.
-/

namespace Decompiler.C

structure Field where
  type : CType
  size : Int
  name : String
  deriving Inhabited

/-- The layout of an aggregate: its members by offset. -/
structure Layout where
  fields : Table Int (List Field)
  size : Int
  align : Int
  deriving Inhabited

structure Parameter where
  type : CType
  name : Option String
  deriving Inhabited

structure Signature where
  result : Option CType
  params : Option (List Parameter)
  isVariadic : Bool
  deriving Inhabited

/-- What the declarations of a text say. -/
structure TypeMap where
  typedefs : Table String CType := .empty
  globals : Table String CType := .empty
  functions : Table String Signature := .empty
  aggregates : Table String Layout := .empty
  anonymous : Table Nat Layout := .empty
  enumerators : Table String Int := .empty
  nameless : List Nat := []
  depth : Nat := 0
  deriving Inhabited

abbrev Typing := ExceptT Failure (StateM TypeMap)

namespace CType

def alias? : CType → Option String
  | .named _ _ _ (.words [name]) => some name
  | _ => none

def resolveFrom (typedefs : Table String CType) : Nat → CType → Except Failure CType
  | 0, _ => throw .endless
  | bound + 1, t =>
    match t.alias?.bind typedefs.get? with
    | some t => resolveFrom typedefs bound t
    | none => pure t

def resolve (t : CType) (m : TypeMap) : Except Failure CType :=
  t.resolveFrom m.typedefs (m.typedefs.entries.length + 1)

def ofKeyword (name : String) : CType :=
  .named 0 none [] (.words [name])

/-- The type of a value of the given type: an array or a function is passed as a pointer, and an
enumeration as an integer. -/
def decay (t : CType) (m : TypeMap) : Except Failure CType := do
  match ← t.resolve m with
  | .array element _ _ => return .pointer [] element
  | .function _ _ => return .pointer [] t
  | .named _ _ _ (.enumeration _ _) => return ofKeyword "int"
  | _ => return t

def deref (t : CType) (m : TypeMap) : Except Failure CType := do
  match ← t.resolve m with
  | .array element _ _ => return element
  | .pointer _ target => return target
  | _ => throw (.broken "dereferencing non-pointer")

def isVoid : CType → Bool
  | .named _ _ _ (.words ["void"]) => true
  | _ => false

def isAggregate (t : CType) (m : TypeMap) : Except Failure Bool := do
  match ← t.resolve m with
  | .named _ _ _ (.aggregate _ _ _ _) => return true
  | _ => return false

def words? (t : CType) (m : TypeMap) : Except Failure (Option (List String)) := do
  match ← t.resolve m with
  | .named _ _ _ (.enumeration _ _) => return some ["int"]
  | .named _ _ _ (.words names) => return some names
  | _ => return none

def unnamed : CType → CType
  | .named decl _ quals base => .named decl none quals base
  | .pointer quals t => .pointer quals t.unnamed
  | .array t size quals => .array t.unnamed size quals
  | .function ps t => .function ps t.unnamed
  | .bare base => .bare base

end CType

def wordsSize (names : List String) : Int :=
  if names.contains "double" then 8
  else if names.contains "float" then 4
  else if names.contains "short" then 2
  else if names.contains "char" then 1
  else if names.contains "void" then 0
  else if names.count "long" == 2 then 8
  else 4

namespace TypeMap

def layout? (m : TypeMap) (name : Option String) (id : Nat) : Option Layout :=
  match name with
  | some name => m.aggregates.get? name
  | none => m.anonymous.get? id

def addLayout (m : TypeMap) (name : Option String) (id : Nat) (l : Layout) : TypeMap :=
  match name with
  | some name => { m with aggregates := m.aggregates.insert name l }
  | none => { m with anonymous := m.anonymous.insert id l }

end TypeMap

def typeText (t : CType) : Typing String := do
  let m ← get
  let text := t.text m.nameless
  match t, t.decl? with
  | .named _ _ _ (.aggregate _ _ _ _), _ => pure ()
  | .named _ _ _ (.enumeration _ _), _ => pure ()
  | _, some decl =>
    if !m.nameless.contains decl then set { m with nameless := decl :: m.nameless }
  | _, none => pure ()
  return text

end Decompiler.C
