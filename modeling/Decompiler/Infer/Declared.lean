import Decompiler.C.Layout
import Decompiler.Infer.Unify

/-!
# Inferred and declared types

How inferred types are written in C, and what the declarations of a context say about the values
that a pointer leads to.
-/

namespace Decompiler.Infer

/-- The inferred types and the declarations of a context, if there is one. -/
structure Types where
  store : TypeStore := {}
  context : Option C.TypeMap := none
  deriving Inhabited

abbrev Inference := ExceptT Failure (StateM Types)

def fresh (n : TypeNode) : Inference TypeId :=
  modifyGet fun s =>
    let (t, store) := s.store.add n
    (t, { s with store := store })

def known (t : TypeId) : Inference TypeNode := do
  return (← get).store.known t

/-- Makes two types equal, and says whether that was possible. -/
def unify (a b : TypeId) : Inference Bool := do
  let (unified, store) ← (← get).store.unify a b
  modify fun s => { s with store := store }
  return unified

def declared {α : Type} (step : C.Typing α) : Inference α := do
  let (result, map) := step.run.run ((← get).context.getD {})
  modify fun s => { s with context := s.context.map fun _ => map }
  result

/-- The text of a type; the first argument bounds how deep pointers are followed. -/
def typeTextFrom : Nat → TypeId → Inference String
  | 0, _ => throw .endless
  | fuel + 1, t => do
    let n ← known t
    let size := toString ((← get).store.sizeBits t)
    if n.kinds == .all then
      return if n.size.isSome then "?" ++ size else "?"
    if n.kinds == .onlyPtr then
      match n.target with
      | some (.type target) =>
        return ((← typeTextFrom fuel target) ++ " *").replace "* *" "**"
      | some (.declared target) => return ← declared (C.typeText (.pointer [] target))
      | none => return "void *"
    if n.kinds == .onlyFloat then return "f" ++ size
    return (if n.signs.signed then "s" else "u") ++ size

def typeText (t : TypeId) : Inference String := do
  typeTextFrom ((← get).store.nodes.size + 1) t

def declaration (t : TypeId) (name : String) : Inference String := do
  let text ← typeText t
  return (if text.endsWith "*" then text else text ++ " ") ++ name

def summary (t : TypeId) : Inference String := do
  let n ← known t
  return "Type(" ++
    (if n.signs.signed then "+" else "") ++ (if n.signs.unsigned then "-" else "") ++
    (if n.kinds.int then "I" else "") ++ (if n.kinds.ptr then "P" else "") ++
    (if n.kinds.float then "F" else "") ++
    (match n.size with
    | some size => toString size
    | none => "?") ++ ")"

def TypeNode.ofDeclared (t : C.CType) (m : C.TypeMap) : Except Failure TypeNode := do
  match ← t.resolve m with
  | .pointer _ target => return .pointer (some (.declared target))
  | .array element _ _ => return .pointer (some (.declared element))
  | .function params result => return .pointer (some (.declared (.function params result)))
  | .named _ _ _ (.aggregate _ _ _ _) => return .any
  | .named _ _ _ (.enumeration _ _) => return .signed 32
  | .named _ _ _ (.words names) | .bare (.words names) =>
    if names.contains "double" then return .double
    if names.contains "float" then return .single
    let size := 8 * (C.wordsSize names).toNat
    if size == 0 then return .any
    return if names.contains "unsigned" then .unsigned size else .signed size
  | .bare _ => return .any

def ofDeclared (t : C.CType) : Inference TypeId := do
  fresh (← TypeNode.ofDeclared t ((← get).context.getD {}))

/-- The type of a pointer to a variable of a declared type, and whether the variable's name is
already a pointer: that of an array or a function is. -/
def pointerToDeclared (t : C.CType) : Inference (TypeId × Bool) := do
  match ← t.resolve ((← get).context.getD {}) with
  | .array element _ _ => return (← fresh (.pointer (some (.declared element))), true)
  | .function params result =>
    return (← fresh (.pointer (some (.declared (.function params result)))), true)
  | _ => return (← fresh (.pointer (some (.declared t))), false)

def pointerTarget? (t : TypeId) : Inference (Option (Int × TypeId)) := do
  match (← known t).target with
  | none => return none
  | some (.type target) =>
    match ((← get).store.node target).size with
    | none => return none
    | some size => return some (size / 8, target)
  | some (.declared target) =>
    if (← get).context.isNone then return none
    let (size, align) ← declared (C.variableExtent target)
    if align == 0 then return none
    return some (size, ← ofDeclared target)

/-- What lies at an offset from a pointer. -/
structure FieldType where
  name : Option String
  type : TypeId
  pointer : TypeId
  isArray : Bool

def targetLayout? (t : TypeId) : Inference (Option C.Layout) := do
  match (← known t).target with
  | some (.declared target) =>
    let m := (← get).context.getD {}
    match ← target.resolve m with
    | .named _ _ _ (.aggregate _ tag id _) => return m.layout? tag id
    | _ => return none
  | _ => return none

def innermost : List C.Field → Option C.Field
  | [] => none
  | [f] => some f
  | f :: g :: fs => if g.name.startsWith (f.name ++ ".") then innermost (g :: fs) else some f

/-- Of the members at one offset, the one that is meant: the outermost if the size is not known,
and else the only one of that size, or the innermost of the first. -/
def chooseField (fields : List C.Field) (size : Option Int) : Option C.Field :=
  match size with
  | none => fields.head?
  | some size =>
    match fields.filter fun f => f.size == size with
    | [f] => some f
    | _ => innermost fields

/-- What lies at an offset from a pointer; the size is not known if only the address is taken. -/
def fieldAt (t : TypeId) (offset : Int) (size : Option Int) : Inference FieldType := do
  if size.isNone && offset == 0 then
    let type ← match ← pointerTarget? t with
      | some (_, target) => pure target
      | none => fresh .any
    return ⟨none, type, t, false⟩
  match (← targetLayout? t).bind fun l => (l.fields.get? offset).bind (chooseField · size) with
  | some f =>
    let type ← ofDeclared f.type
    let (pointer, isArray) ← pointerToDeclared f.type
    return ⟨some f.name, type, pointer, isArray⟩
  | none => return ⟨none, ← fresh .any, ← fresh .pointer, false⟩

def firstArray (scale : Int) : List C.Field → C.Typing (Option (String × C.CType))
  | [] => return none
  | f :: fs => do
    match ← f.type.resolve (← get) with
    | .array element _ _ =>
      let (size, _) ← C.variableExtent element
      if size == scale then return some (f.name, element) else firstArray scale fs
    | _ => firstArray scale fs

/-- The array within an aggregate that a multiple of its element size is added to: its name, offset
and element type. -/
def arrayWithin (t : TypeId) (offset scale : Int) :
    Inference (Option (String × Int × C.CType)) := do
  if scale ≤ 0 then return none
  match ← targetLayout? t with
  | none => return none
  | some l =>
    match (l.fields.keys.filter (· ≤ offset)).max? with
    | none => return none
    | some start =>
      match ← declared (firstArray scale ((l.fields.get? start).getD [])) with
      | some (name, element) => return some (name, start, element)
      | none => return none

end Decompiler.Infer
