import Decompiler.C.Comment
import Decompiler.C.Grammar.Unit
import Decompiler.C.Layout

/-!
# Contexts

A context is a C text with the declarations that a function may use. Reading it gives what its
declarations say; some names for types are always there.
-/

namespace Decompiler.C

def builtinTypes : String :=
  " ".intercalate <| [("unsigned char", "u8"), ("char", "s8"), ("unsigned short", "u16"),
    ("short", "s16"), ("unsigned int", "u32"), ("int", "s32"), ("unsigned long long", "u64"),
    ("long long", "s64"), ("float", "f32"), ("double", "f64")].map fun (type, name) =>
      "typedef " ++ type ++ " " ++ name ++ ";"

def signatureParams (fn : CType) (nameless : List Nat) :
    List Param → Except Failure (List Parameter × Bool × Bool)
  | [] => pure ([], false, false)
  | p :: ps =>
    let rest := signatureParams fn nameless ps
    match p with
    | .ellipsis => do
      let (params, _, hasVoid) ← rest
      return (params, true, hasVoid)
    | .declared d => do
      let (params, isVariadic, hasVoid) ← rest
      return (⟨d.type, d.name⟩ :: params, isVariadic, hasVoid)
    | .identifier _ => reject (.untypedParameters (fn.textWith nameless 0 []))
    | .abstract t => do
      let (params, isVariadic, hasVoid) ← rest
      if t.isVoid then return (params, isVariadic, true)
      else return (⟨t, none⟩ :: params, isVariadic, hasVoid)
    | .alias _ => throw (.broken "")

/-- The signature of a function type. Without any parameters, `void` or an ellipsis, the parameters
are not declared. -/
def signature (fn : CType) (nameless : List Nat) (params : Option (List Param)) (result : CType) :
    Except Failure Signature := do
  let (ps, isVariadic, hasVoid) ← signatureParams fn nameless (params.getD [])
  let undeclared := ps.isEmpty && !hasVoid && !isVariadic
  return {
    result := if result.isVoid then none else some result
    params := if undeclared then none else some ps
    isVariadic := isVariadic }

def CType.signature? (t : CType) (nameless : List Nat) : Option (Except Failure Signature) :=
  match t with
  | .function params result => some (signature t nameless params result)
  | _ => none

/-- The type of a variable: that of its declaration, where the parameters of a function lose their
names. -/
def globalType (d : Decl) : CType :=
  match d.type with
  | .function (some ps) result =>
    .function (some (ps.map fun
      | .declared p => .abstract p.type.unnamed
      | p => p)) result
  | t => t

/-- Takes in the name of a type, or the signature of a function. -/
def collect (e : External) : Typing Unit := do
  let addSignature (d : Decl) (s : Except Failure Signature) : Typing Unit := do
    expect d.name.isSome "cannot define anonymous function"
    let s ← s
    modify fun m => { m with functions := m.functions.insert (d.name.getD "") s }
  match e with
  | .alias name t => modify fun m => { m with typedefs := m.typedefs.insert (name.getD "") t }
  | .declaration d =>
    match d.type.signature? (← get).nameless with
    | some s => addSignature d s
    | none => pure ()
  | .definition d =>
    match d.type.signature? (← get).nameless with
    | some s => addSignature d s
    | none => throw (.broken "")

def addVariable (d : Decl) : Typing Unit := do
  match d.name with
  | some name => modify fun m => { m with globals := m.globals.insert name (globalType d) }
  | none => pure ()

mutual

/-- Lays out the aggregates and computes the enumerators that a type defines. The parameters within
count as variables. -/
def CType.visit : CType → Typing Unit
  | .named _ _ _ base => base.visit
  | .pointer _ t => t.visit
  | .array t none _ => t.visit
  | .array t (some e) _ => do
    t.visit
    e.visit
  | .function none t => t.visit
  | .function (some ps) t => do
    Param.visitAll ps
    t.visit
  | .bare base => base.visit

def Base.visit : Base → Typing Unit
  | .words _ => pure ()
  | .aggregate kind tag id (some members) =>
    discard (layOutAggregate kind tag id (some members))
  | .aggregate _ _ _ none => pure ()
  | .enumeration _ values => enumerate values

def Decl.visit : Decl → Typing Unit
  | .mk name storage specs (.function ps t) bits =>
    addVariable (.mk name storage specs (.function ps t) bits)
  | .mk name storage specs type bits => do
    addVariable (.mk name storage specs type bits)
    type.visit

def Param.visitAll : List Param → Typing Unit
  | [] => pure ()
  | .declared d :: ps => do
    d.visit
    Param.visitAll ps
  | .abstract t :: ps => do
    t.visit
    Param.visitAll ps
  | .alias d :: ps => do
    d.visitType
    Param.visitAll ps
  | _ :: ps => Param.visitAll ps

def Decl.visitType : Decl → Typing Unit
  | .mk _ _ _ type _ => type.visit

def Expr.visit : Expr → Typing Unit
  | .constant _ => pure ()
  | .ident _ => pure ()
  | .unary _ e => e.visit
  | .stepped _ e => e.visit
  | .sizeOf e => e.visit
  | .binary _ l r => do
    l.visit
    r.visit
  | .ternary c a b => do
    c.visit
    a.visit
    b.visit
  | .assign _ l r => do
    l.visit
    r.visit
  | .sequence es => Expr.visitAll es
  | .cast t e => do
    t.visit
    e.visit
  | .call f none => f.visit
  | .call f (some args) => do
    f.visit
    Expr.visitAll args
  | .index a i => do
    a.visit
    i.visit
  | .member e _ f => do
    e.visit
    f.visit
  | .compound t es => do
    t.visit
    Expr.visitAll es
  | .type t => t.visit
  | .braces es => Expr.visitAll es
  | .designated path e => do
    e.visit
    Expr.visitAll path

def Expr.visitAll : List Expr → Typing Unit
  | [] => pure ()
  | e :: es => do
    e.visit
    Expr.visitAll es

end

def External.visit : External → Typing Unit
  | .alias _ t => t.visit
  | .declaration d => d.visit
  | .definition d => addVariable d

def readContext (text : List Char) : Except Failure TypeMap := do
  let text := Comment.strip (builtinTypes.toList ++ '\n' :: text)
  let externals ← parseText text
  let build : Typing Unit := do
    externals.forM collect
    externals.forM External.visit
  let (result, m) := build.run.run { depth := text.length }
  result
  return m

def signatureText (s : Signature) : Typing String := do
  let params ← match s.params with
    | none => pure ""
    | some ps => do
      let texts ← ps.mapM fun p => typeText p.type
      let texts := if s.isVariadic then texts ++ ["..."] else texts
      pure (if texts.isEmpty then "void" else ", ".intercalate texts)
  let result ← match s.result with
    | none => pure "void"
    | some t => typeText t
  return result ++ "(" ++ params ++ ")"

def fieldsText (offset : Int) (fields : List Field) : Typing String := do
  let texts ← fields.mapM fun f => do return " " ++ f.name ++ " (" ++ (← typeText f.type) ++ ")"
  return "  " ++ Integer.hex offset ++ ":" ++ String.join texts ++ "\n"

def listing : Typing String := do
  let m ← get
  let globals ← m.globals.entries.mapM fun (name, t) => do
    return name ++ ": " ++ (← typeText t) ++ "\n"
  let functions ← m.functions.entries.mapM fun (name, s) => do
    return name ++ ": " ++ (← signatureText s) ++ "\n"
  let aggregates ← m.aggregates.entries.mapM fun (name, l) => do
    let fields ← l.fields.entries.mapM fun (offset, fs) => fieldsText offset fs
    return name ++ ": size " ++ toString l.size ++ ", align " ++ toString l.align ++ "\n" ++
      String.join fields
  let enumerators := m.enumerators.entries.map fun (name, n) => name ++ ": " ++ toString n ++ "\n"
  return "Variables:\n" ++ String.join globals ++ "\nFunctions:\n" ++ String.join functions ++
    "\nStructs:\n" ++ String.join aggregates ++ "\nEnums:\n" ++ String.join enumerators ++ "\n"

end Decompiler.C
