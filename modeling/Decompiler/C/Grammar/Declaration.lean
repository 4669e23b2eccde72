import Decompiler.C.Grammar.Expression

/-!
# Declarations
-/

namespace Decompiler.C.Declaration

open Read

def qualifierList : Read (List String) := do
  loop (fun qs => do
    let t ← peek
    if t.isOneOf qualifiers then
      discard next
      return (qs ++ [t.text], true)
    else return (qs, false)) (← bound) []

/-! ## Declarators -/

/-- The size of an array behind its opening bracket and qualifiers, up to the closing one. A lone
star counts as a name. -/
def arraySize (go : Reader) : Read (Option Expr) := do
  if ← accept "]" then return none
  if ← accept "*" then
    if ← accept "]" then return some (.ident "*")
    let first := Expr.unary "*" (← go .cast).1
    let e ← Expression.assignmentFrom go first true
    require "]"
    return some e
  let e ← go .assignment
  require "]"
  return some e

def arraySuffix (go : Reader) : Read Modifier := do
  if ← accept "static" then
    let qs ← qualifierList
    let e ← go .assignment
    require "]"
    return .array (some e) ("static" :: qs)
  let qs ← qualifierList
  if !qs.isEmpty then
    if ← accept "static" then
      let e ← go .assignment
      require "]"
      return .array (some e) (qs ++ ["static"])
  return .array (← arraySize go) qs

def paramName? : Param → Option String
  | .declared d => d.name
  | .alias d => d.name
  | .identifier name => some name
  | _ => none

def declareParams : List Param → Read Unit
  | [] => pure ()
  | .ellipsis :: _ => pure ()
  | p :: ps => do
    match paramName? p with
    | some name => declare name false ""
    | none => pure ()
    declareParams ps

def functionSuffix (go : Reader) : Read Modifier := do
  let t ← peek
  let params ←
    if t.is ")" then pure none
    else if t.kind == .name then some <$> loop (fun ps => do
      let name ← take .name
      return (ps ++ [Param.identifier name.text], ← accept ",")) (← bound) []
    else if t.startsDeclaration then some <$> go .parameters
    else unexpected
  require ")"
  if (← peek).is "\x7b" then declareParams (params.getD [])
  return .function params

def namedSuffixes (go : Reader) (d : Declarator) : Read Declarator := do
  loop (fun d => do
    if ← accept "[" then
      let m ← arraySuffix go
      return ({ d with modifiers := d.modifiers ++ [m] }, true)
    else if ← accept "(" then
      let m ← functionSuffix go
      return ({ d with modifiers := d.modifiers ++ [m] }, true)
    else return (d, false)) (← bound) d

def abstractFunction (go : Reader) : Read Modifier := do
  let params ← if (← peek).is ")" then pure none else
    if (← peek).startsDeclaration then some <$> go .parameters else unexpected
  require ")"
  return .function params

def abstractSuffixes (go : Reader) (d : Declarator) : Read Declarator := do
  loop (fun d => do
    if ← accept "[" then
      let size ← arraySize go
      return ({ d with modifiers := d.modifiers ++ [.array size []] }, true)
    else if ← accept "(" then
      let m ← abstractFunction go
      return ({ d with modifiers := d.modifiers ++ [m] }, true)
    else return (d, false)) (← bound) d

def stars : Read (List (List String × String)) := do
  loop (fun ss => do
    let t ← peek
    if t.is "*" then
      discard next
      let place ← placeOf t
      let qs ← qualifierList
      return (ss ++ [(qs, place)], true)
    else return (ss, false)) (← bound) []

/-- A declarator without the stars in front of it; `starred` says that there are some. -/
def directDeclarator (go : Reader) (mode : DeclaratorMode) (starred : Bool) : Read Declarator := do
  let t ← peek
  if (t.kind == .name && mode.allowsName) ||
      (t.kind == .typeName && mode.allowsTypeName) then
    discard next
    namedSuffixes go
      { name := some t.text, isTypeName := t.kind == .typeName, place := ← placeOf t }
  else if t.is "(" then
    discard next
    let t ← peek
    let isParameters := t.is ")" ||
      (t.startsDeclaration && !(mode == .member && t.kind == .typeName))
    if mode.allowsNone && isParameters then
      abstractSuffixes go { modifiers := [← abstractFunction go], place := ← placeOf t }
    else
      let d ← go (.declarator mode.inParentheses)
      require ")"
      if d.name.isSome then namedSuffixes go d else abstractSuffixes go d
  else if t.is "[" && mode.allowsNone then
    discard next
    let qs ← qualifierList
    let size ← arraySize go
    abstractSuffixes go { modifiers := [.array size qs], place := ← placeOf t }
  else if starred && mode.allowsNone then return { place := ← placeOf t }
  else if mode == .parameter || mode == .abstract then return { place := ← placeOf t }
  else unexpected

def declarator (go : Reader) (mode : DeclaratorMode) : Read Declarator := do
  let ss ← stars
  let d ← directDeclarator go mode (!ss.isEmpty)
  let place := if d.modifiers.isEmpty then (ss.getLast?.map Prod.snd).getD d.place else d.place
  return { d with
    modifiers := d.modifiers ++ ss.reverse.map fun (qs, _) => .pointer qs
    place := place }

/-! ## Types -/

def modify (leaf : CType) (ms : List Modifier) : CType :=
  ms.foldr (fun m t =>
    match m with
    | .pointer qs => .pointer qs t
    | .array size qs => .array t size qs
    | .function ps => .function ps t) leaf

def baseOf (types : List Specifier) (isFunction : Bool) (place : String) : Read Base := do
  match types.find? fun s => s.names?.isNone with
  | some s =>
    if types.length == 1 then return s.base
    else failAt s.place "Invalid multiple types specified"
  | none =>
    if types.isEmpty then
      if isFunction then return .words ["int"]
      else failAt place "Missing type in declaration"
    else return .words (types.flatMap fun s => s.names?.getD [])

def typeOf (spec : Specifiers) (d : Declarator) : Read CType := do
  let isFunction := match d.modifiers with
    | .function _ :: _ => true
    | _ => false
  let base ← baseOf spec.types isFunction d.place
  return modify (.named (← fresh) d.name spec.quals base) d.modifiers

def declOf (spec : Specifiers) (d : Declarator) (bits : Option Expr) : Read Decl := do
  return .mk d.name spec.storage spec.functions (← typeOf spec d) bits

def typeNameFrom (go : Reader) (spec : Specifiers) : Read CType := do
  typeOf spec (← go (.declarator .abstract))

/-! ## Specifiers -/

def keywordType (t : Token) : Read Specifier := do
  return ⟨.words [t.text], ← placeOf t⟩

def memberSpecifiers (go : Reader) : Read Specifiers := do
  let qs ← qualifierList
  if !(← peek).startsBase then unexpected
  let first ← go .baseType
  loop (fun (spec : Specifiers) => do
    let t ← peek
    if t.isOneOf typeKeywords then
      discard next
      return ({ spec with types := spec.types ++ [← keywordType t] }, true)
    else if t.isOneOf qualifiers then
      discard next
      return ({ spec with quals := spec.quals ++ [t.text] }, true)
    else return (spec, false)) (← bound) { quals := qs, types := [first] }

/-- The specifiers of a declaration. Only the first base type can be other than a keyword. -/
def specifiers (go : Reader) : Read Specifiers := do
  loop (fun (spec : Specifiers) => do
    let t ← peek
    if t.isOneOf qualifiers then
      discard next
      return ({ spec with quals := spec.quals ++ [t.text] }, true)
    else if t.isOneOf storageClasses then
      discard next
      return ({ spec with storage := spec.storage ++ [t.text] }, true)
    else if t.isOneOf functionSpecifiers then
      discard next
      return ({ spec with functions := spec.functions ++ [t.text] }, true)
    else if t.isOneOf typeKeywords then
      discard next
      return ({ spec with types := spec.types ++ [← keywordType t] }, true)
    else if t.startsBase && spec.types.isEmpty then
      let s ← go .baseType
      return ({ spec with types := [s] }, true)
    else return (spec, false)) (← bound) {}

def tag? : Read (Option Token) := do
  let t ← peek
  if t.kind == .name || t.kind == .typeName then return some (← next) else return none

/-- The enumerators behind an opening brace, up to the closing one. Each is declared once the token
behind it has been read. -/
def enumerators (go : Reader) : Read (List Enumerator) := do
  loop (fun es => do
    let t ← peek
    if !es.isEmpty && t.is "\x7d" then
      discard next
      return (es, false)
    else if !es.isEmpty && t.is "," then
      discard next
      return (es, true)
    else
      let name ← take .name
      let place ← placeOf name
      let value ← if ← accept "=" then some <$> go .conditional else pure none
      if !(← peek).isOneOf [",", "\x7d"] then unexpected
      declare name.text false place
      let es := es ++ [.mk name.text value]
      if ← accept "," then return (es, true)
      require "\x7d"
      return (es, false)) (← bound) []

def pragma : Read String := do
  discard (take .pragma)
  if (← peek).kind == .pragmaText then return (← next).text else return ""

/-- The name that stands among the types of a member without a declared name, and the types in
front of it. -/
def nameFromTypes (spec : Specifiers) : Read (String × Specifiers) := do
  match spec.types.getLast? with
  | some s =>
    match s.names? with
    | some (name :: _) => return (name, { spec with types := spec.types.dropLast })
    | _ => throw (.failed .missingPart)
  | none => throw (.failed .missingItem)

/-- The first declarator of a member without a bit-field. A declarator without a name takes its
name from the types. -/
def firstMember (spec : Specifiers) (d : Declarator) : Read (Specifiers × Declarator) := do
  if d.name.isSome then return (spec, d)
  else
    let (name, spec) ← nameFromTypes spec
    return (spec, { d with name := some name })

def memberDeclarators (go : Reader) : Read (List (Declarator × Option Expr)) := do
  loop (fun ds => do
    let d : Declarator ←
      if (← peek).is ":" then pure {}
      else go (.declarator (if ds.isEmpty then .member else .any))
    let bits ←
      if d.name.isSome || (← peek).is ":" then
        if ← accept ":" then some <$> go .conditional else pure none
      else pure none
    let ds := ds ++ [(d, bits)]
    if d.name.isNone && bits.isNone then
      if (← peek).is ";" then return (ds, false) else unexpected
    if ← accept "," then return (ds, true)
    if (← peek).is ";" then return (ds, false) else unexpected) (← bound) []

def members (go : Reader) : Read (List Member) := do
  let t ← peek
  if t.is ";" then
    discard next
    return []
  if t.kind == .pragma then return [.pragma (← pragma)]
  if !t.startsTypeName then unexpected
  let spec ← memberSpecifiers go
  let ds ← if (← peek).is ";" then pure [] else memberDeclarators go
  require ";"
  let follows ← peek
  if !(follows.startsTypeName || follows.isOneOf [";", "\x7d"] || follows.kind == .pragma) then
    unexpected
  match ds with
  | [] =>
    match spec.types with
    | [s] =>
      match s.base with
      | .enumeration _ _ => throw (.failed .missingPart)
      | base => return [.field (.mk none spec.storage spec.functions (.bare base) none)]
    | types => failAt ((types.head?.map (·.place)).getD "?") "Invalid declaration"
  | (d, bits) :: rest =>
    let (spec, d) ← if bits.isSome then pure (spec, d) else firstMember spec d
    ((d, bits) :: rest).mapM fun (d, bits) => do
      return .field (← declOf spec d bits)

def memberList (go : Reader) : Read (List Member) := do
  loop (fun ms => do
    if ← accept "\x7d" then return (ms, false)
    return (ms ++ (← members go), true)) (← bound) []

def aggregate (go : Reader) (kind : AggregateKind) : Read Specifier := do
  let id ← fresh
  match ← tag? with
  | some t =>
    let place ← placeOf t
    let ms ← if ← accept "\x7b" then some <$> memberList go else pure none
    return ⟨.aggregate kind (some t.text) id ms, place⟩
  | none =>
    let brace ← peek
    let place ← placeOf { brace with column := 1 }
    require "\x7b"
    return ⟨.aggregate kind none id (some (← memberList go)), place⟩

def enumeration (go : Reader) (t : Token) : Read Specifier := do
  let place ← placeOf t
  match ← tag? with
  | some name =>
    let es ← if ← accept "\x7b" then some <$> enumerators go else pure none
    return ⟨.enumeration (some name.text) es, place⟩
  | none =>
    require "\x7b"
    return ⟨.enumeration none (some (← enumerators go)), place⟩

def baseType (go : Reader) : Read Specifier := do
  let t ← next
  if t.is "struct" then aggregate go .struct
  else if t.is "union" then aggregate go .union
  else if t.is "enum" then enumeration go t
  else keywordType t

/-! ## Parameters -/

def parameter (go : Reader) : Read Param := do
  let spec ← specifiers go
  if spec.types.isEmpty then unexpected
  let d ← go (.declarator .parameter)
  if !(← peek).isOneOf [",", ")"] then unexpected
  match d.name with
  | none => return .abstract (← typeOf spec d)
  | some _ =>
    let decl ← declOf spec d none
    return if spec.storage.contains "typedef" then .alias decl else .declared decl

def parameters (go : Reader) : Read (List Param) := do
  loop (fun ps => do
    if !ps.isEmpty && (← peek).is "..." then
      discard next
      return (ps ++ [.ellipsis], false)
    if !(← peek).startsDeclaration then unexpected
    let p ← parameter go
    return (ps ++ [p], ← accept ",")) (← bound) []

/-! ## Declarations -/

def external (spec : Specifiers) (d : Declarator) : Read External := do
  let isType := spec.storage.contains "typedef"
  let decl ← declOf spec d none
  match d.name with
  | some name => declare name isType d.place
  | none => pure ()
  return if isType then .alias decl.name decl.type else .declaration decl

def tagDeclaration (spec : Specifiers) : Read External := do
  match spec.types with
  | [⟨.words _, place⟩] => failAt place "Invalid declaration"
  | [s] => return .declaration (.mk none spec.storage spec.functions (.bare s.base) none)
  | types => failAt ((types.head?.map (·.place)).getD "?") "Invalid declaration"

def declarationFrom (go : Reader) (spec : Specifiers) (first : Declarator) :
    Read (List External) := do
  let skipInitializer : Read Unit := do
    if ← accept "=" then discard (go .initializer)
  skipInitializer
  let ds ← loop (fun ds => do
    if ← accept "," then
      let d ← go (.declarator .any)
      skipInitializer
      return (ds ++ [d], true)
    else return (ds, false)) (← bound) [first]
  if !(← peek).is ";" then unexpected
  let declared ← ds.mapM (external spec)
  require ";"
  return declared

def firstDeclarator (go : Reader) (spec : Specifiers) : Read Declarator :=
  go (.declarator (if spec.types.isEmpty then .plain else .any))

def declaration (go : Reader) : Read (List External) := do
  let spec ← specifiers go
  if (← peek).is ";" then
    let d ← tagDeclaration spec
    require ";"
    return [d]
  declarationFrom go spec (← firstDeclarator go spec)

end Decompiler.C.Declaration
