import Decompiler.C.TypeMap

/-!
# Layout of aggregates

Members are placed one behind the other, each at a multiple of its alignment; the members of a
union all start at its beginning. Bit-fields fill the bits of a word of their type and do not cross
its boundary.
-/

namespace Decompiler.C

structure Extent where
  size : Int
  align : Int
  layout : Option Layout := none

def alignUp (offset align : Int) : Int :=
  Integer.land (offset + align - 1) (-align)

def constantValue (e : Expr) : Typing Int := do
  let m ← get
  e.value m.nameless m.enumerators

/-- Computes the values of the enumerators of an enumeration; each is one more than the last, unless
it is given. -/
def enumerate (values : Option (List Enumerator)) : Typing Unit := do
  discard <| (values.getD []).foldlM (fun (next : Int) e => do
    match e with
    | .mk name value =>
      let n ← match value with
        | some v => constantValue v
        | none => pure next
      modify fun m => { m with enumerators := m.enumerators.insert name n }
      return n + 1) 0

/-- Lays out an aggregate, given by its tag, number and members. -/
abbrev LayOut := AggregateKind → Option String → Nat → Option (List Member) → Typing Layout

/-- The room that a member takes. Only a variable may be a function or `void`. The argument `layOut`
lays out aggregates, and the first one bounds the depth. -/
def extent (layOut : LayOut) (field : String) : Nat → CType → (unsized : Bool) → Typing Extent
  | 0, _, _ => throw .endless
  | depth + 1, t, unsized => do
    match ← t.resolve (← get) with
    | .pointer _ _ => return { size := 4, align := 4 }
    | .array _ none _ => reject (.unsizedArray field)
    | .array element (some e) _ =>
      let n ← constantValue e
      let x ← extent layOut field depth element false
      return { size := x.size * n, align := x.align }
    | .function _ _ =>
      expect unsized "Struct can not contain a function"
      return { size := 0, align := 0 }
    | .named _ _ _ (.aggregate kind name id members) =>
      let l ← layOut kind name id members
      return { size := l.size, align := l.align, layout := some l }
    | .named _ _ _ (.enumeration _ values) =>
      enumerate values
      return { size := 4, align := 4 }
    | .named _ _ _ (.words names) | .bare (.words names) =>
      let size := wordsSize names
      if size == 0 && !unsized then reject (.voidField field)
      return { size := size, align := size }
    | .bare _ => throw .missingPart

structure Placement where
  fields : Table Int (List Field) := .empty
  unionSize : Int := 0
  align : Int := 1
  offset : Int := 0
  bitOffset : Int := 0

namespace Placement

def addField (p : Placement) (offset : Int) (f : Field) : Placement :=
  { p with fields := p.fields.insert offset ((p.fields.get? offset).getD [] ++ [f]) }

def addFields (p : Placement) (offset : Int) (fields : Table Int (List Field))
    (rename : String → String) : Placement :=
  fields.entries.foldl (fun p (off, fs) =>
    fs.foldl (fun p f => p.addField (offset + off) { f with name := rename f.name }) p) p

def closeBits (p : Placement) (kind : AggregateKind) : Placement :=
  if kind == .struct && p.bitOffset != 0 then { p with bitOffset := 0, offset := p.offset + 1 }
  else p

def advance (p : Placement) (kind : AggregateKind) (size : Int) : Placement :=
  match kind with
  | .union => { p with unionSize := max p.unionSize size }
  | .struct => { p with offset := p.offset + size }

def addBits (p : Placement) (kind : AggregateKind) (width size : Int) : Placement :=
  match kind with
  | .union => { p with unionSize := max p.unionSize size }
  | .struct =>
    let last := p.offset + Int.fdiv (p.bitOffset + width - 1) 8
    let p :=
      if Int.fdiv p.offset size != Int.fdiv last size then
        { p with bitOffset := 0, offset := Integer.land (p.offset + size) (-size) }
      else p
    let bits := p.bitOffset + width
    { p with offset := p.offset + Int.fdiv bits 8, bitOffset := bits % 8 }

def finish (p : Placement) (kind : AggregateKind) : Layout :=
  let p := p.closeBits kind
  let size := match kind with
    | .union => p.unionSize
    | .struct => p.offset
  ⟨p.fields, alignUp size p.align, p.align⟩

end Placement

def placeMember (layOut : LayOut) (depth : Nat) (kind : AggregateKind) (tag : Option String)
    (p : Placement) (d : Decl) : Typing Placement := do
  let field := tag.getD "None" ++ "." ++ d.name.getD "None"
  match d.bits with
  | some bits =>
    let width ← constantValue bits
    let x ← extent layOut field depth d.type false
    let p := { p with align := max p.align x.align }
    if width == 0 then return p
    if x.size != x.align || x.layout.isSome then reject (.bitfieldType field)
    if width > x.size * 8 then reject (.bitfieldWidth field)
    return p.addBits kind width x.size
  | none =>
    let p := p.closeBits kind
    match d.name, d.type with
    | some name, type =>
      let x ← extent layOut field depth type false
      let offset := alignUp p.offset x.align
      let p := { p with align := max p.align x.align, offset := offset }
      let p := p.addField offset ⟨type, x.size, name⟩
      let p := match x.layout with
        | some l => p.addFields offset l.fields fun inner => name ++ "." ++ inner
        | none => p
      return p.advance kind x.size
    | none, .bare (.aggregate innerKind innerTag number (some members)) =>
      let l ← layOut innerKind innerTag number (some members)
      if innerTag.isSome then return p
      let offset := alignUp p.offset l.align
      let p := { p with align := max p.align l.align, offset := offset }
      return (p.addFields offset l.fields id).advance kind l.size
    | none, .bare (.enumeration _ values) =>
      enumerate values
      return p
    | none, _ => return p

def layOut : Nat → LayOut
  | 0, _, _, _, _ => throw .endless
  | depth + 1, kind, tag, id, members => do
    match (← get).layout? tag id with
    | some l => return l
    | none =>
      match members with
      | none => reject (.undefinedAggregate (tag.getD "None"))
      | some members =>
        expect (!members.isEmpty) "Empty structs are not valid C"
        let p ← members.foldlM (fun p member =>
          match member with
          | .field d => placeMember (layOut depth) (depth + 1) kind tag p d
          | .pragma _ => pure p) {}
        let l := p.finish kind
        modify fun m => m.addLayout tag id l
        return l

def layOutAggregate : LayOut := fun kind tag id members => do
  layOut ((← get).depth + 1) kind tag id members

def variableExtent (t : CType) : Typing (Int × Int) := do
  let x ← extent layOutAggregate "" ((← get).depth + 1) t true
  return (x.size, x.align)

def argumentExtent (t : CType) : Typing (Int × Int) := do
  let m ← get
  match ← t.resolve m with
  | .pointer _ _ => return (4, 4)
  | .array _ _ _ => return (4, 4)
  | .function _ _ => throw (.broken "Function argument can not be a function")
  | .named _ _ _ (.aggregate _ name id _) =>
    match m.layout? name id with
    | some l => return (l.size, l.align)
    | none => throw (.broken "Function argument can not be of an incomplete struct")
  | .named _ _ _ (.enumeration _ _) => return (4, 4)
  | .named _ _ _ (.words names) | .bare (.words names) =>
    let size := wordsSize names
    if size == 0 then reject .voidParameter
    return (size, size)
  | .bare _ => throw .missingPart

end Decompiler.C
