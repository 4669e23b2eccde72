import Decompiler.C.TypeMap

/-!
# Types of values, as far as they are known

The type of a value is a node of a store. It starts with all that the value might be and gets
narrower as more is found out.
-/

namespace Decompiler.Infer

/-- What kinds of values a type may still stand for. -/
structure Kinds where
  int : Bool
  ptr : Bool
  float : Bool
  deriving DecidableEq, Inhabited

/-- Which signs an integer may still have. -/
structure Signs where
  signed : Bool
  unsigned : Bool
  deriving DecidableEq, Inhabited

abbrev TypeId := Nat

/-- What a pointer points to: another type of the store, or a type that was declared. -/
inductive Target where
  | type (id : TypeId)
  | declared (type : C.CType)
  deriving Inhabited

structure TypeNode where
  kinds : Kinds
  size : Option Nat
  signs : Signs
  target : Option Target := none
  parent : Option TypeId := none
  deriving Inhabited

namespace Kinds

def all : Kinds := ⟨true, true, true⟩

def onlyInt : Kinds := ⟨true, false, false⟩

def onlyPtr : Kinds := ⟨false, true, false⟩

def onlyFloat : Kinds := ⟨false, false, true⟩

def intOrPtr : Kinds := ⟨true, true, false⟩

def inter (k l : Kinds) : Kinds :=
  ⟨k.int && l.int, k.ptr && l.ptr, k.float && l.float⟩

def isEmpty (k : Kinds) : Bool :=
  !k.int && !k.ptr && !k.float

/-- The kinds of values that have the given size: there are no small floating-point numbers, and
pointers are words. -/
def ofSize (k : Kinds) (size : Option Nat) : Kinds :=
  { k with
    float := k.float && !(size == some 8 || size == some 16)
    ptr := k.ptr && !(size == some 8 || size == some 16 || size == some 64) }

end Kinds

namespace Signs

def all : Signs := ⟨true, true⟩

def onlySigned : Signs := ⟨true, false⟩

def onlyUnsigned : Signs := ⟨false, true⟩

def inter (s t : Signs) : Signs :=
  ⟨s.signed && t.signed, s.unsigned && t.unsigned⟩

def isEmpty (s : Signs) : Bool :=
  !s.signed && !s.unsigned

end Signs

namespace TypeNode

def any : TypeNode := ⟨.all, none, .all, none, none⟩

def ofSize (size : Nat) : TypeNode := { any with size := some size }

def integer : TypeNode := { any with kinds := .onlyInt }

def intOrPtr : TypeNode := { any with kinds := .intOrPtr }

def wordOrPtr : TypeNode := { intOrPtr with size := some 32 }

def pointer (target : Option Target := none) : TypeNode :=
  { any with kinds := .onlyPtr, size := some 32, target := target }

def float : TypeNode := { any with kinds := .onlyFloat }

def single : TypeNode := { float with size := some 32 }

def double : TypeNode := { float with size := some 64 }

def signed (size : Nat) : TypeNode := { integer with size := some size, signs := .onlySigned }

def unsigned (size : Nat) : TypeNode := { integer with size := some size, signs := .onlyUnsigned }

def long : TypeNode := { integer with size := some 64 }

def truth : TypeNode := integer

end TypeNode

/-- All types, by number. -/
structure TypeStore where
  nodes : Array TypeNode := #[]
  depth : Nat := 0
  deriving Inhabited

def pointerDepth : C.CType → Nat
  | .pointer _ t => pointerDepth t + 1
  | _ => 0

namespace TypeStore

def node (s : TypeStore) (t : TypeId) : TypeNode :=
  s.nodes.getD t .any

def add (s : TypeStore) (n : TypeNode) : TypeId × TypeStore :=
  let depth := match n.target with
    | some (.declared t) => max s.depth (pointerDepth t)
    | _ => s.depth
  (s.nodes.size, ⟨s.nodes.push n, depth⟩)

def rootFrom (s : TypeStore) : Nat → TypeId → TypeId
  | 0, t => t
  | fuel + 1, t =>
    match (s.node t).parent with
    | some p => s.rootFrom fuel p
    | none => t

def root (s : TypeStore) (t : TypeId) : TypeId :=
  s.rootFrom s.nodes.size t

def known (s : TypeStore) (t : TypeId) : TypeNode :=
  s.node (s.root t)

/-- Makes the types on the way from a type to its representative point to it directly; the first
argument bounds the length of the way. -/
def compressFrom (s : TypeStore) (root : TypeId) : Nat → TypeId → TypeStore
  | 0, _ => s
  | fuel + 1, t =>
    match (s.node t).parent with
    | some p =>
      { s with nodes := s.nodes.modify t fun n => { n with parent := some root } }.compressFrom
        root fuel p
    | none => s

def compress (s : TypeStore) (t : TypeId) : TypeStore :=
  s.compressFrom (s.root t) s.nodes.size t

def isFloat (s : TypeStore) (t : TypeId) : Bool :=
  (s.known t).kinds == .onlyFloat

def isPointer (s : TypeStore) (t : TypeId) : Bool :=
  (s.known t).kinds == .onlyPtr

def isInt (s : TypeStore) (t : TypeId) : Bool :=
  (s.known t).kinds == .onlyInt

def isUnsigned (s : TypeStore) (t : TypeId) : Bool :=
  (s.known t).signs == .onlyUnsigned

def sizeBits (s : TypeStore) (t : TypeId) : Nat :=
  match (s.known t).size with
  | some 0 => 32
  | some n => n
  | none => 32

end TypeStore

end Decompiler.Infer
