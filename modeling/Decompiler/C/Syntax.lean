/-!
# C declarations

The syntax of C types, declarations and expressions, as far as declarations need it. A declared
type is read from the declared name outwards; at its end stands the base type, with the name and
the qualifiers of the declaration.
-/

namespace Decompiler.C

inductive AggregateKind where
  | struct
  | union
  deriving DecidableEq, Inhabited

def AggregateKind.text : AggregateKind → String
  | .struct => "struct"
  | .union => "union"

mutual

/-- A declared type. -/
inductive CType where
  | named (decl : Nat) (name : Option String) (quals : List String) (base : Base)
  | pointer (quals : List String) (target : CType)
  | array (element : CType) (size : Option Expr) (quals : List String)
  | function (params : Option (List Param)) (result : CType)
  | bare (base : Base)

/-- A base type. -/
inductive Base where
  | words (names : List String)
  /-- A structure or union, with its members where it is defined. `id` tells definitions apart. -/
  | aggregate (kind : AggregateKind) (name : Option String) (id : Nat)
      (members : Option (List Member))
  | enumeration (name : Option String) (values : Option (List Enumerator))

inductive Decl where
  | mk (name : Option String) (storage functionSpecs : List String) (type : CType)
      (bits : Option Expr)

inductive Member where
  | field (d : Decl)
  | pragma (text : String)

inductive Enumerator where
  | mk (name : String) (value : Option Expr)

inductive Param where
  | declared (d : Decl)
  | abstract (type : CType)
  | identifier (name : String)
  | ellipsis
  | alias (d : Decl)

/-- An expression or an initializer. -/
inductive Expr where
  | constant (text : String)
  | ident (name : String)
  | unary (op : String) (e : Expr)
  | stepped (op : String) (e : Expr)
  | sizeOf (e : Expr)
  | binary (op : String) (left right : Expr)
  | ternary (condition yes no : Expr)
  | assign (op : String) (left right : Expr)
  | sequence (es : List Expr)
  | cast (type : CType) (e : Expr)
  | call (function : Expr) (args : Option (List Expr))
  | index (array position : Expr)
  | member (e : Expr) (op : String) (field : Expr)
  | compound (type : CType) (init : List Expr)
  | type (t : CType)
  | braces (es : List Expr)
  | designated (path : List Expr) (e : Expr)

end

instance : Inhabited Base := ⟨.words []⟩
instance : Inhabited CType := ⟨.bare default⟩
instance : Inhabited Expr := ⟨.constant ""⟩
instance : Inhabited Decl := ⟨.mk none [] [] default none⟩

namespace Decl

def name : Decl → Option String
  | .mk name _ _ _ _ => name

def type : Decl → CType
  | .mk _ _ _ type _ => type

def bits : Decl → Option Expr
  | .mk _ _ _ _ bits => bits

end Decl

inductive External where
  | alias (name : Option String) (type : CType)
  | declaration (d : Decl)
  | definition (d : Decl)

end Decompiler.C
