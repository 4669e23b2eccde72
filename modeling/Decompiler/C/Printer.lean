import Decompiler.C.Syntax

/-!
# C text

How types, declarations and expressions are written. The names of some declarators can be left
out, which makes the text of a type out of that of its declaration.
-/

namespace Decompiler.C

inductive ModifierText where
  | pointer (quals : List String)
  | suffix (text : String)

/-- A declared name with what stands around it, given from the name outwards. A suffix binds
tighter than a pointer, so parentheses separate the two. -/
def declaratorText (name : String) : (behindPointer : Bool) → List ModifierText → String
  | _, [] => name
  | behindPointer, .suffix text :: ms =>
    declaratorText ((if behindPointer then "(" ++ name ++ ")" else name) ++ text) false ms
  | _, .pointer [] :: ms => declaratorText ("*" ++ name) true ms
  | _, .pointer quals :: ms =>
    declaratorText ("* " ++ " ".intercalate quals ++ (if name.isEmpty then "" else " " ++ name))
      true ms

def wordsText (words : List String) : String :=
  if words.isEmpty then "" else " ".intercalate words ++ " "

def indentText (indent : Nat) : String :=
  String.ofList (List.replicate indent ' ')

namespace Expr

def isSimple : Expr → Bool
  | .constant _ => true
  | .ident _ => true
  | .index _ _ => true
  | .member _ _ _ => true
  | .call _ _ => true
  | _ => false

def inner (e : Expr) (text : String) : String :=
  match e with
  | .braces _ => "\x7b" ++ text ++ "\x7d"
  | .sequence _ => "(" ++ text ++ ")"
  | _ => text

def operand (e : Expr) (text : String) : String :=
  if e.isSimple then e.inner text else "(" ++ e.inner text ++ ")"

end Expr

mutual

def Expr.text (nameless : List Nat) (indent : Nat) : Expr → String
  | .constant t => t
  | .ident name => name
  | .unary op e => op ++ e.operand (e.text nameless indent)
  | .stepped op e => e.operand (e.text nameless indent) ++ op
  | .sizeOf e => "sizeof(" ++ e.text nameless indent ++ ")"
  | .binary op l r =>
    l.operand (l.text nameless indent) ++ " " ++ op ++ " " ++ r.operand (r.text nameless indent)
  | .ternary c a b =>
    "(" ++ c.inner (c.text nameless indent) ++ ") ? (" ++ a.inner (a.text nameless indent) ++
      ") : (" ++ b.inner (b.text nameless indent) ++ ")"
  | .assign op l r =>
    let right := r.inner (r.text nameless indent)
    l.text nameless indent ++ " " ++ op ++ " " ++
      match r with
      | .assign _ _ _ => "(" ++ right ++ ")"
      | _ => right
  | .sequence es => ", ".intercalate (Expr.texts nameless indent es)
  | .cast t e =>
    "(" ++ t.textWith nameless indent [] ++ ") " ++ e.operand (e.text nameless indent)
  | .call f none => f.operand (f.text nameless indent) ++ "()"
  | .call f (some args) =>
    f.operand (f.text nameless indent) ++ "(" ++
      ", ".intercalate (Expr.texts nameless indent args) ++ ")"
  | .index a i => a.operand (a.text nameless indent) ++ "[" ++ i.text nameless indent ++ "]"
  | .member e op field =>
    e.operand (e.text nameless indent) ++ op ++ field.text nameless indent
  | .compound t init =>
    "(" ++ t.textWith nameless indent [] ++ ")\x7b" ++
      ", ".intercalate (Expr.texts nameless indent init) ++ "\x7d"
  | .type t => t.textWith nameless indent []
  | .braces es => ", ".intercalate (Expr.texts nameless indent es)
  | .designated path e =>
    Expr.pathText nameless indent path ++ " = " ++ e.inner (e.text nameless indent)

def Expr.texts (nameless : List Nat) (indent : Nat) : List Expr → List String
  | [] => []
  | e :: es => e.inner (e.text nameless indent) :: Expr.texts nameless indent es

def Expr.pathText (nameless : List Nat) (indent : Nat) : List Expr → String
  | [] => ""
  | .ident name :: es => "." ++ name ++ Expr.pathText nameless indent es
  | e :: es => "[" ++ e.text nameless indent ++ "]" ++ Expr.pathText nameless indent es

def CType.textWith (nameless : List Nat) (indent : Nat) : CType → List ModifierText → String
  | .named decl name quals base, ms =>
    let name := if nameless.contains decl then "" else name.getD ""
    let declarator := declaratorText name false ms
    wordsText quals ++ base.text nameless indent ++
      (if declarator.isEmpty then "" else " " ++ declarator)
  | .pointer quals t, ms => t.textWith nameless indent (ms ++ [.pointer quals])
  | .array t none quals, ms =>
    t.textWith nameless indent (ms ++ [.suffix ("[" ++ wordsText quals ++ "]")])
  | .array t (some e) quals, ms =>
    t.textWith nameless indent
      (ms ++ [.suffix ("[" ++ wordsText quals ++ e.text nameless indent ++ "]")])
  | .function none t, ms => t.textWith nameless indent (ms ++ [.suffix "()"])
  | .function (some ps) t, ms =>
    t.textWith nameless indent
      (ms ++ [.suffix ("(" ++ ", ".intercalate (Param.texts nameless indent ps) ++ ")")])
  | .bare (.words names), _ => wordsText names
  | .bare base, _ => base.text nameless indent

/-- The text of a base type; members and enumerators stand on lines of their own. -/
def Base.text (nameless : List Nat) (indent : Nat) : Base → String
  | .words names => " ".intercalate names
  | .aggregate kind name _ none => kind.text ++ " " ++ name.getD ""
  | .aggregate kind name _ (some ms) =>
    kind.text ++ " " ++ name.getD "" ++ "\n" ++ indentText indent ++ "\x7b\n" ++
      Member.texts nameless (indent + 2) ms ++ indentText indent ++ "\x7d"
  | .enumeration name none => "enum " ++ name.getD ""
  | .enumeration name (some es) =>
    "enum " ++ name.getD "" ++ "\n" ++ indentText indent ++ "\x7b\n" ++
      ",\n".intercalate (Enumerator.texts nameless (indent + 2) es) ++ "\n" ++
      indentText indent ++ "\x7d"

def Decl.text (nameless : List Nat) (indent : Nat) : Decl → String
  | .mk _ storage functionSpecs type none =>
    wordsText functionSpecs ++ wordsText storage ++ type.textWith nameless indent []
  | .mk _ storage functionSpecs type (some bits) =>
    wordsText functionSpecs ++ wordsText storage ++ type.textWith nameless indent [] ++ " : " ++
      bits.text nameless indent

def Member.texts (nameless : List Nat) (indent : Nat) : List Member → String
  | [] => ""
  | .field d :: ms =>
    indentText indent ++ d.text nameless indent ++ ";\n" ++ Member.texts nameless indent ms
  | .pragma text :: ms =>
    indentText indent ++ "#pragma" ++ (if text.isEmpty then "" else " " ++ text) ++ "\n" ++
      Member.texts nameless indent ms

def Enumerator.texts (nameless : List Nat) (indent : Nat) : List Enumerator → List String
  | [] => []
  | .mk name none :: es => (indentText indent ++ name) :: Enumerator.texts nameless indent es
  | .mk name (some value) :: es =>
    (indentText indent ++ name ++ " = " ++ value.text nameless indent) ::
      Enumerator.texts nameless indent es

def Param.texts (nameless : List Nat) (indent : Nat) : List Param → List String
  | [] => []
  | .declared d :: ps => d.text nameless indent :: Param.texts nameless indent ps
  | .abstract t :: ps => t.textWith nameless indent [] :: Param.texts nameless indent ps
  | .identifier name :: ps => name :: Param.texts nameless indent ps
  | .ellipsis :: ps => "..." :: Param.texts nameless indent ps
  | .alias d :: ps => d.text nameless indent :: Param.texts nameless indent ps

end

namespace CType

def decl? : CType → Option Nat
  | .named decl _ _ _ => some decl
  | .pointer _ t => t.decl?
  | .array t _ _ => t.decl?
  | .function _ t => t.decl?
  | .bare _ => none

def tagText (keyword : String) : Option String → String
  | some name => keyword ++ " " ++ name
  | none => "anon " ++ keyword

/-- The text of a type by itself. Aggregates and enumerations are named by their tag only; of every
other type the declared name is left out. -/
def text (nameless : List Nat) (t : CType) : String :=
  match t with
  | .named _ _ _ (.aggregate kind name _ _) => tagText kind.text name
  | .named _ _ _ (.enumeration name _) => tagText "enum" name
  | _ => t.textWith (t.decl?.toList ++ nameless) 0 []

end CType

end Decompiler.C
