import Decompiler.C.Source
import Decompiler.C.Syntax

/-!
# The parts of the C grammar

The parts of the grammar refer to each other, so each is read by a function that is given the
reader of the parts inside it. This module names the parts and what is read for them.
-/

namespace Decompiler.C

inductive Modifier where
  | pointer (quals : List String)
  | array (size : Option Expr) (quals : List String)
  | function (params : Option (List Param))

/-- A declarator: a name, if it has one, and what is declared of it from the name outwards. -/
structure Declarator where
  name : Option String := none
  isTypeName : Bool := false
  modifiers : List Modifier := []
  place : String := ""

/-- Where a declarator stands, which decides on the names that it may have. -/
inductive DeclaratorMode where
  | plain
  | any
  | parameter
  | nested
  | member
  | abstract
  | nestedAbstract
  deriving DecidableEq

namespace DeclaratorMode

def inParentheses : DeclaratorMode → DeclaratorMode
  | .parameter => .nested
  | .abstract => .nestedAbstract
  | mode => mode

def allowsName (mode : DeclaratorMode) : Bool :=
  mode != .abstract && mode != .nestedAbstract

def allowsTypeName (mode : DeclaratorMode) : Bool :=
  mode == .any || mode == .parameter || mode == .member

def allowsNone (mode : DeclaratorMode) : Bool :=
  mode != .plain && mode != .any

end DeclaratorMode

structure Specifier where
  base : Base
  place : String

def Specifier.names? (s : Specifier) : Option (List String) :=
  match s.base with
  | .words names => some names
  | _ => none

structure Specifiers where
  quals : List String := []
  storage : List String := []
  functions : List String := []
  types : List Specifier := []

/-- The parts of the grammar that contain each other, by what is read for them. -/
inductive Goal : Type → Type where
  | expression : Goal Expr
  | assignment : Goal Expr
  | conditional : Goal Expr
  | cast : Goal (Expr × Bool)
  | unary : Goal Expr
  | initializer : Goal Expr
  | typeName : Goal CType
  | baseType : Goal Specifier
  | declarator (mode : DeclaratorMode) : Goal Declarator
  | parameters : Goal (List Param)
  | declaration : Goal (List External)
  | statement : Goal Unit

abbrev Reader := {α : Type} → Goal α → Read α

def qualifiers : List String := ["const", "restrict", "volatile"]

def storageClasses : List String := ["auto", "register", "static", "extern", "typedef"]

def functionSpecifiers : List String := ["inline"]

def typeKeywords : List String :=
  ["void", "_Bool", "char", "short", "int", "long", "float", "double", "_Complex", "signed",
   "unsigned", "__int128"]

def Token.startsBase (t : Token) : Bool :=
  t.kind == .typeName || t.isOneOf typeKeywords || t.isOneOf ["struct", "union", "enum"]

def Token.startsTypeName (t : Token) : Bool :=
  t.startsBase || t.isOneOf qualifiers

def Token.startsDeclaration (t : Token) : Bool :=
  t.startsTypeName || t.isOneOf storageClasses || t.isOneOf functionSpecifiers

end Decompiler.C
