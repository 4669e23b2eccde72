import Decompiler.Asm.Operand
import Decompiler.Infer.Store

/-!
# Code

The expressions and statements that a function is decompiled to. Every expression has a type.
-/

namespace Decompiler.Code

open Asm Infer

abbrev TempId := Nat

abbrev JoinId := Nat

abbrev FieldId := Nat

/-- An operator between two expressions. -/
inductive BinOp where
  | add | sub | mul | div | mod
  | shiftLeft | shiftRight
  | bitAnd | bitOr | bitXor
  | eq | ne | lt | le | gt | ge
  | and | or
  deriving DecidableEq, Inhabited

inductive UnOp where
  | neg
  | complement
  | not
  deriving DecidableEq, Inhabited

mutual

/-- An expression. -/
inductive Expr where
  | error (why : Option String) (type : TypeId)
  | secondHalf (type : TypeId)
  | binary (left : Expr) (op : BinOp) (right : Expr) (type : TypeId) (floating : Bool)
  | unary (op : UnOp) (operand : Expr) (type : TypeId)
  /-- Whether a value is not zero, or is zero if `negated`. -/
  | test (operand : Expr) (type : TypeId) (negated : Bool)
  | comma (statements : List Stmt) (condition : Expr)
  /-- A cast; `reinterpret` keeps the bits, and `silent` asks not to write it. -/
  | cast (operand : Expr) (type : TypeId) (reinterpret silent : Bool)
  | call (function : Expr) (args : List Expr) (type : TypeId)
  | stackVar (offset : Int) (type : TypeId)
  /-- An argument of the function; `copied` once it has been read from its register. -/
  | argument (offset : Int) (copied : Bool) (type : TypeId)
  /-- An argument on the stack for a call. -/
  | outgoing (offset : Int) (type : TypeId)
  /-- What lies at an offset from a pointer; without a size only its address is taken. -/
  | member (base : Expr) (offset : Int) (size : Option Int) (field : FieldId) (type : TypeId)
  | element (base index : Expr) (type : TypeId)
  | symbol (name : String) (type : TypeId)
  | literal (value : Int) (type : TypeId)
  | string (data : List UInt8) (type : TypeId)
  | address (operand : Expr) (type : TypeId)
  | upperBytes (load : Expr) (offset : Int) (base : Expr) (type : TypeId)
  | upperBytesAt (load : Expr) (offset : Int) (symbol : String) (type : TypeId)
  | threeBytes (load : Expr) (type : TypeId)
  | unaligned (load : Expr) (type : TypeId)
  | temp (id : TempId) (type : TypeId)
  | forced (id : TempId) (type : TypeId)
  | join (id : JoinId) (type : TypeId)

inductive Stmt where
  | setTemp (id : TempId)
  | setJoin (id : JoinId) (value : Expr)
  | run (value : Expr)
  | store (value dest : Expr)
  | comment (text : String)

end

instance : Inhabited Expr := ⟨.literal 0 0⟩

instance : Inhabited Stmt := ⟨.comment ""⟩

namespace BinOp

def text : BinOp → String
  | .add => "+"
  | .sub => "-"
  | .mul => "*"
  | .div => "/"
  | .mod => "%"
  | .shiftLeft => "<<"
  | .shiftRight => ">>"
  | .bitAnd => "&"
  | .bitOr => "|"
  | .bitXor => "^"
  | .eq => "=="
  | .ne => "!="
  | .lt => "<"
  | .le => "<="
  | .gt => ">"
  | .ge => ">="
  | .and => "&&"
  | .or => "||"

def isComparison : BinOp → Bool
  | .eq | .ne | .lt | .le | .gt | .ge => true
  | _ => false

/-- The comparison that holds when the given one does not; this is not so for numbers that may be
no number. Other operators stay. -/
def opposite : BinOp → BinOp
  | .eq => .ne
  | .ne => .eq
  | .lt => .ge
  | .le => .gt
  | .gt => .le
  | .ge => .lt
  | op => op

def flipped : BinOp → BinOp
  | .lt => .gt
  | .le => .ge
  | .gt => .lt
  | .ge => .le
  | op => op

def isAssociative : BinOp → Bool
  | .add | .mul | .bitAnd | .bitOr | .bitXor | .and | .or => true
  | _ => false

def ofOperator : Operator → BinOp
  | .add => .add
  | .sub => .sub
  | .mul => .mul
  | .and => .bitAnd
  | .shiftRight => .shiftRight

end BinOp

def UnOp.text : UnOp → String
  | .neg => "-"
  | .complement => "~"
  | .not => "!"

namespace Expr

def type : Expr → TypeId
  | .error _ t => t
  | .secondHalf t => t
  | .binary _ _ _ t _ => t
  | .unary _ _ t => t
  | .test _ t _ => t
  | .comma _ c => c.type
  | .cast _ t _ _ => t
  | .call _ _ t => t
  | .stackVar _ t => t
  | .argument _ _ t => t
  | .outgoing _ t => t
  | .member _ _ _ _ t => t
  | .element _ _ t => t
  | .symbol _ t => t
  | .literal _ t => t
  | .string _ t => t
  | .address _ t => t
  | .upperBytes _ _ _ t => t
  | .upperBytesAt _ _ _ t => t
  | .threeBytes _ t => t
  | .unaligned _ t => t
  | .temp _ t => t
  | .forced _ t => t
  | .join _ t => t

def literal? : Expr → Option Int
  | .literal n _ => some n
  | _ => none

def isLiteral (e : Expr) : Bool :=
  e.literal?.isSome

/-- Whether an expression is so simple that it may be written several times. -/
def isTrivial : Expr → Bool
  | .temp _ _ | .forced _ _ | .literal _ _ | .symbol _ _ | .stackVar _ _ | .argument _ _ _
  | .outgoing _ _ => true
  | .address e _ => e.isTrivial
  | _ => false

def isUntouched : Expr → Bool
  | .argument _ false _ => true
  | _ => false

end Expr

mutual

/-- How deep the parts of an expression are nested. An operation counts more than once, since it may
be written in another form first. -/
def Expr.depth : Expr → Nat
  | .binary left _ right _ _ => max left.depth right.depth + 3
  | .unary _ e _ | .test e _ _ | .cast e _ _ _ | .member e _ _ _ _ | .address e _
  | .upperBytes e _ _ _ | .upperBytesAt e _ _ _ | .threeBytes e _ | .unaligned e _ => e.depth + 1
  | .comma statements condition => max (Stmt.depthOf statements) condition.depth + 1
  | .call function args _ => max function.depth (Expr.depthOf args) + 1
  | .element base index _ => max base.depth index.depth + 1
  | _ => 1

def Expr.depthOf : List Expr → Nat
  | [] => 0
  | e :: es => max e.depth (Expr.depthOf es)

def Stmt.depth : Stmt → Nat
  | .setJoin _ value => value.depth + 1
  | .run value => value.depth + 1
  | .store value dest => max value.depth dest.depth + 1
  | _ => 1

def Stmt.depthOf : List Stmt → Nat
  | [] => 0
  | s :: ss => max s.depth (Stmt.depthOf ss)

end

end Decompiler.Code
