import Decompiler.C.Printer
import Decompiler.Failure
import Decompiler.Number.Integer
import Decompiler.Table

/-!
# Constant expressions

The value of an expression of integers and enumerators. Other expressions have no value.
-/

namespace Decompiler.C

def truth (b : Bool) : Int :=
  if b then 1 else 0

def constantValue? (text : String) : Option Int :=
  Integer.read? (Text.dropEndWhile (fun c => ['l', 'L', 'u', 'U'].contains c) text.toList)

/-- The quotient for `/`, else the remainder, by those of numbers without a sign. -/
def divmod (op : String) (m n : Int) : Int :=
  if n < 0 then signed (-m) (-n) else signed m n
where
  signed (m n : Int) : Int := if m < 0 then -unsigned (-m) n else unsigned m n
  unsigned (m n : Int) : Int := if op == "/" then m / n else m % n

def operationValue? (op : String) (m n : Int) : Option (Except Failure Int) :=
  match op with
  | "+" => some (pure (m + n))
  | "-" => some (pure (m - n))
  | "*" => some (pure (m * n))
  | "<<" => some (if n < 0 then throw Failure.negativeShift else pure (m * Nat.pow 2 n.toNat))
  | ">>" => some (if n < 0 then throw Failure.negativeShift else pure (m >>> n.toNat))
  | "&" => some (pure (Integer.land m n))
  | "|" => some (pure (Integer.lor m n))
  | "^" => some (pure (Integer.lxor m n))
  | ">=" => some (pure (truth (m ≥ n)))
  | "<=" => some (pure (truth (m ≤ n)))
  | ">" => some (pure (truth (m > n)))
  | "<" => some (pure (truth (m < n)))
  | "==" => some (pure (truth (m == n)))
  | "!=" => some (pure (truth (m != n)))
  | "&&" => some (pure (truth (n != 0)))
  | "||" => some (pure (truth (n != 0)))
  | _ => none

def unaryValue? (op : String) (n : Int) : Option Int :=
  match op with
  | "-" => some (-n)
  | "~" => some (Integer.lnot n)
  | "!" => some 1
  | _ => none

mutual

/-- The value of an expression, given those of the enumerators. -/
def Expr.value (nameless : List Nat) (enums : Table String Int) : Expr → Except Failure Int
  | .constant text =>
    match constantValue? text with
    | some n => pure n
    | none => reject (.badInteger text)
  | .ident name =>
    match enums.get? name with
    | some n => pure n
    | none => reject (.notConstant name)
  | .binary op l r => do
    let m ← l.value nameless enums
    if op == "&&" && m == 0 then return 0
    if op == "||" && m != 0 then return 1
    let n ← r.value nameless enums
    match operationValue? op m n with
    | some result => result
    | none =>
      if n == 0 then reject (.zeroDivisor ((Expr.binary op l r).text nameless 0))
      else return divmod op m n
  | .ternary c a b => do
    if (← c.value nameless enums) != 0 then a.value nameless enums else b.value nameless enums
  | .sequence es => do
    match ← Expr.lastValue nameless enums es with
    | some n => return n
    | none => reject (.notConstant ((Expr.sequence es).text nameless 0))
  | .unary op e => do
    match unaryValue? op (← e.value nameless enums) with
    | some n => return n
    | none => reject (.notConstant ((Expr.unary op e).text nameless 0))
  | .stepped op e => do
    discard (e.value nameless enums)
    reject (.notConstant ((Expr.stepped op e).text nameless 0))
  | .sizeOf (.type t) => reject (.notConstant ((Expr.sizeOf (.type t)).text nameless 0))
  | .sizeOf e => do
    discard (e.value nameless enums)
    reject (.notConstant ((Expr.sizeOf e).text nameless 0))
  | e => reject (.notConstant (e.text nameless 0))

def Expr.lastValue (nameless : List Nat) (enums : Table String Int) :
    List Expr → Except Failure (Option Int)
  | [] => pure none
  | [.type _] => pure none
  | [e] => do return some (← e.value nameless enums)
  | _ :: e :: es => Expr.lastValue nameless enums (e :: es)

end

end Decompiler.C
