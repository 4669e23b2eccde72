import Decompiler.Eval.Operation
import Decompiler.Text.StringLiteral

/-!
# The text of code

How expressions and statements are written. Writing is part of the evaluation: a variable gets its
name when it is first written, and a member its name when its type is known by then.
-/

namespace Decompiler.Eval

open Asm Code Infer

def nextName (stem : String) : Evaluation String := do
  let count := ((← get).stems.get? stem).getD 0 + 1
  modify fun s => { s with stems := s.stems.insert stem count }
  return stem ++ if count > 1 then "_" ++ toString count else ""

def tempName (id : TempId) : Evaluation String := do
  let t := (← get).temp id
  match t.name with
  | some name => return name
  | none =>
    let name ← nextName t.stem
    modifyTemp id fun t => { t with name := some name }
    return name

def Join.text (j : Join) : String :=
  j.name.getD ("unnamed-phi(" ++ j.register.name ++ ")")

def fieldName (base : Expr) (offset : Int) (size : Option Int) (field : FieldId) :
    Evaluation (Option String) := do
  let s ← get
  match s.fields.getD field .none with
  | .known name => return some name
  | .none => return none
  | .pending =>
    if !s.hasContext then return none
    let found ← infer (fieldAt (s.written base).type offset size)
    let settled := match found.name with
      | some name => .known name
      | none => .none
    modify fun s => { s with fields := s.fields.modify field fun _ => settled }
    return found.name

def hasDeclaredType (base : Expr) (offset : Int) (size : Option Int) (field : FieldId) :
    Evaluation Bool := do
  if (← fieldName base offset size field).isSome then return true
  let s ← get
  if offset != 0 then return false
  let var := s.written base
  match var with
  | .address (.symbol name _) _ =>
    return !s.hasOffsetAccess var && (s.variableType? name).isSome
  | _ => return false

/-- Whether the type of an expression can be seen from what is written; the depth is bounded. -/
def Session.isObviousFrom (s : Session) : Nat → Expr → Bool
  | 0, _ => false
  | depth + 1, e =>
    match e with
    | .cast _ _ _ _ | .literal _ _ | .string _ _ | .address _ _ | .stackVar _ _ | .join _ _
    | .argument _ _ _ | .call _ _ _ => true
    | .forced id t => s.isObviousFrom depth (.temp id t)
    | .temp id _ => (s.temp id).isVariable || s.isObviousFrom depth (s.temp id).value
    | _ => false

def Session.isObvious (s : Session) (e : Expr) : Bool :=
  s.isObviousFrom s.reach e

def withoutCastsFrom : Nat → Expr → Evaluation Expr
  | 0, e => pure e
  | depth + 1, e => do
    match (← get).written e with
    | .cast operand type true _ =>
      if ← unifyTypes operand.type type then withoutCastsFrom depth operand else return e
    | .literal n type =>
      if (← get).types.store.isInt type then return .literal n (← freshType .integer)
      return e
    | _ => return e

def withoutCasts (e : Expr) : Evaluation Expr := do
  withoutCastsFrom (← get).reach e

/-- Whether the parentheses in a text match, where `opened` are open before it. -/
def isBalanced : (opened : Nat) → List Char → Bool
  | opened, [] => opened == 0
  | opened, c :: cs =>
    if c == '(' then isBalanced (opened + 1) cs
    else if c == ')' then
      match opened with
      | 0 => false
      | opened + 1 => isBalanced opened cs
    else isBalanced opened cs

def inner (text : String) : String :=
  String.ofList (text.toList.drop 1).dropLast

def stripParens (text : String) : String :=
  if text.startsWith "(" && isBalanced 0 (inner text).toList then inner text else text

def parenthesize (text : String) : String :=
  if text.startsWith "*" || text.startsWith "&" then "(" ++ text ++ ")" else text

def literalText (skipCasts : Bool) (n : Int) (type : TypeId) : Evaluation String := do
  let store := (← get).types.store
  let bits := store.sizeBits type
  if store.isFloat type then
    return if bits == 32 then Number.singleLiteral n ++ "f" else Number.doubleLiteral n
  if store.isPointer type && n == 0 then return "NULL"
  let digits := if n.natAbs < 10 then toString n else Integer.markedHex n
  if skipCasts then return digits
  let cast :=
    if store.isPointer type then "(void *)"
    else if bits == 8 then "(u8)"
    else if bits == 16 then "(u16)"
    else ""
  return cast ++ digits ++ if store.isUnsigned type then "U" else ""

mutual

/-- The text of an expression, with parentheses around operations. The first argument bounds the
depth. -/
def exprTextFrom (skipCasts : Bool) : Nat → Expr → Evaluation String
  | 0, _ => throw .endless
  | depth + 1, e => do
    let text := exprTextFrom skipCasts depth
    match e with
    | .error why _ =>
      return match why with
        | some why => "ERROR(" ++ why ++ ")"
        | none => "ERROR"
    | .secondHalf _ => return "(second half of f64)"
    | .binary left op right type floating =>
      if op.isComparison && left.isLiteral && !right.isLiteral then
        return ← text (.binary right op.flipped left type false)
      match right with
      | .literal n t =>
        if !floating && n < 0 then
          if op == .add then return ← text (.binary left .sub (.literal (-n) t) type false)
          if op == .bitAnd || op == .bitOr then
            let complement : Expr := .unary .complement (.literal (Integer.lnot n) t) t
            return ← text (.binary left op complement type false)
      | _ => pure ()
      let left := (← get).written left
      let l ← text left
      let l := match left with
        | .binary _ op' _ _ _ => if op' == op && op.isAssociative then inner l else l
        | _ => l
      return "(" ++ l ++ " " ++ op.text ++ " " ++ (← text right) ++ ")"
    | .unary op operand _ => return op.text ++ (← text operand)
    | .test operand _ negated => return (if negated then "!" else "") ++ (← text operand)
    | .comma statements condition =>
      let texts ← statements.mapM (stmtTextFrom skipCasts depth)
      let texts := texts.map fun t => String.ofList (Text.dropEndWhile (· == ';') t.toList)
      return "(" ++ ", ".intercalate texts ++ ", " ++ (← text condition) ++ ")"
    | .cast operand type reinterpret silent =>
      if reinterpret && (← isFloat operand.type) != (← isFloat type) then
        let t ← infer (typeText type)
        return "(bitwise " ++ t ++ ") " ++ (← text operand)
      if reinterpret then
        if silent then return ← text operand
        if (← get).isObvious operand then
          if ← unifyTypes operand.type type then return ← text operand
      if skipCasts then return ← text operand
      let t ← infer (typeText type)
      return "(" ++ t ++ ") " ++ (← text operand)
    | .call function args _ =>
      let args ← args.mapM fun a => do return stripParens (← text a)
      return (← text function) ++ "(" ++ ", ".intercalate args ++ ")"
    | .stackVar place _ => return "sp" ++ Integer.upperHex place
    | .argument place _ _ =>
      expect (place % 4 == 0)
      return ((← get).argumentNames.get? place).getD ("arg" ++ Integer.upperHex (place / 4))
    | .outgoing place _ => return "subroutine_arg" ++ Integer.upperHex (place / 4)
    | .member base offset size field _ =>
      let s ← get
      let var := s.written base
      let hasOffset := s.hasOffsetAccess var
      let name ← fieldName base offset size field
      let whole := offset == 0 && name.isNone && !hasOffset
      let name := name.getD ("unk" ++ Integer.upperHex offset)
      match var with
      | .address target _ =>
        let t ← text target
        return if whole then t else parenthesize t ++ "." ++ name
      | _ =>
        let t ← text var
        return if whole then "*" ++ t else parenthesize t ++ "->" ++ name
    | .element base index _ =>
      let b ← text base
      let i ← text index
      return parenthesize b ++ "[" ++ stripParens i ++ "]"
    | .symbol name _ => return name
    | .literal n type => literalText skipCasts n type
    | .string data _ => return Text.stringLiteral data
    | .address operand _ => return "&" ++ (← text operand)
    | .upperBytes load _ _ _ => return "LWL(" ++ (← text load) ++ ")"
    | .upperBytesAt load _ _ _ => return "LWL(" ++ (← text load) ++ ")"
    | .threeBytes load _ => return "(first 3 bytes) " ++ (← text load)
    | .unaligned load _ => return "(unaligned s32) " ++ (← text load)
    | .temp id _ =>
      let t := (← get).temp id
      if t.isVariable then tempName id else text t.value
    | .forced id type => text (.temp id type)
    | .join id _ =>
      let j := (← get).join id
      match j.replacement with
      | some value => text value
      | none => return j.text

def stmtTextFrom (skipCasts : Bool) : Nat → Stmt → Evaluation String
  | 0, _ => throw .endless
  | depth + 1, s => do
    let text (e : Expr) : Evaluation String := do
      return stripParens (← exprTextFrom skipCasts depth e)
    match s with
    | .setTemp id =>
      let value ← text (← withoutCasts ((← get).temp id).value)
      let t := (← get).temp id
      if t.exactlyOnce && t.uses == 0 then return value ++ ";"
      return (← tempName id) ++ " = " ++ value ++ ";"
    | .setJoin id value =>
      let value ← text value
      let s ← get
      return (s.join (← s.destination id)).text ++ " = " ++ value ++ ";"
    | .run value => return (← text value) ++ ";"
    | .store value dest =>
      let isKnown ← match dest with
        | .member base offset size field _ => hasDeclaredType base offset size field
        | .element _ _ _ | .stackVar _ _ | .outgoing _ _ => pure true
        | _ => pure false
      let value ← if isKnown then withoutCasts value else pure value
      let dest ← exprTextFrom skipCasts depth dest
      return dest ++ " = " ++ (← text value) ++ ";"
    | .comment text => return "// " ++ text

end

def exprText (skipCasts : Bool) (e : Expr) : Evaluation String := do
  exprTextFrom skipCasts ((← get).reach + e.depth) e

def wholeText (skipCasts : Bool) (e : Expr) : Evaluation String := do
  return stripParens (← exprText skipCasts e)

def stmtText (skipCasts : Bool) (s : Stmt) : Evaluation String := do
  stmtTextFrom skipCasts ((← get).reach + 1) s

/-- Whether a statement is written: values that are used in place are not, and neither is setting a
join to itself. -/
def isWritten (stmt : Stmt) : Evaluation Bool := do
  let s ← get
  match stmt with
  | .setTemp id =>
    let t := s.temp id
    return if t.exactlyOnce then t.uses != 1 else t.isVariable
  | .setJoin id value =>
    let dest ← s.destination id
    match value with
    | .join source _ =>
      let forwarded ← s.destination source
      if forwarded != source then
        expect (forwarded == dest)
        return false
    | _ => pure ()
    match s.core value with
    | .join source _ => return source != dest
    | _ => return true
  | _ => return true

def simplifyFrom : Nat → Expr → Evaluation Expr
  | 0, e => pure e
  | depth + 1, e => do
    match e with
    | .temp id _ =>
      let t := (← get).temp id
      if t.isVariable then return e else simplifyFrom depth t.value
    | .binary left op right type _ =>
      let left ← simplifyFrom depth left
      let right ← simplifyFrom depth right
      match left, right with
      | .binary _ inner _ _ _, .literal 0 _ =>
        if inner.isComparison && op == .eq then return ← simplifyFrom depth (← negate left)
        if inner.isComparison && op == .ne then return left
      | _, _ => pure ()
      return .binary left op right type false
    | _ => return e

def simplify (e : Expr) : Evaluation Expr := do
  simplifyFrom (← get).reach e

end Decompiler.Eval
