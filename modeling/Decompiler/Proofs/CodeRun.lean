import Decompiler.Eval.Text
import Decompiler.Proofs.Words

/-!
# Running the code of a block

What the statements of a block do to a memory of bytes when their expressions stand for words. An
argument, or a symbol for what the caller left in a register, is the word that the register held at
the start.
-/

namespace Decompiler

open Asm Code Eval

def argumentRegister? (place : Int) : Option Register :=
  [(0, ⟨"a0"⟩), (4, ⟨"a1"⟩), (8, ⟨"a2"⟩), (12, ⟨"a3"⟩)].lookup place

def symbolRegister? (name : String) : Option Register :=
  ((⟨"sp"⟩, "sp") :: calleeSaved.map fun r => (r, savedName r)).find? (·.2 == name) |>.map (·.1)

namespace Code

def BinOp.word? : BinOp → Option (Word → Word → Word)
  | .add => some fun a b => a + b
  | .sub => some fun a b => a - b
  | .mul => some fun a b => a * b
  | .shiftLeft => some fun a b => a <<< b
  | .bitAnd => some fun a b => a &&& b
  | .bitOr => some fun a b => a ||| b
  | .bitXor => some fun a b => a ^^^ b
  | _ => none

/-- The word that an expression stands for, given the registers at the start, the temporaries and
the memory. -/
def Expr.word? (start : Register → Word) (temps : TempId → Option Word) (m : Memory) :
    Expr → Option Word
  | .literal n _ => some (BitVec.ofInt 32 n)
  | .argument place _ _ => (argumentRegister? place).map start
  | .symbol name _ => (symbolRegister? name).map start
  | .temp id _ => temps id
  | .cast e _ true _ => e.word? start temps m
  | .binary l op r _ false => do
    let f ← op.word?
    return f (← l.word? start temps m) (← r.word? start temps m)
  | .member base offset (some 4) _ _ => do
    return m.read ((← base.word? start temps m) + BitVec.ofInt 32 offset)
  | _ => none

def Expr.address? (start : Register → Word) (temps : TempId → Option Word) (m : Memory) :
    Expr → Option Word
  | .member base offset (some 4) _ _ => do
    return (← base.word? start temps m) + BitVec.ofInt 32 offset
  | _ => none

def Expr.load? : Expr → Option Expr
  | .member base offset size field type => some (.member base offset size field type)
  | .cast e _ true _ => e.load?
  | _ => none

end Code

structure CodeState where
  temps : TempId → Option Word
  memory : Memory

/-- One statement, where `value` gives the values of the temporaries and `seen` what is written for
an expression. -/
def Code.Stmt.exec (start : Register → Word) (value : TempId → Expr) (seen : Expr → Expr)
    (σ : CodeState) : Stmt → Option CodeState
  | .setTemp id => do
    let v ← (seen (value id)).word? start σ.temps σ.memory
    return { σ with temps := fun k => if k = id then some v else σ.temps k }
  | .run e => do
    let _ ← (seen e).word? start σ.temps σ.memory
    return σ
  | .store e dest => do
    let v ← (seen e).word? start σ.temps σ.memory
    let a ← (seen dest).address? start σ.temps σ.memory
    return { σ with memory := σ.memory.write a v }
  | _ => none

namespace Eval.Session

def value (s : Session) (id : TempId) : Expr :=
  (s.temp id).value

/-- An expression with the temporaries that are not variables replaced by their values, as far as
it is made of words; the depth is bounded. -/
def inPlaceFrom (s : Session) : Nat → Expr → Expr
  | 0, e => e
  | depth + 1, e =>
    match e with
    | .temp id _ => if (s.temp id).isVariable then e else s.inPlaceFrom depth (s.value id)
    | .forced id t => s.inPlaceFrom depth (.temp id t)
    | .cast e t reinterpret silent => .cast (s.inPlaceFrom depth e) t reinterpret silent
    | .binary l op r t floating =>
      .binary (s.inPlaceFrom depth l) op (s.inPlaceFrom depth r) t floating
    | .member base offset size field t =>
      .member (s.inPlaceFrom depth base) offset size field t
    | _ => e

def inPlace (s : Session) (e : Expr) : Expr :=
  s.inPlaceFrom s.reach e

def execWritten (s : Session) (start : Register → Word) (stmts : List Stmt) (σ : CodeState) :
    Option CodeState :=
  stmts.foldlM (Stmt.exec start s.value s.inPlace) σ

def loadAt? (s : Session) (start : Register → Word) (σ : CodeState) : Stmt → Option (Expr × Word)
  | .setTemp id => do
    let l ← (s.value id).load?
    return (l, ← l.address? start σ.temps σ.memory)
  | _ => none

def namesLoads (start : Register → Word) (σ : CodeState) (loads : List (Expr × Word)) :
    Stmt → Bool
  | .store _ dest =>
    match dest.address? start σ.temps σ.memory with
    | some b => loads.all fun (l, a) => !overlaps a b || l.same dest
    | none => true
  | _ => true

def aliasesKnown (s : Session) (start : Register → Word) :
    (loads : List (Expr × Word)) → CodeState → List Stmt → Bool
  | _, _, [] => true
  | loads, σ, stmt :: rest =>
    namesLoads start σ loads stmt &&
      match stmt.exec start s.value id σ with
      | some σ' => s.aliasesKnown start ((s.loadAt? start σ stmt).toList ++ loads) σ' rest
      | none => true

end Eval.Session

end Decompiler
