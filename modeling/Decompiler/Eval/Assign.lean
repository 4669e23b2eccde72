import Decompiler.Eval.Variable

/-!
# Setting registers

The value of a register is held by a temporary. Before memory changes, the temporaries that depend
on it are protected: if they are used afterwards, they have to be variables, set where they were
computed.
-/

namespace Decompiler.Eval

open Asm Code Infer

def argumentRegisters : List Register :=
  ["a0", "a1", "a2", "a3", "f12", "f14"].map Register.mk

def callerSaved : List Register :=
  argumentRegisters ++ (["at", "t0", "t1", "t2", "t3", "t4", "t5", "t6", "t7", "t8", "t9", "f4",
    "f5", "f6", "f7", "f8", "f9", "f10", "f11", "f13", "f15", "f16", "f17", "f18", "f19", "hi",
    "lo", "v0", "v1", "f0", "f1", "condition_bit", "return"].map Register.mk)

def calleeSaved : List Register :=
  ["s0", "s1", "s2", "s3", "s4", "s5", "s6", "s7", "f20", "f21", "f22", "f23", "f24", "f25", "f26",
   "f27", "f28", "f29", "f30", "f31", "ra", "31", "fp", "gp"].map Register.mk

def returnRegister : Register := ⟨"return"⟩

def conditionRegister : Register := ⟨"condition_bit"⟩

def newTemp (value : Expr) (register : String) (exactlyOnce trivial : Bool) : Evaluation Expr := do
  if exactlyOnce then use value
  expect (register != "")
  let stem := "temp_" ++ if register == "condition_bit" then "cond" else register
  let id := (← get).temps.size
  modify fun s => { s with temps := s.temps.push {
    value := value
    type := value.type
    stem := stem
    exactlyOnce := exactlyOnce
    trivial := trivial } }
  write (.setTemp id)
  return .temp id value.type

def hold (r : Register) (e : Expr) : Evaluation Unit := do
  expect (r != .zero)
  modifyWork fun w => { w with registers := w.registers.insert r e }

def holdResult (r : Register) (e : Expr) : Evaluation Unit := do
  hold r e
  if r.name == "f0" || r.name == "v0" then
    hold returnRegister e
    modifyWork fun w => { w with customReturn := true }

/-- Sets a register. What was stored on the stack from the same register is put back unchanged. A
value for the register zero is computed for its effect. -/
def assign (r : Register) (e : Expr) : Evaluation Unit := do
  let e ← match e with
    | .stackVar place _ =>
      match (← get).work.stored.get? place with
      | some (r', old) => pure (if r' == r then old else e)
      | none => pure e
    | _ => pure e
  let e ← if e.isLiteral then pure e else newTemp e r.name false e.isTrivial
  if r == .zero then
    use e
    write (.run e)
  else holdResult r e

def protect (p : Session → Expr → Bool) : Evaluation Unit := do
  (← get).work.registers.keys.forM fun r => do
    match ← peek r with
    | none => pure ()
    | some (.forced _ _) => pure ()
    | some e =>
      if p (← get) e then
        let held ← match e with
          | .temp _ _ => pure e
          | _ => newTemp e r.name false false
        match held with
        | .temp id type => hold r (.forced id type)
        | _ => pure ()

def protectFromStore (dest : Expr) : Evaluation Unit :=
  protect fun s e => s.mentions (fun part => part.same dest) e && !e.isUntouched

def protectCalls : Evaluation Unit :=
  protect fun s e => s.mentions (fun
    | .call _ _ _ => true
    | _ => false) e

def protectReads : Evaluation Unit :=
  protect fun s e => s.mentions (fun
    | .member _ _ _ _ _ => true
    | .element _ _ _ => true
    | _ => false) e

end Decompiler.Eval
