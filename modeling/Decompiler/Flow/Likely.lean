import Decompiler.Asm.File

/-!
# Branches that share an instruction with their target

A likely branch runs its delay slot only when it is taken. Compilers use one where the delay slot
repeats the instruction in front of the target label. Such a branch is replaced by a plain one to
that instruction, and so is an unconditional branch with such a delay slot.
-/

namespace Decompiler.Flow

open Asm

def inverse? : String → Option String
  | "beq" => some "bne"
  | "bne" => some "beq"
  | "beqz" => some "bnez"
  | "bnez" => some "beqz"
  | "bgez" => some "bltz"
  | "bgtz" => some "blez"
  | "blez" => some "bgtz"
  | "bltz" => some "bgez"
  | "bc1t" => some "bc1f"
  | "bc1f" => some "bc1t"
  | _ => none

def invertLikely (mnemonic : String) : Except Failure String :=
  match inverse? (String.ofList mnemonic.toList.dropLast) with
  | some m => pure m
  | none => throw .missingName

def instructionBefore? (body : Array Item) (i : Nat) : Option Instruction :=
  match i with
  | 0 => none
  | k + 1 =>
    match body[k]? with
    | some (.instruction ins) => some ins
    | _ => none

def labelBefore? (body : Array Item) (i : Nat) : Option String :=
  match i with
  | 0 => none
  | k + 1 =>
    match body[k]? with
    | some (.label name) => some name
    | _ => none

def labelPosition? (body : Array Item) (name : String) : Option Nat :=
  (List.range body.size).reverse.find? fun k => body[k]? == some (.label name)

abbrev Placed := List (Option Nat × Item)

abbrev NewLabels := List (Nat × String)

/-- The label in front of a position, and the new labels with it; `fallback` is used if there is
none yet. -/
def ensureLabel (body : Array Item) (new : NewLabels) (i : Nat) (fallback : String) :
    String × NewLabels :=
  match labelBefore? body i, new.lookup i with
  | some name, _ => (name, new)
  | none, some name => (name, new)
  | none, none => (fallback, (i, fallback) :: new)

def replaceBranch (body : Array Item) (new : NewLabels) (i : Nat) (branch : Instruction)
    (next : Item) (label : String) (position : Nat) : Except Failure (Placed × NewLabels) :=
  let kept : Placed := [(some i, .instruction branch), (some (i + 1), next)]
  let unconditional := branch.mnemonic == "b"
  match next, instructionBefore? body position with
  | .instruction slot, some repeated =>
    let source := position - 1
    let inDelaySlot := match instructionBefore? body source with
      | some ins => ins.hasDelaySlot
      | none => false
    if unconditional && inDelaySlot then pure (kept, new)
    else if source == i + 1 && !unconditional then do
      let inverted := Instruction.derived (← invertLikely branch.mnemonic) branch.args branch
      return ([(some i, .instruction inverted),
        (none, .instruction (.derived "nop" [] inverted)), (some (i + 1), next)], new)
    else if source != i + 1 && repeated.text == slot.text &&
        (!unconditional || slot.mnemonic != "nop") then
      let (target, new) := ensureLabel body new source (label ++ "_before")
      let mnemonic :=
        if unconditional then "b" else String.ofList branch.mnemonic.toList.dropLast
      let plain := Instruction.derived mnemonic (branch.args.dropLast ++ [.target target]) branch
      pure ([(some i, .instruction plain),
        (some (i + 1), .instruction (.derived "nop" [] plain))], new)
    else pure (kept, new)
  | _, _ => pure (kept, new)

/-- Replaces the branches in the part of a body that starts at position `i`. -/
def replaceFrom (body : Array Item) (new : NewLabels) (i : Nat) :
    List Item → Except Failure (Placed × NewLabels)
  | [] => pure ([], new)
  | item :: rest =>
    let keep : Except Failure (Placed × NewLabels) := do
      let (placed, new) ← replaceFrom body new (i + 1) rest
      return ((some i, item) :: placed, new)
    match item with
    | .label _ => keep
    | .instruction ins =>
      if ins.isLikelyBranch || ins.mnemonic == "b" then do
        let label ← ins.target
        match labelPosition? body label with
        | none => throw .missingName
        | some position =>
          match rest with
          | [] => throw .endOfCode
          | next :: rest => do
            let (here, new) ← replaceBranch body new i ins next label position
            let (placed, new) ← replaceFrom body new (i + 2) rest
            return (here ++ placed, new)
      else keep

def withLabels (placed : Placed) (new : NewLabels) : List Item :=
  placed.flatMap fun (position, item) =>
    match position.bind fun i => new.lookup i with
    | some name => [.label name, item]
    | none => [item]

/-- The body of a function with plain branches in place of those that share an instruction with
their target. -/
def plainBranches (body : List Item) : Except Failure (List Item) := do
  let (placed, new) ← replaceFrom body.toArray [] 0 body
  return withLabels placed new

end Decompiler.Flow
