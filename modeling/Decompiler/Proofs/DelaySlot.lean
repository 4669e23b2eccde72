import Decompiler.Asm.File
import Decompiler.Proofs.Run

/-!
# Delay slots

The meaning of code on a machine with delay slots. The machine is left open: it says what the
instructions do to a state, what the tests of branches answer and where indirect jumps go. Control
is fixed here:

* a jump reads the state that it finds, then the instruction behind it (its delay slot) runs, and
  then control goes elsewhere;
* a likely branch that is not taken skips its delay slot;
* a call runs its delay slot before the called function, and control comes back behind the slot.

A run shows the instructions that it executes, apart from jumps and those that do nothing, and the
answer to each test with the place of the branch and the state in which it asked.
-/

namespace Decompiler.Flow

open Asm Run Instruction

inductive Test where
  | equal
  | zero
  | nonNegative
  | positive
  /-- Whether the last floating-point comparison held. -/
  | flag
  deriving DecidableEq

def test? : String → Option (Test × Bool)
  | "beq" => some (.equal, true)
  | "bne" => some (.equal, false)
  | "beqz" => some (.zero, true)
  | "bnez" => some (.zero, false)
  | "bgez" => some (.nonNegative, true)
  | "bltz" => some (.nonNegative, false)
  | "bgtz" => some (.positive, true)
  | "blez" => some (.positive, false)
  | "bc1t" => some (.flag, true)
  | "bc1f" => some (.flag, false)
  | _ => none

/-- A machine, apart from control. -/
structure Machine (σ : Type) where
  /-- What an instruction does, by how it is written. -/
  effect : String → σ → σ
  answer : Test → List Operand → σ → Bool
  /-- The label that an indirect jump goes to; none if it leaves the code. -/
  destination : List Operand → σ → Option String
  link : String → σ → σ
  /-- What a called function does, given the state in which the call read its operands and the
  state behind the delay slot. -/
  callee : String → σ → σ → σ

inductive Event (σ : Type) where
  | ran (text : String)
  | tested (file : String) (line : Nat) (answer : Bool) (state : σ)
  | selected (file : String) (line : Nat) (label : String) (state : σ)
  deriving DecidableEq

inductive Result (σ : Type) where
  | left (s : σ)
  | pastEnd (s : σ)
  | stray (label : String) (s : σ)
  /-- The machine does not say what happens, as for a jump in a delay slot. -/
  | unpredictable (s : σ)
  deriving DecidableEq

inductive Place (ι σ : Type) where
  | here (code : ι) (s : σ)
  | over (r : Result σ)
  deriving DecidableEq

def isNop (i : Instruction) : Bool :=
  i.mnemonic == "nop"

def plainName (i : Instruction) : String :=
  if i.isLikelyBranch then String.ofList i.mnemonic.toList.dropLast else i.mnemonic

def shown {σ : Type} (i : Instruction) : List (Event σ) :=
  if isNop i then [] else [.ran i.text]

def land {ι σ : Type} (find : String → Option ι) (label : String) (s : σ) : Place ι σ :=
  match find label with
  | some code => .here code s
  | none => .over (.stray label s)

def landAt {ι σ : Type} (find : String → Option ι) (i : Instruction) (s : σ) : Place ι σ :=
  match i.target with
  | .ok label => land find label s
  | .error _ => .over (.unpredictable s)

namespace Machine

variable {ι σ : Type}

def run (m : Machine σ) (i : Instruction) (s : σ) : σ :=
  if isNop i then s else m.effect i.text s

def taken (m : Machine σ) (i : Instruction) (s : σ) : Bool × List (Event σ) :=
  match test? (plainName i) with
  | some (t, wanted) =>
    let answer := m.answer t i.args.dropLast s
    (answer == wanted, [.tested i.origin.file i.origin.line answer s])
  | none => (true, [])

def selection (m : Machine σ) (i : Instruction) (s : σ) : Option String :=
  if i.args.head? == some (.register ⟨"ra"⟩) then none else m.destination i.args s

def branch (m : Machine σ) (find : String → Option ι) (next : ι) (i slot : Instruction) (s : σ) :
    Outcome (Place ι σ) (Event σ) (Result σ) :=
  let (isTaken, events) := m.taken i s
  if isTaken then .goOn (events ++ shown slot) (landAt find i (m.run slot s))
  else if i.isLikelyBranch then .goOn events (.here next s)
  else .goOn (events ++ shown slot) (.here next (m.run slot s))

def indirect (m : Machine σ) (find : String → Option ι) (i slot : Instruction) (s : σ) :
    Outcome (Place ι σ) (Event σ) (Result σ) :=
  match m.selection i s with
  | none => .goOn (shown slot) (.over (.left (m.run slot s)))
  | some label =>
    .goOn (.selected i.origin.file i.origin.line label s :: shown slot)
      (land find label (m.run slot s))

def jump (m : Machine σ) (find : String → Option ι) (next : ι) (i slot : Instruction) (s : σ) :
    Outcome (Place ι σ) (Event σ) (Result σ) :=
  if i.isBranch then m.branch find next i slot s else m.indirect find i slot s

def call (m : Machine σ) (i slot : Instruction) (s : σ) : σ :=
  m.callee i.text s (m.run slot (m.link i.text s))

def recorder : Machine (List String) where
  effect text s := s ++ [text]
  answer _ _ _ := true
  destination _ _ := none
  link _ s := s
  callee text _ s := s ++ [text]

end Machine

/-- A register is written by its name, also where it is an operand. -/
instance : Coe String Register := ⟨.mk⟩

instance : Coe Register Operand := ⟨.register⟩

def inLine (line : Nat) (mnemonic : String) (args : List Operand) : Item :=
  .instruction ⟨mnemonic, args, ⟨false, "input.s", line, false⟩⟩

lemma isBranch_of_likely {i : Instruction} (h : i.isLikelyBranch) : i.isBranch := by
  rw [isBranch, h, Bool.or_true]

lemma isJump_of_isBranch {i : Instruction} (h : i.isBranch) : i.isJump := by
  rw [isJump, h, Bool.true_or]

lemma hasDelaySlot_of_isJump {i : Instruction} (h : i.isJump) : i.hasDelaySlot := by
  unfold isJump at h
  rw [hasDelaySlot, h, Bool.true_or, Bool.true_or]

section

variable {σ : Type} {m : Machine σ} {i : Instruction}

lemma nop_plain (h : i.mnemonic = "nop") : i.hasDelaySlot = false := by
  rw [hasDelaySlot, isBranch, isLikelyBranch, h]
  decide +kernel

lemma shown_nop (h : i.mnemonic = "nop") : shown (σ := σ) i = [] := by
  rw [shown, isNop, h]
  rfl

lemma run_nop (h : i.mnemonic = "nop") : m.run i s = s := by
  rw [Machine.run, isNop, h]
  rfl

end

def firstInstruction : List Item → Option (Instruction × List Item)
  | [] => none
  | .label _ :: rest => firstInstruction rest
  | .instruction i :: rest => some (i, rest)

def behind : List Item → String → Option (List Item)
  | [], _ => none
  | .label name :: rest, label => if name = label then some rest else behind rest label
  | .instruction _ :: rest, label => behind rest label

def labels : List Item → List String
  | [] => []
  | .label name :: rest => name :: labels rest
  | .instruction _ :: rest => labels rest

lemma mem_labels : label ∈ labels body ↔ .label label ∈ body := by
  induction body with
  | nil => simp [labels]
  | cons item rest ih => cases item <;> simp [labels, ih]

/-- A jump goes behind the only place of its label. -/
lemma behind_of_getElem? (nd : (labels body).Nodup)
    (h : body[k]? = some (.label label)) : behind body label = some (body.drop (k + 1)) := by
  induction body generalizing k with
  | nil => cases h
  | cons item rest ih =>
    cases k with
    | zero => cases h; exact if_pos rfl
    | succ k =>
      have h' : rest[k]? = some (.label label) := by simpa using h
      cases item with
      | instruction i => exact ih nd h'
      | label name =>
        obtain ⟨notin, nd⟩ := List.nodup_cons.1 nd
        have ne : name ≠ label := fun e => notin (e ▸ mem_labels.2 (List.mem_of_getElem? h'))
        exact (if_neg ne).trans (ih nd h')

lemma label_position_unique {j k : Nat} (nd : (labels body).Nodup)
    (hj : body[j]? = some (.label label)) (hk : body[k]? = some (.label label)) : j = k := by
  have e := (behind_of_getElem? nd hj).symm.trans (behind_of_getElem? nd hk)
  have len := congrArg List.length (Option.some.inj e)
  have lt := (getElem?_eq_some_iff.1 hj).1
  have lt' := (getElem?_eq_some_iff.1 hk).1
  simp only [List.length_drop] at len
  omega

lemma target_of_args {i j : Instruction} (args : i.args = j.args) (h : i.target = .ok label) :
    j.target = .ok label := by
  unfold target at h ⊢
  rw [args] at h
  cases e : j.args.getLast? with
  | none => rw [e] at h; cases h
  | some operand =>
    rw [e] at h
    cases operand with
    | target name => exact h
    | _ =>
      simp only at h ⊢
      split at h
      · exact h
      · cases h

namespace Machine

variable {ι σ : Type}

def step (m : Machine σ) (body : List Item) :
    Place (List Item) σ → Outcome (Place (List Item) σ) (Event σ) (Result σ)
  | .over r => .stop r
  | .here code s =>
    match firstInstruction code with
    | none => .stop (.pastEnd s)
    | some (i, rest) =>
      if !i.hasDelaySlot then .goOn (shown i) (.here rest (m.run i s))
      else
        match firstInstruction rest with
        | none => .stop (.unpredictable s)
        | some (slot, next) =>
          if slot.hasDelaySlot then .stop (.unpredictable s)
          else if i.isJump then m.jump (behind body) next i slot s
          else .goOn (.ran i.text :: shown slot) (.here next (m.call i slot s))

variable {m : Machine σ} {i slot : Instruction}

lemma jump_taken {find : String → Option ι} {next label} (isBranch : i.isBranch)
    (target : i.target = .ok label) (h : (m.taken i s).1) :
    m.jump find next i slot s =
      .goOn ((m.taken i s).2 ++ shown slot) (land find label (m.run slot s)) := by
  simp [jump, branch, isBranch, h, landAt, target]

lemma jump_skipped {find : String → Option ι} {next} (likely : i.isLikelyBranch)
    (h : (m.taken i s).1 = false) :
    m.jump find next i slot s = .goOn (m.taken i s).2 (.here next s) := by
  simp [jump, branch, isBranch_of_likely likely, h, likely]

lemma jump_passed {find : String → Option ι} {next} (isBranch : i.isBranch)
    (unlikely : i.isLikelyBranch = false) (h : (m.taken i s).1 = false) :
    m.jump find next i slot s =
      .goOn ((m.taken i s).2 ++ shown slot) (.here next (m.run slot s)) := by
  simp [jump, branch, isBranch, h, unlikely]

lemma step_congr (h : firstInstruction code = firstInstruction code') :
    m.step body (.here code s) = m.step body (.here code' s) := by
  simp only [step, h]

section

variable (h : firstInstruction code = some (i, rest))

include h

lemma step_plain (plain : i.hasDelaySlot = false) :
    m.step body (.here code s) = .goOn (shown i) (.here rest (m.run i s)) := by
  simp [step, h, plain]

lemma step_jump (hs : firstInstruction rest = some (slot, next)) (jump : i.isJump)
    (plain : slot.hasDelaySlot = false) :
    m.step body (.here code s) = m.jump (behind body) next i slot s := by
  simp [step, h, hs, plain, jump, hasDelaySlot_of_isJump jump]

lemma step_call (hs : firstInstruction rest = some (slot, next)) (delay : i.hasDelaySlot)
    (call : i.isJump = false) (plain : slot.hasDelaySlot = false) :
    m.step body (.here code s) = .goOn (.ran i.text :: shown slot) (.here next (m.call i slot s)) := by
  simp [step, h, hs, plain, call, delay]

lemma step_unpredictable (delay : i.hasDelaySlot)
    (bad : ∀ {slot next}, firstInstruction rest = some (slot, next) → slot.hasDelaySlot) :
    m.step body (.here code s) = .stop (.unpredictable s) := by
  cases e : firstInstruction rest with
  | none => simp [step, h, delay, e]
  | some found => simp [step, h, delay, e, bad e]

end

end Machine

end Decompiler.Flow
