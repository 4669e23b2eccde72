import Mathlib
import Decompiler.Eval.Frame

/-!
# Which instructions decide a frame

The frame of a function is read off its first block. A call is meant to end that, but only a call
whose operand is a register does so: a call of a symbol is passed over like any other instruction.
So the frame may depend on what stands behind the first call.

Main statement: `ofEntry_decided`.
-/

namespace Decompiler.Eval.Frame

open Asm

def EndsSetup (i : Instruction) : Prop :=
  i.mnemonic = "jal" ∧ ∃ r, i.args.head? = some (.register r)

/-- Moves the stack pointer, sets the frame pointer or stores a register of the caller. -/
def setsUp (i : Instruction) : Bool :=
  match i.args.head? with
  | some (.register r) =>
    i.mnemonic == "addiu" && r.name == "sp" || i.mnemonic == "move" && r.name == "fp" ||
      ["sw", "swc1", "sdc1"].contains i.mnemonic && (r.name == "ra" || r.isCalleeSaved)
  | _ => false

/-- The instructions that a frame is read off, up to a call that ends the search. -/
def setup : List Instruction → List Instruction
  | [] => []
  | i :: is =>
    match i.args.head? with
    | some (.register _) =>
      if i.mnemonic == "jal" then [] else if setsUp i then i :: setup is else setup is
    | _ => setup is

section

variable {i : Instruction}

lemma step_of_not_setsUp {f : Frame} (first : i.args.head? = some (.register r))
    (h : setsUp i = false) : f.step i r = .ok f := by
  simp only [setsUp, first, Bool.or_eq_false_iff] at h
  obtain ⟨⟨sp, fp⟩, stores⟩ := h
  have ra : (i.mnemonic == "sw" && r.name == "ra") = false := by
    rw [Bool.eq_false_iff]
    intro saves
    obtain ⟨sw, ra⟩ := Bool.and_eq_true_iff.1 saves
    rw [eq_of_beq sw, ra, Bool.true_or] at stores
    exact absurd stores (by decide)
  have saved : (["sw", "swc1", "sdc1"].contains i.mnemonic && r.isCalleeSaved) = false := by
    revert stores
    cases r.isCalleeSaved <;> simp
  simp only [step, sp, fp, ra, saved]
  rfl

lemma scan_setup (f : Frame) (is : List Instruction) : f.scan is = f.scan (setup is) := by
  induction is generalizing f with
  | nil => rfl
  | cons i is ih =>
    cases first : i.args.head? with
    | none => simpa only [scan, setup, first] using ih f
    | some operand =>
      cases operand with
      | register r =>
        cases call : i.mnemonic == "jal" with
        | true =>
          simp only [scan, setup, first, call]
          rfl
        | false =>
          cases sets : setsUp i with
          | true => simp [scan, setup, first, call, sets, ih]
          | false =>
            simp only [scan, setup, first, call, sets, step_of_not_setsUp first sets]
            exact ih f
      | _ => simpa only [scan, setup, first] using ih f

lemma setup_cons (agree : EndsSetup i ∨ setup after = setup after') :
    setup (i :: after) = setup (i :: after') := by
  unfold setup
  rcases agree with ⟨jal, r, first⟩ | same
  · simp [first, jal]
  · rw [same]

end

/-- Two blocks that agree up to a call have the same frame if the operand of the call is a register,
or if they also agree on the later instructions that set a frame up. -/
theorem ofEntry_decided {before after after' : List Instruction} {call : Instruction}
    (agree : EndsSetup call ∨ setup after = setup after') :
    ofEntry (before ++ call :: after) = ofEntry (before ++ call :: after') := by
  have same : setup (before ++ call :: after) = setup (before ++ call :: after') := by
    induction before with
    | nil => exact setup_cons agree
    | cons i before ih => exact setup_cons (.inr ih)
  rw [ofEntry, ofEntry, scan_setup, same, ← scan_setup]

def saveFirst (place : Int) : Instruction :=
  ⟨"sw", [.register ⟨"s0"⟩, .memoryAt (.literal place) ⟨"sp"⟩], .unknown⟩

theorem ofEntry_decided_savedBefore :
    setup [⟨"nop", [], .unknown⟩, ⟨"lw", [.register ⟨"s0"⟩, .memory ⟨"v0"⟩], .unknown⟩] = setup [] ∧
      ofEntry ([saveFirst 16] ++ ⟨"jal", [.symbol "f"], .unknown⟩ ::
          [⟨"nop", [], .unknown⟩, ⟨"lw", [.register ⟨"s0"⟩, .memory ⟨"v0"⟩], .unknown⟩]) =
        ofEntry ([saveFirst 16] ++ ⟨"jal", [.symbol "f"], .unknown⟩ :: []) :=
  ⟨rfl, ofEntry_decided (.inr rfl)⟩

/-- What is stored behind a call of a symbol moves the local variables. -/
theorem ofEntry_undecided :
    (ofEntry [⟨"jal", [.symbol "f"], .unknown⟩, saveFirst 16]).toOption.map (·.localsStart) = some 20 ∧
      (ofEntry [⟨"jal", [.symbol "f"], .unknown⟩]).toOption.map (·.localsStart) = some 0 := by
  decide +kernel

end Decompiler.Eval.Frame
