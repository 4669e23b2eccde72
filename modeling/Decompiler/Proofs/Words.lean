import Mathlib
import Decompiler.Eval.Assign

/-!
# Words in registers and memory

A machine with registers of 32 bits and a memory of bytes, and the instructions of a straight piece
of code: moves, constants, sums, bitwise operations, shifts, loads and stores.
-/

namespace Decompiler

open Asm

abbrev Word := BitVec 32

abbrev Memory := Word → BitVec 8

def wordBytes (a : Word) : List Word :=
  [a, a + 1, a + 2, a + 3]

def overlaps (a b : Word) : Bool :=
  (wordBytes a).any (wordBytes b).contains

namespace Memory

def read (m : Memory) (a : Word) : Word :=
  m a ++ m (a + 1) ++ m (a + 2) ++ m (a + 3)

def write (m : Memory) (a v : Word) : Memory := fun b =>
  if b = a then v.extractLsb' 24 8
  else if b = a + 1 then v.extractLsb' 16 8
  else if b = a + 2 then v.extractLsb' 8 8
  else if b = a + 3 then v.extractLsb' 0 8
  else m b

lemma write_apply_of_not_mem {m : Memory} (h : b ∉ wordBytes a) : m.write a v b = m b := by
  simp only [wordBytes, List.mem_cons, List.not_mem_nil, or_false, not_or] at h
  obtain ⟨h0, h1, h2, h3⟩ := h
  rw [write, if_neg h0, if_neg h1, if_neg h2, if_neg h3]

/-- A write elsewhere is not seen. -/
lemma read_write_of_apart {m : Memory} (apart : overlaps b a = false) :
    (m.write a v).read b = m.read b := by
  have outside (c : Word) (h : c ∈ wordBytes b) : m.write a v c = m c := by
    refine write_apply_of_not_mem fun mem => ?_
    have := List.any_eq_false.1 apart c h
    exact this (List.contains_iff_mem.2 mem)
  simp only [wordBytes, List.mem_cons, List.not_mem_nil, or_false] at outside
  simp only [read, outside, true_or, or_true]

end Memory

structure Machine where
  registers : Register → Word
  memory : Memory

namespace Machine

def get (μ : Machine) (r : Register) : Word :=
  if r = .zero then 0 else μ.registers r

def set (μ : Machine) (r : Register) (v : Word) : Machine :=
  { μ with registers := fun r' => if r' = r then v else μ.registers r' }

lemma get_set_self {μ : Machine} (h : r ≠ .zero) (v : Word) : (μ.set r v).get r = v := by
  simp [get, set, h]

lemma get_set_of_ne {μ : Machine} (h : r' ≠ r) (v : Word) : (μ.set r v).get r' = μ.get r' := by
  simp [get, set, h]

end Machine

inductive WordOp where
  | addu | subu | and | or | xor
  deriving DecidableEq

def WordOp.apply : WordOp → Word → Word → Word
  | .addu, a, b => a + b
  | .subu, a, b => a - b
  | .and, a, b => a &&& b
  | .or, a, b => a ||| b
  | .xor, a, b => a ^^^ b

inductive Op where
  | move (target source : Register)
  | li (target : Register) (value : Int)
  | binary (op : WordOp) (target left right : Register)
  | addiu (target source : Register) (value : Int)
  | sll (target source : Register) (amount : Nat)
  | lw (target base : Register) (offset : Int)
  | sw (source base : Register) (offset : Int)
  deriving DecidableEq

namespace Op

def place? : Operand → Option (Register × Int)
  | .memory base => some (base, 0)
  | .memoryAt (.literal n) base => some (base, Integer.signed16 n)
  | _ => none

/-- What an instruction does, if it belongs to a straight piece of code. Immediate operands have
sixteen bits, and shifts are by less than a word. -/
def ofInstruction? (i : Instruction) : Option Op :=
  match i.mnemonic, i.args with
  | "move", [.register t, .register s] => some (.move t s)
  | "li", [.register t, .literal n] => some (.li t n)
  | "addu", [.register t, .register l, .register r] => some (.binary .addu t l r)
  | "subu", [.register t, .register l, .register r] => some (.binary .subu t l r)
  | "and", [.register t, .register l, .register r] => some (.binary .and t l r)
  | "or", [.register t, .register l, .register r] => some (.binary .or t l r)
  | "xor", [.register t, .register l, .register r] => some (.binary .xor t l r)
  | "addiu", [.register t, .register s, .literal n] => some (.addiu t s (Integer.signed16 n))
  | "sll", [.register t, .register s, .literal n] =>
    if 0 ≤ n ∧ n < 32 then some (.sll t s n.toNat) else none
  | "lw", [.register t, operand] => (place? operand).map fun (base, n) => .lw t base n
  | "sw", [.register s, operand] => (place? operand).map fun (base, n) => .sw s base n
  | _, _ => none

def target? : Op → Option Register
  | .move t _ | .li t _ | .binary _ t _ _ | .addiu t _ _ | .sll t _ _ | .lw t _ _ => some t
  | .sw _ _ _ => none

def sources : Op → List Register
  | .move _ s | .addiu _ s _ | .sll _ s _ => [s]
  | .li _ _ => []
  | .binary _ _ l r => [l, r]
  | .lw _ base _ => [base]
  | .sw s base _ => [s, base]

def addressed : Op → List Register
  | .binary .addu _ l r => [l, r]
  | .addiu _ s _ => [s]
  | .lw _ base _ | .sw _ base _ => [base]
  | _ => []

/-- One instruction. -/
def step : Op → Machine → Machine
  | .move t s, μ => μ.set t (μ.get s)
  | .li t n, μ => μ.set t (BitVec.ofInt 32 n)
  | .binary op t l r, μ => μ.set t (op.apply (μ.get l) (μ.get r))
  | .addiu t s n, μ => μ.set t (μ.get s + BitVec.ofInt 32 n)
  | .sll t s n, μ => μ.set t (μ.get s <<< n)
  | .lw t base n, μ => μ.set t (μ.memory.read (μ.get base + BitVec.ofInt 32 n))
  | .sw s base n, μ =>
    { μ with memory := μ.memory.write (μ.get base + BitVec.ofInt 32 n) (μ.get s) }

def run (ops : List Op) (μ : Machine) : Machine :=
  ops.foldl (fun μ op => op.step μ) μ

end Op

def generalRegisters : List Register :=
  ["zero", "at", "v0", "v1", "a0", "a1", "a2", "a3", "t0", "t1", "t2", "t3", "t4", "t5", "t6", "t7",
   "s0", "s1", "s2", "s3", "s4", "s5", "s6", "s7", "t8", "t9", "k0", "k1", "gp", "sp", "fp",
   "ra"].map Register.mk

def entryRegisters : List Register :=
  ["zero", "a0", "a1", "a2", "a3", "s0", "s1", "s2", "s3", "s4", "s5", "s6", "s7", "gp", "sp", "fp",
   "ra"].map Register.mk

def readsSet : List Register → List Op → Bool
  | _, [] => true
  | known, op :: ops =>
    op.sources.all known.contains && readsSet (op.target?.toList ++ known) ops

end Decompiler
