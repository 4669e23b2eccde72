/-!
# Sets of nodes

A set of node numbers, kept as the bits of a natural number.
-/

namespace Decompiler.Flow

structure NodeSet where
  bits : Nat := 0
  deriving DecidableEq, Inhabited

namespace NodeSet

def empty : NodeSet := ⟨0⟩

def single (i : Nat) : NodeSet := ⟨1 <<< i⟩

def below (n : Nat) : NodeSet := ⟨Nat.pow 2 n - 1⟩

def contains (s : NodeSet) (i : Nat) : Bool := s.bits.testBit i

def union (s t : NodeSet) : NodeSet := ⟨s.bits ||| t.bits⟩

def inter (s t : NodeSet) : NodeSet := ⟨s.bits &&& t.bits⟩

def insert (s : NodeSet) (i : Nat) : NodeSet := s.union (single i)

def toList (s : NodeSet) (n : Nat) : List Nat := (List.range n).filter s.contains

def size (s : NodeSet) (n : Nat) : Nat := (s.toList n).length

theorem contains_union (s t : NodeSet) (i : Nat) :
    (s.union t).contains i = (s.contains i || t.contains i) := by
  simp [union, contains]

theorem contains_inter (s t : NodeSet) (i : Nat) :
    (s.inter t).contains i = (s.contains i && t.contains i) := by
  simp [inter, contains]

theorem contains_below (n i : Nat) : (below n).contains i = decide (i < n) := by
  simp [below, contains, Nat.testBit_two_pow_sub_one]

end NodeSet

end Decompiler.Flow
