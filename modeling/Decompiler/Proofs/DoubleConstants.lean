import Decompiler.Proofs.Arithmetic
import Decompiler.Proofs.TreeWalk

/-!
# Constants in two registers

A double precision constant stands in an even register and the one behind it. The two halves are
joined without a limit to their bits: a lower half that is a negative number has ones in all the
places of the upper half.

Main statement: `doubleAt_joins`.
-/

namespace Decompiler

open Asm Code Infer

namespace Integer

variable (m n : Int)

lemma ofInt_lnot : BitVec.ofInt width (lnot m) = ~~~BitVec.ofInt width m :=
  ((Arithmetic.words width true).unary_complement m).symm

lemma ofInt_land : BitVec.ofInt width (land m n) = BitVec.ofInt width m &&& BitVec.ofInt width n := by
  cases m <;> cases n <;>
    simp only [land, Int.ofNat_eq_natCast, BitVec.ofInt_natCast, BitVec.ofInt_negSucc_eq_not_ofNat] <;>
    ext <;> simp <;> grind

lemma ofInt_lor : BitVec.ofInt width (lor m n) = BitVec.ofInt width m ||| BitVec.ofInt width n := by
  rw [lor, ofInt_lnot, ofInt_land, ofInt_lnot, ofInt_lnot, BitVec.not_and]
  simp

lemma ofInt_eq_iff {m n : Int} :
    BitVec.ofInt width m = BitVec.ofInt width n ↔ m % 2 ^ width = n % 2 ^ width := by
  rw [← BitVec.toNat_inj, BitVec.toNat_ofInt, BitVec.toNat_ofInt]
  push_cast
  omega

lemma ofInt_split : BitVec.ofInt 64 n = BitVec.ofInt 32 (n / 2 ^ 32) ++ BitVec.ofInt 32 n := by
  apply BitVec.eq_of_toNat_eq
  rw [BitVec.toNat_append, ← Nat.shiftLeft_add_eq_or_of_lt (BitVec.isLt _)]
  simp only [BitVec.toNat_ofInt]
  omega

/-- Whatever a number has above its lowest word is in another word too. -/
def Covered (low high : Int) : Prop :=
  BitVec.ofInt 32 (low / 2 ^ 32) ||| BitVec.ofInt 32 high = BitVec.ofInt 32 high

lemma ofInt_joined : BitVec.ofInt 64 (lor low (shiftLeft high 32)) =
    (BitVec.ofInt 32 (low / 2 ^ 32) ||| BitVec.ofInt 32 high) ++ BitVec.ofInt 32 low := by
  have upper : shiftLeft high 32 / 2 ^ 32 = high := Int.mul_ediv_cancel _ (by decide)
  have lower : BitVec.ofInt 32 (shiftLeft high 32) = 0#32 :=
    (ofInt_eq_iff (n := 0)).2 (Int.mul_emod_left high (2 ^ 32))
  rw [ofInt_lor, ofInt_split low, ofInt_split (shiftLeft high 32), upper, lower,
    BitVec.or_append, BitVec.or_zero]

lemma ofInt_halves : BitVec.ofInt 64 (low % 2 ^ 32 + 2 ^ 32 * (high % 2 ^ 32)) =
    BitVec.ofInt 32 high ++ BitVec.ofInt 32 low := by
  rw [ofInt_split]
  congr 1 <;> exact ofInt_eq_iff.2 (by omega)

lemma joined_iff : lor low (shiftLeft high 32) % 2 ^ 64 = low % 2 ^ 32 + 2 ^ 32 * (high % 2 ^ 32) ↔
    Covered low high := by
  have range : low % 2 ^ 32 + 2 ^ 32 * (high % 2 ^ 32) =
      (low % 2 ^ 32 + 2 ^ 32 * (high % 2 ^ 32)) % 2 ^ 64 := by omega
  rw [range, ← ofInt_eq_iff, ofInt_joined, ofInt_halves, BitVec.append_left_inj, Covered]

lemma covered_iff (above : -2 ^ 32 ≤ low) (below : low < 2 ^ 32) :
    Covered low high ↔ 0 ≤ low ∨ high % 2 ^ 32 = 2 ^ 32 - 1 := by
  by_cases sign : 0 ≤ low
  · have none : low / 2 ^ 32 = 0 := Int.ediv_eq_zero_of_lt sign below
    have zero : BitVec.ofInt 32 0 = 0#32 := rfl
    rw [Covered, none, zero, BitVec.zero_or]
    exact iff_of_true rfl (.inl sign)
  · have ones : low / 2 ^ 32 = -1 := by omega
    have all : BitVec.ofInt 32 (-1) = BitVec.allOnes 32 := by decide
    have whole : high % 2 ^ 32 = -1 % 2 ^ 32 ↔ high % 2 ^ 32 = 2 ^ 32 - 1 := by omega
    rw [Covered, ones, all, BitVec.allOnes_or, ← all, eq_comm, ofInt_eq_iff, whole, or_iff_right sign]

end Integer

namespace Eval

section

variable {s : Session} {r : Register} {args index}

lemma isFloat_ne_zero (float : r.isFloat = .ok true) : r ≠ .zero := by
  rintro rfl
  cases float

lemma read_literal (other : r ≠ .zero) (holds : s.work.registers.get? r = some (.literal n t)) :
    (read r).run s = (.ok (.literal n t), s) := by
  unfold read readFrom
  rw [run_bind_of_ok (x := get) rfl, holds, if_neg (by simpa using other)]
  rfl

lemma wordLiteral?_literal (size : s.types.store.sizeBits t ≠ 64) :
    (wordLiteral? (.literal n t)).run s = (.ok (some n), s) := by
  have bits : (sizeBits t).run s = (.ok (s.types.store.sizeBits t), s) := rfl
  unfold wordLiteral?
  rw [run_bind_of_ok bits, if_neg (by simpa using size)]
  rfl

/-- An even floating-point register and the next one hold numbers, none of them a double precision
value of its own. -/
inductive Session.Halves (s : Session) (r : Register) (low high : Int) : Prop
  | intro (float : r.isFloat = .ok true) (numbered : r.number = .ok number)
      (even : number % 2 = 0) (first : s.work.registers.get? r = some (.literal low t))
      (second : s.work.registers.get? ⟨"f" ++ toString (number + 1)⟩ = some (.literal high u))
      (size : s.types.store.sizeBits t ≠ 64) (size' : s.types.store.sizeBits u ≠ 64)

variable {low high : Int}

lemma doubleAt_run (register : registerAt args index = .ok r) (halves : s.Halves r low high) :
    ∃ t s', (doubleAt args index).run s =
      (.ok (.literal (Integer.lor low (Integer.shiftLeft high 32)) t), s') := by
  obtain @⟨number, _, _, float, numbered, even, first, second, size, size'⟩ := halves
  obtain ⟨t, s', fresh⟩ := freshType_total .double s
  have lift {α : Type} {x : Except Failure α} {a} (h : x = .ok a) :
      (liftM x : Evaluation α).run s = (.ok a, s) := by rw [h]; rfl
  have other : (⟨"f" ++ toString (number + 1)⟩ : Register) ≠ .zero := by
    simp [Register.zero, String.ext_iff]
  refine ⟨t, s', ?_⟩
  unfold doubleAt
  rw [run_bind_of_ok (lift register), run_bind_of_ok (lift float), Bool.not_true,
    if_neg Bool.false_ne_true]
  rw [run_bind_of_ok (read_literal (isFloat_ne_zero float) first),
    run_bind_of_ok (wordLiteral?_literal size)]
  rw [run_bind_of_ok (lift numbered), if_neg (by simpa using even),
    run_bind_of_ok (read_literal other second), run_bind_of_ok (wordLiteral?_literal size')]
  rw [run_bind_of_ok fresh]
  rfl

/-- Two halves are joined to the constant that they stand for, unless the lower one is negative and
the upper one is not all ones. -/
theorem doubleAt_joins (register : registerAt args index = .ok r) (halves : s.Halves r low high) :
    ∃ n t s', (doubleAt args index).run s = (.ok (.literal n t), s') ∧
      (n % 2 ^ 64 = low % 2 ^ 32 + 2 ^ 32 * (high % 2 ^ 32) ↔ Integer.Covered low high) ∧
      (-2 ^ 32 ≤ low → low < 2 ^ 32 →
        (Integer.Covered low high ↔ 0 ≤ low ∨ high % 2 ^ 32 = 2 ^ 32 - 1)) := by
  obtain ⟨t, s', run⟩ := doubleAt_run register halves
  exact ⟨_, t, s', run, Integer.joined_iff, Integer.covered_iff⟩

end

def twoHalves (low high : Int) : Session where
  rodata := {}
  work := { registers := .ofList [(⟨"f0"⟩, .literal low 0), (⟨"f1"⟩, .literal high 0)] }

def joinedHalves (low high : Int) : Option Int :=
  match ((doubleAt [.register ⟨"f0"⟩] 0).run (twoHalves low high)).1 with
  | .ok (.literal n _) => some n
  | _ => none

theorem doubleAt_joins_unsigned : ∃ n t s',
    (doubleAt [.register ⟨"f0"⟩] 0).run (twoHalves 0x89abcdef (-0x40100000)) =
      (.ok (.literal n t), s') ∧ n % 2 ^ 64 = 0xbff0000089abcdef := by
  have number : Register.number ⟨"f0"⟩ = .ok 0 := by decide +kernel
  have next : "f" ++ toString (0 + 1 : Int) = "f1" := by decide +kernel
  have halves : (twoHalves 0x89abcdef (-0x40100000)).Halves ⟨"f0"⟩ 0x89abcdef (-0x40100000) :=
    .intro (t := 0) (u := 0) rfl number rfl rfl (by rw [next]; rfl) (by decide) (by decide)
  have register : registerAt [.register ⟨"f0"⟩] 0 = .ok ⟨"f0"⟩ := rfl
  obtain ⟨n, t, s', run, joined, covered⟩ := doubleAt_joins register halves
  exact ⟨n, t, s', run, joined.2 ((covered (by decide) (by decide)).2 (.inl (by decide)))⟩

/-- A negative lower half hides the upper one. -/
theorem doubleAt_not_joins : joinedHalves (-1) 0x3ff00000 = some (-1) ∧
    -1 % 2 ^ 64 ≠ -1 % 2 ^ 32 + 2 ^ 32 * (0x3ff00000 % 2 ^ 32 : Int) := by
  decide +kernel

end Eval

end Decompiler
