import Decompiler.Proofs.IdiomWindows

/-!
# Divisions by powers of two

A division by a power of two is a shift to the right, for negative numbers with a bias that lets the
quotient go toward zero. A window is taken for such a division by its mnemonics, its target and the
registers that it sets; the bias, the shifts and the registers that it reads are not looked at.

Main statement: `powerDivision_truncates`.
-/

namespace Decompiler.Flow

open Asm Integer

section

variable {v : Word}

lemma tdiv_of_neg {a d : Int} (neg : a < 0) (pos : 0 < d) : (a + (d - 1)) / d = a.tdiv d := by
  have whole := Int.mul_tdiv_add_tmod a d
  have above := Int.lt_tmod_of_pos a pos
  have below := Int.tmod_nonneg d (Int.neg_nonneg_of_nonpos (Int.le_of_lt neg))
  rw [Int.neg_tmod] at below
  exact ((Int.ediv_emod_unique pos).2 ⟨show a.tmod d + (d - 1) + d * a.tdiv d = _ by omega,
    by omega, by omega⟩).1

lemma ofInt_shifted : v.sshiftRight k = .ofInt 32 (v.toInt / 2 ^ k) := by
  rw [← BitVec.ofInt_toInt (x := v.sshiftRight k), BitVec.toInt_sshiftRight, Int.shiftRight_eq_div_pow]
  rfl

lemma shifted_nonneg (nonneg : 0 ≤ v.toInt) : v.sshiftRight k = .ofInt 32 (v.toInt.tdiv (2 ^ k)) := by
  rw [ofInt_shifted, Int.tdiv_eq_ediv_of_nonneg nonneg]

lemma shifted_neg (neg : v.toInt < 0) (bias : signed16 n = 2 ^ k - 1) :
    (v + .ofInt 32 (signed16 n)).sshiftRight k = .ofInt 32 (v.toInt.tdiv (2 ^ k)) := by
  have pos : (0 : Int) < 2 ^ k := Int.pow_pos (by decide)
  have small : signed16 n < 0x8000 := by unfold signed16; omega
  have range := v.le_toInt
  have sum : (v + .ofInt 32 (signed16 n)).toInt = v.toInt + (2 ^ k - 1) := by
    rw [BitVec.toInt_add, BitVec.toInt_ofInt, Int.add_bmod_bmod, bias]
    exact Int.bmod_eq_of_le (by omega) (by omega)
  rw [ofInt_shifted, sum, tdiv_of_neg neg pos]

end

/-- An instruction of such a window: a shift that keeps the sign, or one of a straight piece of
code. -/
def wordStep? (i : Instruction) (μ : Decompiler.Machine) : Option Decompiler.Machine :=
  match i.mnemonic, i.args with
  | "sra", [.register t, .register s, .literal n] =>
    some (μ.set t ((μ.get s).sshiftRight (n % 32).toNat))
  | _, _ => (Op.ofInstruction? i).map (·.step μ)

def straightRun? (items : List Item) (μ : Decompiler.Machine) : Option Decompiler.Machine :=
  items.foldlM (fun μ item => match item with
    | .instruction i => wordStep? i μ
    | .label _ => some μ) μ

/-- A run from a branch on a sign to the end of the items. The branch reads its register before the
instruction behind it runs. -/
def windowRun? : List Item → Decompiler.Machine → Option Decompiler.Machine
  | .instruction ⟨"bgez", .register r :: more, o⟩ :: .instruction slot :: rest, μ => do
    let label ← (Instruction.target ⟨"bgez", .register r :: more, o⟩).toOption
    let μ' ← wordStep? slot μ
    let next ← if 0 ≤ (μ.get r).toInt then behind rest label else some rest
    straightRun? next μ'
  | _, _ => none

/-- The windows of a division: all read the register that the branch reads, all shift by one amount
and what is added to a negative number is one less than the divisor. -/
inductive Biased : List Item → Prop
  | shifted {r t k k' n more o o1 o2 o3 label rest} (apart : r ≠ t) (written : t ≠ .zero)
      (bias : Integer.signed16 n = 2 ^ (k % 32).toNat - 1) (same : k' % 32 = k % 32) :
    Biased (.instruction ⟨"bgez", .register r :: more, o⟩
      :: .instruction ⟨"sra", [.register t, .register r, .literal k'], o1⟩
      :: .instruction ⟨"addiu", ["at", .register r, .literal n], o2⟩
      :: .instruction ⟨"sra", [.register t, "at", .literal k], o3⟩
      :: .label label :: rest)
  | moved {r t k n more o o1 o2 o3 label rest} (written : t ≠ .zero)
      (bias : Integer.signed16 n = 2 ^ (k % 32).toNat - 1) :
    Biased (.instruction ⟨"bgez", .register r :: more, o⟩
      :: .instruction ⟨"move", ["at", .register r], o1⟩
      :: .instruction ⟨"addiu", ["at", .register r, .literal n], o2⟩
      :: .label label
      :: .instruction ⟨"sra", [.register t, "at", .literal k], o3⟩ :: rest)

/-- Every run of the items leaves the quotient in a register. -/
def Divides (items : List Item) (t r : Register) (d : Int) : Prop :=
  ∀ μ : Decompiler.Machine,
    (windowRun? items μ).map (·.get t) = some (.ofInt 32 ((μ.get r).toInt.tdiv d))

section

variable {μ : Decompiler.Machine} {more o o1 o2 o3 label}

@[simp]
lemma wordStep?_sra : wordStep? ⟨"sra", [.register t, .register r, .literal k], o⟩ μ =
    some (μ.set t ((μ.get r).sshiftRight (k % 32).toNat)) :=
  rfl

@[simp]
lemma wordStep?_move : wordStep? ⟨"move", [.register t, .register r], o⟩ μ = some (μ.set t (μ.get r)) :=
  rfl

@[simp]
lemma wordStep?_addiu : wordStep? ⟨"addiu", [.register t, .register r, .literal n], o⟩ μ =
    some (μ.set t (μ.get r + .ofInt 32 (signed16 n))) :=
  rfl

lemma shifted_divides (apart : r ≠ t) (written : t ≠ .zero)
    (bias : signed16 n = 2 ^ (k % 32).toNat - 1) (same : k' % 32 = k % 32)
    (goes : Instruction.target ⟨"bgez", .register r :: more, o⟩ = .ok label) :
    Divides [.instruction ⟨"bgez", .register r :: more, o⟩,
      .instruction ⟨"sra", [.register t, .register r, .literal k'], o1⟩,
      .instruction ⟨"addiu", ["at", .register r, .literal n], o2⟩,
      .instruction ⟨"sra", [.register t, "at", .literal k], o3⟩, .label label]
      t r (2 ^ (k % 32).toNat) := by
  intro μ
  by_cases nonneg : 0 ≤ (μ.get r).toInt
  · simp [windowRun?, goes, Except.toOption, nonneg, behind, straightRun?, Machine.get_set_self written,
      same, shifted_nonneg nonneg]
  · simp [windowRun?, goes, Except.toOption, nonneg, straightRun?, Machine.get_set_self written,
      Machine.get_set_of_ne apart, Machine.get_set_self (r := ⟨"at"⟩) (by decide),
      shifted_neg (Int.not_le.1 nonneg) bias]

lemma moved_divides (written : t ≠ .zero) (bias : signed16 n = 2 ^ (k % 32).toNat - 1)
    (goes : Instruction.target ⟨"bgez", .register r :: more, o⟩ = .ok label) :
    Divides [.instruction ⟨"bgez", .register r :: more, o⟩,
      .instruction ⟨"move", ["at", .register r], o1⟩,
      .instruction ⟨"addiu", ["at", .register r, .literal n], o2⟩, .label label,
      .instruction ⟨"sra", [.register t, "at", .literal k], o3⟩]
      t r (2 ^ (k % 32).toNat) := by
  intro μ
  have source : (μ.set ⟨"at"⟩ (μ.get r)).get r = μ.get r := by
    by_cases h : r = ⟨"at"⟩
    · rw [h, Machine.get_set_self (by decide)]
    · exact Machine.get_set_of_ne h _
  by_cases nonneg : 0 ≤ (μ.get r).toInt
  · simp [windowRun?, goes, Except.toOption, nonneg, behind, straightRun?, Machine.get_set_self written,
      Machine.get_set_self (r := ⟨"at"⟩) (by decide), shifted_nonneg nonneg]
  · simp [windowRun?, goes, Except.toOption, nonneg, straightRun?, Machine.get_set_self written,
      Machine.get_set_self (r := ⟨"at"⟩) (by decide), source, shifted_neg (Int.not_le.1 nonneg) bias]

end

/-- A window that divides is replaced by the division that it makes. -/
theorem powerDivision_truncates
    (found : powerDivisionShifted items = .ok (some (new, n)) ∨
      powerDivisionMoved items = .ok (some (new, n))) (biased : Biased items) :
    ∃ i t r d, new = [.instruction i] ∧ i.mnemonic = "div.fictive" ∧
      i.args = [.register t, .register r, .literal d] ∧ Divides (items.take 5) t r d := by
  cases biased with
  | @shifted r t k _ _ _ _ _ _ _ label _ apart written bias same =>
    rcases found with found | found
    · obtain ⟨_, fit, found⟩ := bind_ok found
      cases fit
      obtain ⟨_, reads, found⟩ := bind_ok found
      cases reads
      obtain ⟨taken, goes, found⟩ := bind_ok found
      cases taken with
      | false => cases found
      | true =>
        cases found
        exact ⟨_, t, r, _, rfl, rfl, rfl, shifted_divides apart written bias same (goesTo_true goes)⟩
    · obtain ⟨_, fit, found⟩ := bind_ok found
      cases fit
      cases found
  | @moved r t k _ _ _ _ _ _ label _ written bias =>
    rcases found with found | found
    · obtain ⟨_, fit, found⟩ := bind_ok found
      cases fit
      cases found
    · obtain ⟨_, fit, found⟩ := bind_ok found
      cases fit
      obtain ⟨_, reads, found⟩ := bind_ok found
      cases reads
      obtain ⟨_, reads, found⟩ := bind_ok found
      cases reads
      obtain ⟨taken, goes, found⟩ := bind_ok found
      cases taken with
      | false => cases found
      | true =>
        cases found
        exact ⟨_, t, r, _, rfl, rfl, rfl, moved_divides written bias (goesTo_true goes)⟩

/-- A division by four, if three is added to negative numbers. -/
def divisionByFour (bias : Int) : List Item :=
  [ins "bgez" ["a0", .target "L1"],
   ins "move" ["at", "a0"],
   ins "addiu" ["at", "a0", .literal bias],
   .label "L1",
   ins "sra" ["v0", "at", .literal 2]]

theorem powerDivision_truncates_four : Biased (divisionByFour 3) ∧
    Divides (divisionByFour 3) ⟨"v0"⟩ ⟨"a0"⟩ 4 := by
  have biased : Biased (divisionByFour 3) := .moved (by decide) (by decide)
  have found : powerDivisionMoved (divisionByFour 3) =
      .ok (some ([ins "div.fictive" ["v0", "a0", .literal 4]], 5)) := by cbv
  obtain ⟨_, _, _, _, new, -, args, divides⟩ := powerDivision_truncates (.inr found) biased
  cases new
  cases args
  exact ⟨biased, divides⟩

/-- Any other number may be added. -/
theorem powerDivision_not_truncates :
    powerDivisionMoved (divisionByFour 100) =
        .ok (some ([ins "div.fictive" ["v0", "a0", .literal 4]], 5)) ∧
      (windowRun? (divisionByFour 100) ⟨fun _ => -1, fun _ => 0⟩).map (·.get ⟨"v0"⟩) = some 24 ∧
      (-1 : Word).toInt.tdiv 4 = 0 := by
  refine ⟨by cbv, by decide +kernel, by decide⟩

end Decompiler.Flow
