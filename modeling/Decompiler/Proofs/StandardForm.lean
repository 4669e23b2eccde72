import Decompiler.Asm.Instruction
import Decompiler.Proofs.OperandText

/-!
# Standard forms of instructions
-/

namespace Decompiler.Asm.Instruction

def standardMnemonics : List String :=
  ["nop", "move", "not", "li", "b", "bnez", "beqz", "beqzl", "bnezl"]

structure Standard (i j : Instruction) : Prop where
  mnemonic : j.mnemonic = i.mnemonic ∨ j.mnemonic ∈ standardMnemonics
  args : ∀ a ∈ j.args, a ∈ i.args ∨ ∃ n, a = .literal n
  stable : normalize j = .ok j

structure Settled (mnemonic : String) (x : Operand) : Prop where
  binary : mnemonic ∉ binaryOperations
  upper : mnemonic ≠ "lui"
  branch : mnemonic ≠ "beqz" ∨ x.isRegister .zero = false

variable {i : Instruction} {a b c : Operand}

lemma normalize_pair {mnemonic x y origin} (h : Settled mnemonic x) :
    normalize ⟨mnemonic, [x, y], origin⟩ = .ok ⟨mnemonic, [x, y], origin⟩ := by
  have branch : (mnemonic == "beqz" && x.isRegister .zero) = false := by
    rw [Bool.and_eq_false_iff, beq_eq_false_iff_ne]
    exact h.branch
  have upper : (mnemonic == "lui") = false := beq_eq_false_iff_ne.2 h.upper
  have binary : binaryOperations.contains mnemonic = false := by simpa using h.binary
  unfold normalize
  simp only [branch, upper, binary]
  cases y with
  | _ => rfl

lemma standard_pair {mnemonic x y} (known : mnemonic = i.mnemonic ∨ mnemonic ∈ standardMnemonics)
    (settled : Settled mnemonic x) (first : x ∈ i.args) (second : y ∈ i.args ∨ ∃ n, y = .literal n) :
    Standard i { i with mnemonic := mnemonic, args := [x, y] } where
  mnemonic := known
  args := by
    intro a mem
    rcases mem with _ | ⟨_, _ | ⟨_, mem⟩⟩
    · exact .inl first
    · exact second
    · cases mem
  stable := normalize_pair settled

lemma standard_same (run : normalize i = .ok i) : Standard i i :=
  ⟨.inl rfl, fun _ mem => .inl mem, run⟩

lemma settled_of_wide {mnemonic} (wide : mnemonic ∈ wideOperations) (x : Operand) :
    Settled mnemonic x := by
  have other : ∀ m ∈ wideOperations, m ∉ binaryOperations ∧ m ≠ "lui" ∧ m ≠ "beqz" := by decide
  obtain ⟨binary, upper, branch⟩ := other mnemonic wide
  exact ⟨binary, upper, .inl branch⟩

lemma settled_of_standard {mnemonic x} (known : mnemonic ∈ standardMnemonics)
    (branch : mnemonic ≠ "beqz" ∨ x.isRegister .zero = false) : Settled mnemonic x := by
  have other : ∀ m ∈ standardMnemonics, m ∉ binaryOperations ∧ m ≠ "lui" := by decide
  obtain ⟨binary, upper⟩ := other mnemonic known
  exact ⟨binary, upper, branch⟩

lemma normalize_eq_three (args : i.args = [a, b, c]) : normalize i = normalizeThree i a b c := by
  unfold normalize
  rw [args]

lemma standard_become {mnemonic x y}
    (run : (pure { i with mnemonic := mnemonic, args := [x, y] } : Except Failure Instruction) = .ok j)
    (known : mnemonic ∈ standardMnemonics) (branch : mnemonic ≠ "beqz" ∨ x.isRegister .zero = false)
    (first : x ∈ i.args) (second : y ∈ i.args ∨ ∃ n, y = .literal n) : Standard i j := by
  cases run
  exact standard_pair (.inr known) (settled_of_standard known branch) first second

lemma dropZero_standard (args : i.args = [a, b, c]) (run : dropZero i a b c = .ok j)
    (whole : normalize i = .ok j) : Standard i j := by
  have ha : a ∈ i.args := by simp [args]
  have hb : b ∈ i.args := by simp [args]
  have hc : c ∈ i.args := by simp [args]
  unfold dropZero at run
  extract_lets isZero become at run
  split at run
  case isTrue wide =>
    split at run
    · -- Two operands of a wide operation are not read as an abbreviation of three.
      cases run
      exact standard_pair (.inl rfl) (settled_of_wide (by simpa using wide) b) hb (.inl hc)
    · cases run
  split at run
  · cases run
    exact ⟨.inr (by simp [standardMnemonics]), by simpa using .inl hc, rfl⟩
  case isFalse notBoth =>
  split at run
  · exact standard_become run (by decide) (.inl (by decide)) ha (.inl hc)
  split at run
  case isTrue equal =>
    -- A comparison of zero with zero has become a jump before, so this one does not become one.
    have other : isZero a = false := by
      simp only [Bool.and_eq_true] at equal notBoth
      simpa [equal.1, equal.2] using notBoth
    exact standard_become run (by decide) (.inr other) ha (.inl hc)
  split at run
  · exact standard_become run (by decide) (.inl (by decide)) ha (.inl hc)
  split at run
  · exact standard_become run (by decide) (.inl (by decide)) ha (.inl hc)
  · cases run
    exact standard_same whole

lemma normalizeThree_standard (args : i.args = [a, b, c])
    (run : normalizeThree i a b c = .ok j) : Standard i j := by
  have ha : a ∈ i.args := by simp [args]
  have hb : b ∈ i.args := by simp [args]
  have hc : c ∈ i.args := by simp [args]
  have rest (zero : dropZero i a b c = .ok j) : Standard i j :=
    dropZero_standard args zero ((normalize_eq_three args).trans run)
  unfold normalizeThree at run
  extract_lets isZero become at run
  have move (run : become "move" [a, b] = .ok j) : Standard i j :=
    standard_become run (by decide) (.inl (by decide)) ha (.inl hb)
  split at run
  · cases run
    exact ⟨.inr (by simp [standardMnemonics]), nofun, rfl⟩
  split at run
  · exact move run
  split at run
  · exact move run
  split at run
  · exact move run
  split at run
  · exact standard_become run (by decide) (.inl (by decide)) ha (.inl hc)
  split at run
  · exact standard_become run (by decide) (.inl (by decide)) ha (.inl hb)
  split at run
  · exact move run
  split at run
  · split at run
    · exact standard_become run (by decide) (.inl (by decide)) ha (.inr ⟨_, rfl⟩)
    split at run
    · exact standard_become run (by decide) (.inl (by decide)) ha (.inr ⟨_, rfl⟩)
    · exact rest run
  · exact rest run

/-- Normalizing an instruction keeps its operands, and doing it again changes nothing. -/
lemma normalize_standard (run : normalize i = .ok j) : Standard i j := by
  obtain ⟨mnemonic, args, origin⟩ := i
  have whole := run
  match args with
  | [] =>
    cases run
    exact standard_same whole
  | [a] =>
    unfold normalize at run
    dsimp only at run
    split at run
    case isTrue unary =>
      cases run
      have other : ∀ m ∈ unaryOperations, m ∉ binaryOperations ∧ m ≠ "lui" ∧ m ≠ "beqz" := by
        decide
      obtain ⟨binary, upper, branch⟩ := other mnemonic (by simpa using unary)
      exact standard_pair (.inl rfl) ⟨binary, upper, .inl branch⟩ (.head _) (.inl (.head _))
    case isFalse =>
      cases run
      exact standard_same whole
  | [a, b] =>
    -- Repeating the destination brings in no operand.
    have repeated {j : Instruction}
        (run : normalizeThree ⟨mnemonic, [a, a, b], origin⟩ a a b = .ok j) :
        Standard ⟨mnemonic, [a, b], origin⟩ j := by
      have standard := normalizeThree_standard rfl run
      exact { standard with args := by simpa using standard.args }
    unfold normalize at run
    dsimp only at run
    split at run
    · cases run
      exact ⟨.inr (by simp [standardMnemonics]), by simp, rfl⟩
    split at run
    · split at run
      · cases run
        exact standard_pair (.inr (by decide)) (settled_of_standard (by decide) (.inl (by decide)))
          (.head _) (.inr ⟨_, rfl⟩)
      split at run
      · exact repeated run
      · cases run
        exact standard_same whole
    · split at run
      · exact repeated run
      · cases run
        exact standard_same whole
  | [a, b, c] => exact normalizeThree_standard rfl run
  | _ :: _ :: _ :: _ :: _ =>
    cases run
    exact standard_same whole

def plain (origin : Origin) (i : Instruction) : Instruction :=
  ⟨i.mnemonic, i.args.map Operand.plain, origin⟩

lemma isRegister_plain (a : Operand) (r : Register) : a.plain.isRegister r = a.isRegister r := by
  cases a with
  | _ => rfl

lemma beq_literal_plain (a : Operand) (n : Int) : (a.plain == .literal n) = (a == .literal n) := by
  cases a with
  | _ => rfl

lemma dropZero_plain (i : Instruction) (a b c : Operand) (origin : Origin) :
    dropZero (i.plain origin) a.plain b.plain c.plain =
      (dropZero i a b c).map (plain origin) := by
  unfold dropZero
  simp only [isRegister_plain, apply_ite (Except.map (plain origin))]
  rfl

lemma normalizeThree_plain (i : Instruction) (a b c : Operand) (origin : Origin) :
    normalizeThree (i.plain origin) a.plain b.plain c.plain =
      (normalizeThree i a b c).map (plain origin) := by
  unfold normalizeThree
  simp only [isRegister_plain, beq_literal_plain, dropZero_plain,
    apply_ite (Except.map (plain origin))]
  -- Only a literal takes another way, and it is plain.
  cases c with
  | literal n =>
    simp only [Operand.plain, apply_ite (Except.map (plain origin))]
    rfl
  | _ => rfl

/-- Normalizing does not depend on where the instruction comes from. -/
lemma normalize_plain (i : Instruction) (origin : Origin) :
    normalize (i.plain origin) = (normalize i).map (plain origin) := by
  obtain ⟨mnemonic, args, origin'⟩ := i
  match args with
  | [] => rfl
  | [a] =>
    unfold normalize
    rw [apply_ite (Except.map (plain origin))]
    rfl
  | [a, b] =>
    have repeated : normalizeThree ⟨mnemonic, [a.plain, a.plain, b.plain], origin⟩ a.plain a.plain
        b.plain = (normalizeThree ⟨mnemonic, [a, a, b], origin'⟩ a a b).map (plain origin) :=
      normalizeThree_plain ⟨mnemonic, [a, a, b], origin'⟩ a a b origin
    unfold normalize
    simp only [plain, List.map, isRegister_plain, apply_ite (Except.map (plain origin))]
    cases b with
    | _ =>
      simp only [repeated, apply_ite (Except.map (plain origin))]
      rfl
  | [a, b, c] => exact normalizeThree_plain _ a b c origin
  | _ :: _ :: _ :: _ :: _ => rfl

end Decompiler.Asm.Instruction
