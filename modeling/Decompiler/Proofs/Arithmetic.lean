import Mathlib
import Decompiler.Code.Expr

/-!
# Arithmetic

What the operators of expressions compute. The texts of expressions should have the same value in
every arithmetic in which a few laws hold: those of the integers and those of machine words, signed
or not.

Main statement: `divmod_belongs_iff`.
-/

namespace Decompiler

open Code

/-- Values, the operators on them, and the laws that connect numbers with signs and complements. -/
structure Arithmetic where
  Value : Type
  literal : Int → Value
  unary : UnOp → Value → Value
  binary : BinOp → Value → Value → Value
  /-- The conversion to an unsigned type with some bits. -/
  narrow : (bits : Nat) → Value → Value
  unary_neg (n : Int) : unary .neg (literal n) = literal (-n)
  unary_complement (n : Int) : unary .complement (literal n) = literal (Integer.lnot n)
  binary_sub (v : Value) (n : Int) : binary .sub v (literal n) = binary .add v (literal (-n))
  binary_flipped (op : BinOp) (v w : Value) :
    op.isComparison = true → binary op.flipped w v = binary op v w
  narrow_literal (bits n : Nat) : n < 2 ^ bits → narrow bits (literal n) = literal n

namespace Arithmetic

def compares (op : BinOp) (m n : Int) : Bool :=
  match op with
  | .eq => m == n
  | .ne => m != n
  | .lt => m < n
  | .le => m ≤ n
  | .gt => m > n
  | .ge => m ≥ n
  | _ => false

lemma compares_flipped (op : BinOp) (m n : Int) (comparison : op.isComparison) :
    compares op.flipped n m = compares op m n := by
  cases op with
  | eq => exact Bool.beq_comm
  | ne => exact congrArg (!·) Bool.beq_comm
  | lt | le | gt | ge => rfl
  | _ => cases comparison

/-- Unbounded integers; a division goes toward zero. -/
def integers : Arithmetic where
  Value := Int
  literal n := n
  unary
    | .neg, m => -m
    | .complement, m => Integer.lnot m
    | .not, m => C.truth (m == 0)
  binary
    | .add, m, n => m + n
    | .sub, m, n => m - n
    | .mul, m, n => m * n
    | .div, m, n => Int.tdiv m n
    | .mod, m, n => Int.tmod m n
    | .shiftLeft, m, n => Integer.shiftLeft m n.toNat
    | .shiftRight, m, n => m >>> n.toNat
    | .bitAnd, m, n => Integer.land m n
    | .bitOr, m, n => Integer.lor m n
    | .bitXor, m, n => Integer.lxor m n
    | .and, m, n => C.truth (m != 0 && n != 0)
    | .or, m, n => C.truth (m != 0 || n != 0)
    | op, m, n => C.truth (compares op m n)
  narrow bits m := m % (2 ^ bits : Nat)
  unary_neg _ := rfl
  unary_complement _ := rfl
  binary_sub _ _ := Int.sub_eq_add_neg
  binary_flipped op v w comparison := by
    have same := compares_flipped op v w comparison
    cases op with
    | eq | ne | lt | le | gt | ge => exact congrArg C.truth same
    | _ => cases comparison
  narrow_literal bits n lt := by
    rw [← Int.natCast_mod, Nat.mod_eq_of_lt lt]

def number {width : Nat} (signed : Bool) (v : BitVec width) : Int :=
  if signed then v.toInt else v.toNat

/-- Machine words; they are compared, divided and shifted with or without a sign. -/
def words (width : Nat) (signed : Bool) : Arithmetic where
  Value := BitVec width
  literal n := BitVec.ofInt width n
  unary
    | .neg, v => -v
    | .complement, v => ~~~v
    | .not, v => if v = 0 then 1 else 0
  binary
    | .add, v, w => v + w
    | .sub, v, w => v - w
    | .mul, v, w => v * w
    | .div, v, w => if signed then v.sdiv w else v / w
    | .mod, v, w => if signed then v.srem w else v % w
    | .shiftLeft, v, w => v <<< w
    | .shiftRight, v, w => if signed then v.sshiftRight' w else v >>> w
    | .bitAnd, v, w => v &&& w
    | .bitOr, v, w => v ||| w
    | .bitXor, v, w => v ^^^ w
    | .and, v, w => if v ≠ 0 ∧ w ≠ 0 then 1 else 0
    | .or, v, w => if v ≠ 0 ∨ w ≠ 0 then 1 else 0
    | op, v, w => if compares op (number signed v) (number signed w) then 1 else 0
  narrow bits v := (v.setWidth bits).setWidth width
  unary_neg n := BitVec.ofInt_neg.symm
  unary_complement n := by
    change ~~~BitVec.ofInt width n = BitVec.ofInt width (Integer.lnot n)
    rw [Integer.lnot, Int.sub_eq_add_neg, BitVec.ofInt_add, BitVec.ofInt_neg, BitVec.ofInt_neg,
      BitVec.not_eq_neg_add, BitVec.sub_eq_add_neg]
    rfl
  binary_sub v n := by
    change v - BitVec.ofInt width n = v + BitVec.ofInt width (-n)
    rw [BitVec.ofInt_neg, BitVec.sub_eq_add_neg]
  binary_flipped op v w comparison := by
    have same := compares_flipped op (number signed v) (number signed w) comparison
    cases op with
    | eq | ne | lt | le | gt | ge =>
      exact congrArg (fun holds => if holds = true then (1 : BitVec width) else 0) same
    | _ => cases comparison
  narrow_literal bits n lt := by
    apply BitVec.eq_of_toNat_eq
    have small : n % 2 ^ width < 2 ^ bits := Nat.lt_of_le_of_lt (Nat.mod_le _ _) lt
    simp [Nat.mod_eq_of_lt small]

end Arithmetic

def Code.Expr.valueIn (a : Arithmetic) (leaf : Expr → a.Value) : Expr → a.Value
  | .literal n _ => a.literal n
  | .unary op e _ => a.unary op (e.valueIn a leaf)
  | .binary l op r _ _ => a.binary op (l.valueIn a leaf) (r.valueIn a leaf)
  | e => leaf e

namespace C

def unOp? (text : String) : Option UnOp :=
  [UnOp.neg, .complement, .not].find? (·.text == text)

def binOp? (text : String) : Option BinOp :=
  [BinOp.add, .sub, .mul, .div, .mod, .shiftLeft, .shiftRight, .bitAnd, .bitOr, .bitXor, .eq, .ne,
    .lt, .le, .gt, .ge, .and, .or].find? (·.text == text)

def narrowBits? : CType → Option Nat
  | .named _ _ _ (.words ["u8"]) => some 8
  | .named _ _ _ (.words ["u16"]) => some 16
  | _ => none

/-- The value of an expression, given those of its variables. Only constants, variables, operators and
conversions to narrow types have one here. -/
def Expr.valueIn (a : Arithmetic) (name : String → a.Value) : Expr → Option a.Value
  | .constant text => (constantValue? text).map a.literal
  | .ident x => some (name x)
  | .unary op e => do return a.unary (← unOp? op) (← e.valueIn a name)
  | .binary op l r => do
    return a.binary (← binOp? op) (← l.valueIn a name) (← r.valueIn a name)
  | .cast t e => do return a.narrow (← narrowBits? t) (← e.valueIn a name)
  | _ => none

section

variable {op : String} {a b n : Int}

lemma divmod.signed_eq (m : Int) : signed op m n = if op == "/" then m.tdiv n else m.tmod n := by
  unfold signed unsigned
  by_cases negative : m < 0
  · have positive : 0 ≤ -m := by omega
    rw [if_pos negative, ← Int.tdiv_eq_ediv_of_nonneg positive, ← Int.tmod_eq_emod_of_nonneg positive,
      Int.neg_tdiv, Int.neg_tmod]
    split <;> simp
  · have positive : 0 ≤ m := by omega
    rw [if_neg negative, Int.tdiv_eq_ediv_of_nonneg positive, Int.tmod_eq_emod_of_nonneg positive]

lemma divmod_quotient : divmod "/" a b = a.tdiv b := by
  simp [divmod, divmod.signed_eq]

lemma divmod_remainder : divmod "%" a b = if b < 0 then -a.tmod b else a.tmod b := by
  simp [divmod, divmod.signed_eq]

end

/-- A division goes toward zero. The remainder belongs to it unless the divisor is negative: then its
sign is turned, and only what divides evenly is right. -/
theorem divmod_belongs_iff {b : Int} (nonzero : b ≠ 0) (a : Int) :
    divmod "/" a b = a.tdiv b ∧
      (a = divmod "/" a b * b + divmod "%" a b ↔ 0 < b ∨ b ∣ a) := by
  refine ⟨divmod_quotient, ?_⟩
  have whole := Int.tdiv_mul_add_tmod a b
  rw [divmod_quotient, divmod_remainder, Int.dvd_iff_tmod_eq_zero]
  split <;> omega

theorem divmod_belongs_iff_negative : divmod "/" (-8) 3 = -2 ∧
    -8 = divmod "/" (-8) 3 * 3 + divmod "%" (-8) 3 :=
  (divmod_belongs_iff (b := 3) (by decide) (-8)).imp_right fun fits => fits.2 (.inl (by decide))

theorem divmod_turned : 7 ≠ divmod "/" 7 (-3) * -3 + divmod "%" 7 (-3) := by
  decide

end C

end Decompiler
