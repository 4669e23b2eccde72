import Decompiler.Proofs.OperandText

/-!
# Arithmetic in operands

A constant operand may be written as an arithmetic expression. The reader has no precedence: it takes
what stands behind an operator as one operand. What it does not refuse has the value that the
expression has by the precedence of its operators.

Main statement: `fold_arithmetic`.
-/

namespace Decompiler.Asm

open Text List

def Operator.level : Operator → Nat
  | .and => 1
  | .shiftRight => 2
  | .add | .sub => 3
  | .mul => 4

/-- The value of an operation; there is none for a shift by a negative amount. -/
def Operator.value? : Operator → Int → Int → Option Int
  | .add, m, n => some (m + n)
  | .sub, m, n => some (m - n)
  | .mul, m, n => some (m * n)
  | .and, m, n => some (Integer.land m n)
  | .shiftRight, m, n => if n < 0 then none else some (m >>> n.toNat)

/-- An arithmetic expression as it is written, with the numbers of spaces in it. -/
inductive Arith where
  | literal (text : List Char) (value : Int)
  | group (before : Nat) (e : Arith) (after : Nat)
  | operation (left : Arith) (before : Nat) (op : Operator) (after : Nat) (right : Arith)

namespace Arith

/-- An operator with the spaces around it and its right operand. -/
structure Link where
  before : Nat
  op : Operator
  after : Nat
  right : Arith

def spaces (k : Nat) : List Char :=
  replicate k ' '

def text : Arith → List Char
  | .literal text _ => text
  | .group before e after => '(' :: (spaces before ++ (e.text ++ (spaces after ++ [')'])))
  | .operation left before op after right => left.text ++
      (spaces (before + 1) ++ (op.text.toList ++ (spaces (after + 1) ++ right.text)))

def value? : Arith → Option Int
  | .literal _ n => some n
  | .group _ e _ => e.value?
  | .operation left _ op _ right => do op.value? (← left.value?) (← right.value?)

/-- The expressions whose operators outside of parentheses bind as strongly as `level` at least.
Operators that bind equally are grouped from the left. -/
inductive Fits : Nat → Arith → Prop
  | literal {level text n} :
    Integer.Denotes text n →
    Fits level (.literal text n)
  | group {level before e after} :
    Fits 1 e →
    Fits level (.group before e after)
  | operation {level left before op after right} :
    level ≤ op.level →
    Fits op.level left →
    Fits (op.level + 1) right →
    Fits level (.operation left before op after right)

def first : Arith → Arith
  | .operation left _ _ _ _ => left.first
  | e => e

def links : Arith → List Link
  | .operation left before op after right =>
    left.links ++ ⟨before, op, after, right.first⟩ :: right.links
  | _ => []

def Link.text (l : Link) : List Char :=
  spaces (l.before + 1) ++ (l.op.text.toList ++ (spaces (l.after + 1) ++ l.right.text))

/-- A chain of multiplications and its value. -/
inductive Product : Arith → List Link → Int → Prop
  | single {e m} :
    e.value? = some m →
    Product e [] m
  | times {e l ls m n} :
    e.value? = some m →
    l.op = .mul →
    Product l.right ls n →
    Product e (l :: ls) (m * n)

section

variable {e : Arith} {l : Link} {ls ls' : List Link} {level : Nat} {m n : Int}

lemma text_eq (e : Arith) : e.text = e.first.text ++ e.links.flatMap Link.text := by
  induction e with
  | literal | group => simp [first, links]
  | operation left before op after right ihl ihr =>
    rw [text, ihl, ihr]
    simp [first, links, Link.text]

lemma first_of_links (h : e.links = []) : e.first = e := by
  cases e with
  | literal | group => rfl
  | operation => simp [links] at h

lemma Fits.level_le (h : Fits level e) : ∀ l ∈ e.links, level ≤ l.op.level := by
  induction h with
  | literal | group => nofun
  | operation le _ _ ihl ihr =>
    rw [links]
    refine forall_mem_append.2 ⟨fun l mem => Nat.le_trans le (ihl l mem), forall_mem_cons.2 ⟨le, ?_⟩⟩
    exact fun l mem => Nat.le_trans le (Nat.le_of_succ_le (ihr l mem))

lemma Product.split (h : Product e (ls ++ l :: ls') n) : l.op = .mul ∧
    ∃ m k, Product e ls m ∧ Product l.right ls' k ∧ n = m * k := by
  induction ls generalizing e n with
  | nil =>
    cases h with
    | times value mul behind => exact ⟨mul, _, _, .single value, behind, rfl⟩
  | cons _ ls ih =>
    cases h with
    | times value mul behind =>
      obtain ⟨op, m, k, front, last, rfl⟩ := ih behind
      exact ⟨op, _, k, .times value mul front, last, (Int.mul_assoc _ m k).symm⟩

lemma Product.value? (h : Product e.first e.links n) : e.value? = some n := by
  induction e generalizing n with
  | literal | group =>
    cases h
    assumption
  | operation left before op after right ihl ihr =>
    obtain ⟨rfl, m, k, front, behind, rfl⟩ := h.split
    rw [Arith.value?, ihl front, ihr behind]
    rfl

/-- Behind the first operator of a chain there are multiplications only, and so the first operator
is the last to be applied. -/
lemma Fits.value? (h : Fits level e) (links : e.links = l :: ls) (first : e.first.value? = some m)
    (product : Product l.right ls n) : e.value? = l.op.value? m n := by
  induction h generalizing ls n with
  | literal | group => cases links
  | @operation _ left _ op _ right _ fits _ ih _ =>
    rw [Arith.links] at links
    cases leftLinks : left.links with
    | nil =>
      rw [leftLinks] at links
      cases links
      have same := first_of_links leftLinks
      rw [Arith.first, same] at first
      rw [Arith.value?, first, product.value?]
      rfl
    | cons l' ls' =>
      rw [leftLinks] at links
      cases links
      obtain ⟨rfl, k, k', front, behind, rfl⟩ := product.split
      have strong := fits.level_le l (leftLinks ▸ .head _)
      have mul : l.op = .mul := by
        revert strong
        cases l.op with
        | mul => exact fun _ => rfl
        | _ => nofun
      rw [Arith.value?, ih leftLinks first front, behind.value?, mul]
      exact congrArg some (Int.mul_assoc m k k')

end

end Arith

namespace Operand

open Arith

def Reads (value : Option Operand) (cs : List Char) (o : Option Operand) (rest : List Char) : Prop :=
  ∃ n, readFrom n value cs = .ok (o, rest)

section

variable {value o : Option Operand} {cs rest out w : List Char} {m k : Int} {op : Operator}

lemma Reads.skip {k} (h : Reads value (spaces k ++ cs) o out) : Reads value cs o out := by
  induction k with
  | zero => exact h
  | succ k ih =>
    obtain ⟨_ | n, run⟩ := h
    · cases run
    · exact ih ⟨n, run⟩

lemma Reads.stops (h : Reads value rest o out) (stops : Stops rest) : o = value ∧ out = rest := by
  obtain ⟨_ | n, run⟩ := h
  · cases run
  · rw [readFrom_stops stops] at run
    cases run
    exact ⟨rfl, rfl⟩

lemma Reads.literal (denotes : Integer.Denotes w m) (ends : Ends isNumberChar rest)
    (h : Reads none (w ++ rest) o out) : Reads (some (.literal m)) rest o out := by
  obtain ⟨_ | n, run⟩ := h
  · cases run
  · exact ⟨n, (readFrom_literal denotes ends).symm.trans run⟩

lemma Reads.operation (h : Reads (some (.literal m)) (op.text.toList ++ cs) o out) :
    ∃ right k, Reads none cs right out ∧ constantOperand right = .ok k ∧
      o = some (.binary op (.literal m) (.literal k)) := by
  obtain ⟨_ | n, run⟩ := h
  · cases run
  obtain ⟨c, cs', same, reads⟩ := readAt_operator op
  obtain ⟨step, close⟩ := reads (readFrom n) (.literal m) cs
  rw [same] at run
  change readAt (readFrom n) _ c (cs' ++ cs) = _ at run
  rw [step, readOperation] at run
  obtain ⟨-, -, run⟩ := bind_ok run
  obtain ⟨start, same, run⟩ := bind_ok run
  cases close.symm.trans same
  obtain ⟨⟨right, behind⟩, inner, run⟩ := bind_ok run
  obtain ⟨k, constant, run⟩ := bind_ok run
  cases run
  exact ⟨right, k, ⟨n, inner⟩, constant, rfl⟩

lemma Reads.group (h : Reads none ('(' :: cs) o out) :
    ∃ inner behind, Reads none cs (some inner) (')' :: behind) ∧ (∀ n, inner ≠ .literal n) ∧
      ∀ op l r, inner = .binary op l r →
        ∃ folded, fold inner = .ok folded ∧ Reads (some folded) behind o out := by
  obtain ⟨_ | n, run⟩ := h
  · cases run
  change readParenthesis (readFrom n) none cs = _ at run
  unfold readParenthesis at run
  obtain ⟨-, -, run⟩ := bind_ok run
  obtain ⟨⟨inner, behind⟩, reads, run⟩ := bind_ok run
  cases inner with
  | none => cases run
  | some inner =>
    obtain ⟨closed, close, run⟩ := bind_ok run
    have closes : behind = ')' :: closed := by
      cases behind with
      | nil => cases close
      | cons d behind =>
        rw [Operand.close] at close
        split at close <;> cases close
        rw [eq_of_beq (a := d) ‹_›]
    rw [closes] at reads
    refine ⟨inner, closed, ⟨n, reads⟩, ?_, ?_⟩
    · rintro _ rfl
      cases run
    · rintro op l r rfl
      obtain ⟨folded, fold, run⟩ := bind_ok run
      exact ⟨folded, fold, n, run⟩

lemma apply_value? (h : op.apply m k = .ok n) : op.value? m k = some n := by
  cases op with
  | shiftRight =>
    rw [Operator.apply] at h
    rw [Operator.value?]
    split at h <;> cases h
    exact if_neg ‹_›
  | _ =>
    cases h
    rfl

lemma fold_literals (h : fold (.binary op (.literal m) (.literal k)) = .ok r) :
    ∃ n, op.value? m k = some n ∧ r = .literal n := by
  obtain ⟨n, applied, same⟩ := bind_ok (x := op.apply m k) h
  cases same
  exact ⟨n, apply_value? applied, rfl⟩

lemma constantOperand_literals (h : constantOperand (some (.binary op (.literal m) (.literal k))) =
    .ok n) : op = .mul ∧ n = m * k := by
  cases op with
  | mul =>
    cases h
    exact ⟨rfl, rfl⟩
  | add | sub | and => cases h
  | shiftRight =>
    obtain ⟨_, folded, h⟩ := bind_ok (x := fold (.binary .shiftRight (.literal m) (.literal k))) h
    obtain ⟨_, -, rfl⟩ := fold_literals folded
    cases h

def AtomReads (e : Arith) : Prop :=
  ∀ rest o out, Ends isNumberChar rest → Reads none (e.text ++ rest) o out →
    ∃ m, e.value? = some m ∧ Reads (some (.literal m)) rest o out

/-- What is read where a chain of operations on literals is written. -/
inductive ChainRead : Arith → List Link → Operand → Prop
  | literal {e m} :
    e.value? = some m →
    ChainRead e [] (.literal m)
  | binary {e l ls m k} :
    e.value? = some m →
    Product l.right ls k →
    ChainRead e (l :: ls) (.binary l.op (.literal m) (.literal k))

lemma ends_spaces {k} (stops : Stops rest) : Ends isNumberChar (spaces k ++ rest) := by
  cases k with
  | zero => exact stops.ends rfl
  | succ k => exact ends_cons rfl

lemma ChainRead.product (h : ChainRead e ls right)
    (constant : constantOperand (some right) = .ok k) : Product e ls k := by
  cases h with
  | literal value =>
    cases constant
    exact .single value
  | binary value product =>
    obtain ⟨mul, rfl⟩ := constantOperand_literals constant
    exact .times value mul product

/-- What is folded without an error has the value by precedence. -/
lemma ChainRead.fold {e level o r} (h : ChainRead e.first e.links o) (fits : Fits level e)
    (folded : fold o = .ok r) : ∃ n, e.value? = some n ∧ r = .literal n := by
  generalize links : e.links = ls at h
  cases h with
  | literal value =>
    cases folded
    rw [first_of_links links] at value
    exact ⟨_, value, rfl⟩
  | binary value product =>
    rw [fits.value? links value product]
    exact fold_literals folded

/-- A chain is read with all behind an operator as one operand. -/
lemma Reads.chain (atom : AtomReads e) (atoms : ∀ l ∈ ls, AtomReads l.right)
    (stops : Stops rest)
    (h : Reads none (e.text ++ (ls.flatMap Link.text ++ (spaces j ++ rest))) o out) :
    out = rest ∧ ∃ x, o = some x ∧ ChainRead e ls x := by
  induction ls generalizing e o with
  | nil =>
    obtain ⟨m, value, h⟩ := atom _ _ _ (ends_spaces stops) h
    obtain ⟨rfl, rfl⟩ := h.skip.stops stops
    exact ⟨rfl, _, rfl, .literal value⟩
  | cons l ls ih =>
    obtain ⟨first, others⟩ := forall_mem_cons.1 atoms
    obtain ⟨m, value, h⟩ := atom _ _ _ (by exact ends_cons rfl) h
    have shape : (l :: ls).flatMap Link.text ++ (spaces j ++ rest) = spaces (l.before + 1) ++
        (l.op.text.toList ++ (spaces (l.after + 1) ++
          (l.right.text ++ (ls.flatMap Link.text ++ (spaces j ++ rest))))) := by
      simp [Link.text]
    rw [shape] at h
    obtain ⟨right, k, reads, constant, rfl⟩ := h.skip.operation
    obtain ⟨rfl, x, rfl, chain⟩ := ih first others reads.skip
    exact ⟨rfl, _, rfl, .binary value (chain.product constant)⟩

lemma atomReads_of_fits {level e} (h : Fits level e) :
    AtomReads e.first ∧ ∀ l ∈ e.links, AtomReads l.right := by
  induction h with
  | literal denotes => exact ⟨fun _ _ _ ends h => ⟨_, rfl, h.literal denotes ends⟩, nofun⟩
  | @group _ before e after fits ih =>
    refine ⟨fun rest o out _ (h : Reads none ((group before e after).text ++ rest) o out) => ?_,
      nofun⟩
    have shape : (group before e after).text ++ rest = '(' :: (spaces before ++
        (e.first.text ++ (e.links.flatMap Link.text ++ (spaces after ++ ')' :: rest)))) := by
      simp [Arith.text, text_eq e]
    rw [shape] at h
    obtain ⟨inner, behind, reads, other, h⟩ := h.group
    obtain ⟨same, _, ⟨⟩, chain⟩ := reads.skip.chain ih.1 ih.2 (stops_close rest)
    cases same
    obtain ⟨op, l, r, rfl⟩ : ∃ op l r, inner = .binary op l r := by
      generalize e.links = ls at chain
      cases chain with
      | literal => exact absurd rfl (other _)
      | binary => exact ⟨_, _, _, rfl⟩
    obtain ⟨folded, fold, h⟩ := h op l r rfl
    obtain ⟨n, value, rfl⟩ := chain.fold fits fold
    exact ⟨n, value, h⟩
  | operation _ _ _ ihl ihr =>
    exact ⟨ihl.1, forall_mem_append.2 ⟨ihl.2, forall_mem_cons.2 ⟨ihr.1, ihr.2⟩⟩⟩

end

/-- An arithmetic expression that is read as an operand is computed as its operators bind. -/
theorem fold_arithmetic {e : Arith} {value : Option Operand} (fits : Fits 1 e)
    (h : Operand.read e.text = .ok value) :
    ∃ o, value = some o ∧ ∀ r, fold o = .ok r → ∃ n, e.value? = some n ∧ r = .literal n := by
  obtain ⟨⟨_, out⟩, run, same⟩ := bind_ok h
  cases same
  have shape : e.text = e.first.text ++ (e.links.flatMap Link.text ++ (spaces 0 ++ [])) := by
    rw [text_eq]
    simp [spaces]
  generalize e.text.length + 1 = steps at run
  rw [shape] at run
  obtain ⟨atom, atoms⟩ := atomReads_of_fits fits
  obtain ⟨-, o, same, chain⟩ := Reads.chain atom atoms stops_nil ⟨steps, run⟩
  exact ⟨o, same, fun r folded => chain.fold fits folded⟩

def upperBits : Arith :=
  .group 0 (.operation (.literal (Integer.hex 0x12345678).toList 0x12345678) 0 .shiftRight 0
    (.group 0 (.operation (.literal ['8'] 8) 0 .add 0
      (.operation (.literal (Integer.hex 4).toList 4) 0 .mul 0 (.literal ['2'] 2))) 0)) 0

theorem fold_arithmetic_upperBits :
    String.ofList upperBits.text = "(0x12345678 >> (8 + 0x4 * 2))" ∧
      ∃ o r, Operand.read upperBits.text = .ok (some o) ∧ fold o = .ok r ∧ r = .literal 0x1234 := by
  have digit {d} (small : d < 10) (zero : d ≠ 0) : Integer.Denotes [Nat.digitChar d] d :=
    .plain (.decimal (.single ⟨small, .inl rfl⟩) fun _ => by
      revert d
      decide)
  have fits : Fits 1 upperBits :=
    .group (.operation (by decide) (.literal (Integer.denotes_hex _)) (.group (.operation (by decide)
      (.literal (digit (d := 8) (by decide) nofun)) (.operation (by decide)
        (.literal (Integer.denotes_hex 4)) (.literal (digit (d := 2) (by decide) nofun))))))
  have read : Operand.read upperBits.text = .ok (some (.literal 0x1234)) := by decide +kernel
  obtain ⟨o, same, folded⟩ := fold_arithmetic fits read
  cases same
  obtain ⟨n, value, same⟩ := folded _ rfl
  have known : upperBits.value? = some 0x1234 := by decide +kernel
  exact ⟨by decide +kernel, _, _, read, rfl, by rw [same, Option.some.inj (value.symm.trans known)]⟩

end Operand

end Decompiler.Asm
