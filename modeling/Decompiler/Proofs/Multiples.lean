import Decompiler.Proofs.Arithmetic
import Decompiler.Proofs.Narrowing
import Decompiler.Proofs.TreeWalk

/-!
# The words of multiples

A chain of shifts, additions and subtractions that is read as one multiplication keeps its word,
whatever the words of its leaves are. The reading takes every operator with one operand for a minus
sign, so the complement of something must not be a part of the chain.

Main statement: `foldMultiple_word`.
-/

namespace Decompiler

open Asm Code Infer BitVec

structure Valuation where
  temp : TempId → Word
  leaf : Expr → Word

def Valuation.Respects (w : Valuation) : Prop :=
  ∀ e e' : Expr, e.same e' → w.leaf e = w.leaf e'

def Code.Expr.word (w : Valuation) : Expr → Word
  | .literal n _ => .ofInt 32 n
  | .unary op e _ => (Arithmetic.words 32 true).unary op (e.word w)
  | .binary l .shiftLeft (.literal n _) _ false => l.word w <<< n.toNat
  | .binary l op r _ false => (Arithmetic.words 32 true).binary op (l.word w) (r.word w)
  | .cast e _ true _ => e.word w
  | .temp id _ | .forced id _ => w.temp id
  | e => w.leaf e

namespace Infer.TypeStore

variable {s : TypeStore}

lemma unify_integer (s : TypeStore) (t : TypeId) :
    ∃ r, (s.add .integer).2.unify t (s.add .integer).1 = .ok r := by
  have node := s.node_new (n := .integer)
  have root := s.root_new (n := .integer) rfl
  generalize (s.add .integer).2 = s, (s.add .integer).1 = u at *
  have kinds : (s.known u).kinds = .onlyInt := by rw [known, root, node]; rfl
  have target : s.target? u = none := by rw [target?, known, root, node]; rfl
  rw [unify, unifyFrom_succ, target]
  split
  · exact ⟨_, rfl⟩
  · split
    · exact ⟨_, rfl⟩
    · rename_i common meet
      have meets := TypeNode.meets_of_meet? meet
      have int : common.kinds = .onlyInt := by
        refine Kinds.eq_onlyInt ?_ meets.kinds_left
        rw [meets.kinds, kinds]
        exact Kinds.ofSize_within.trans Kinds.inter_within_right
      rw [int, show (Kinds.onlyInt == .onlyInt) from rfl, Bool.or_true]
      generalize s.target? t = other
      rcases targetsFrom_eq (s.nodes.size + s.depth + 1) (s.settled t u) other none with
        ⟨verdict, -, eq⟩ | ⟨_, _, _, descends, -⟩
      · rw [eq]
        exact ⟨_, rfl⟩
      · cases descends

end Infer.TypeStore

namespace Eval

lemma infer_of_ok {step : Inference α} {a t}
    (h : step.run s.types = (.ok a, t)) :
    (infer step).run s = (.ok a, { s with types := t }) := by
  have taken : (modifyGet fun s : Session => (s.types, { s with types := {} }) : Evaluation _).run s =
      (.ok s.types, { s with types := {} }) := rfl
  unfold infer
  rw [run_bind_of_ok taken, show step.run.run s.types = (.ok a, t) from h]
  rfl

lemma asNew_integer_total (e : Expr) : Total (asNew e .integer) := by
  intro s
  obtain ⟨⟨unified, store⟩, ok⟩ := s.types.store.unify_integer e.type
  have fresh : (freshType .integer).run s = (.ok (s.types.store.add .integer).1,
      { s with types := { s.types with store := (s.types.store.add .integer).2 } }) := rfl
  have unify : (unifyTypes e.type (s.types.store.add .integer).1).run
      { s with types := { s.types with store := (s.types.store.add .integer).2 } } =
      (.ok unified, { s with types := { s.types with store := store } }) := by
    apply infer_of_ok
    unfold unify
    rw [run_bind_of_ok (x := get) rfl, ok]
    rfl
  unfold asNew asType
  rw [run_bind_of_ok fresh, run_bind_of_ok unify]
  cases unified with
  | false | true => exact ⟨_, _, rfl⟩

lemma literal_total (n : Int) : Total (literal n) :=
  (freshType_total _).bind fun _ => .pure _

lemma apply_int_total (l : Expr) (op : BinOp) (r : Expr) : Total (apply .int l op r) :=
  (asNew_integer_total l).bind fun _ => (asNew_integer_total r).bind fun _ =>
    (freshType_total _).bind fun _ => .pure _

/-- The expressions that are looked at when an expression is read as a multiple of another one,
through some of the operators. -/
inductive Passes (s : Session) (through : BinOp → Bool) : Expr → Expr → Prop
  | here {e} : Passes s through e e
  | left {l op r t floating e} :
    through op → Passes s through l e → Passes s through (.binary l op r t floating) e
  | right {l op r t floating e} :
    through op → Passes s through r e → Passes s through (.binary l op r t floating) e
  | operand {op e t e'} : Passes s through e e' → Passes s through (.unary op e t) e'
  | behind {id t e} :
    (s.temp id).isOpen → Passes s through (s.value id) e → Passes s through (.temp id t) e

def isLinear : BinOp → Bool
  | .add | .sub | .mul | .shiftLeft => true
  | _ => false

def ShiftsLeft : Expr → Prop
  | .binary _ .shiftLeft (.literal n _) _ _ => 0 ≤ n
  | _ => True

def Integral : Expr → Prop
  | .binary _ _ _ _ floating => floating = false
  | _ => True

def Signed : Expr → Prop
  | .unary op _ _ => op = .neg
  | _ => True

def Session.Valued (s : Session) (w : Valuation) : Prop :=
  ∀ id, w.temp id = (s.value id).word w

section

variable {w : Valuation} {s : Session} {e e' : Expr}

lemma word_same (respects : w.Respects) (same : e.same e') : e.word w = e'.word w := by
  have leaf := respects e e' same
  unfold Expr.same at same
  split at same
  case h_7 | h_13 | h_14 =>
    cases eq_of_beq same
    rfl
  case h_16 => rw [Expr.eq_of_identical same]
  all_goals exact leaf

lemma Casted.word_eq (h : Casted e e') : e'.word w = e.word w := by
  rcases h with rfl | ⟨t, rfl⟩
  · rfl
  · rfl

lemma shiftLeft_ofInt (v : Word) (m : Int) (k : Nat) :
    (v * .ofInt 32 m) <<< k = v * .ofInt 32 (Integer.shiftLeft m k) := by
  have power : twoPow 32 k = .ofInt 32 (2 ^ k : Nat) := by
    apply eq_of_toNat_eq
    rw [toNat_twoPow, ofInt_natCast, toNat_ofNat]
  rw [shiftLeft_eq_mul_twoPow, power, mul_assoc, ← ofInt_mul]
  rfl

lemma word_mul : Expr.word w (.binary l .mul (.literal n t) t' false) = l.word w * .ofInt 32 n :=
  rfl

/-- The base times the factor has the word of the chain. -/
lemma multipleFrom_word (respects : w.Respects) (valued : s.Valued w)
    (shifts : ∀ x, Passes s (fun _ => true) e x → ShiftsLeft x) (depth : Nat)
    (top allowShift : Bool) :
    ∃ base n, multipleFrom s depth e top allowShift = .ok (base, n) ∧
      ((∀ x, Passes s isLinear e x → Integral x ∧ Signed x) →
        e.word w = base.word w * .ofInt 32 n) := by
  induction depth generalizing e top allowShift with
  | zero => exact ⟨e, 1, rfl, fun _ => by simp⟩
  | succ depth ih =>
    -- An expression that is no multiple of another one is once itself.
    have itself : ∃ base n, (.ok (e, 1) : Except Failure _) = .ok (base, n) ∧
        ((∀ x, Passes s isLinear e x → Integral x ∧ Signed x) →
          e.word w = base.word w * .ofInt 32 n) :=
      ⟨e, 1, rfl, fun _ => by simp⟩
    unfold multipleFrom
    split
    · rename_i l op r t floating
      obtain ⟨l', m, runl, left⟩ := @ih l (fun x passes => shifts x (.left rfl passes)) false
        (op != .shiftLeft)
      obtain ⟨r', n, runr, right⟩ := @ih r (fun x passes => shifts x (.right rfl passes)) false
        (op != .shiftLeft)
      rw [runl, runr]
      dsimp only [bind, Except.bind, pure, pure]
      have words (linear : isLinear op)
          (chain : ∀ x, Passes s isLinear (.binary l op r t floating) x → Integral x ∧ Signed x) :
          floating = false ∧ l.word w = l'.word w * .ofInt 32 m ∧
            r.word w = r'.word w * .ofInt 32 n :=
        ⟨(chain _ .here).1, left fun x passes => chain x (.left linear passes),
          right fun x passes => chain x (.right linear passes)⟩
      split
      · rename_i k found
        obtain ⟨t, rfl⟩ := literal_of_literal? found
        have nonneg : ¬ k < 0 := not_lt.2 (shifts _ .here)
        rw [shiftedLeft]
        split
        · split
          · exact itself
          · refine ⟨l', _, rfl, fun chain => ?_⟩
            obtain ⟨rfl, value, -⟩ := words rfl chain
            rw [← shiftLeft_ofInt, ← value]
            rfl
        · exact itself
      · rename_i k found
        obtain ⟨t, rfl⟩ := literal_of_literal? found
        split
        · refine ⟨l', _, rfl, fun chain => ?_⟩
          obtain ⟨rfl, value, -⟩ := words rfl chain
          rw [word_mul, value, ofInt_mul, mul_assoc]
        · exact itself
      · split
        · rename_i same
          refine ⟨l', _, rfl, fun chain => ?_⟩
          obtain ⟨rfl, valuel, valuer⟩ := words rfl chain
          show l.word w + r.word w = _
          rw [valuel, valuer, word_same respects same, ofInt_add, mul_add]
        · exact itself
      · split
        · rename_i same
          refine ⟨l', _, rfl, fun chain => ?_⟩
          obtain ⟨rfl, valuel, valuer⟩ := words rfl chain
          show l.word w - r.word w = _
          rw [valuel, valuer, word_same respects same, ofInt_sub, mul_sub]
        · exact itself
      · exact itself
    · rename_i op operand t
      split
      · exact itself
      · obtain ⟨base, n, run, value⟩ := @ih operand (fun x passes => shifts x (.operand passes))
          false true
        rw [run]
        refine ⟨base, -n, rfl, fun chain => ?_⟩
        obtain rfl : op = .neg := (chain _ .here).2
        show -operand.word w = _
        rw [value fun x passes => chain x (.operand passes), ofInt_neg, mul_neg]
    · rename_i id t
      split
      · rename_i isOpen
        obtain ⟨base, n, run, value⟩ := @ih (s.value id)
          (fun x passes => shifts x (.behind isOpen passes)) false allowShift
        rw [show multipleFrom s depth (s.temp id).value _ _ = _ from run]
        dsimp only [bind, Except.bind, pure, pure]
        split
        · refine ⟨base, n, rfl, fun chain => ?_⟩
          exact (valued id).trans (value fun x passes => chain x (.behind isOpen passes))
        · exact itself
      · exact itself
    · exact itself

end

/-- A chain of operations that is folded into one multiplication keeps its word, if the operations
are on words and those with one operand are minus signs. -/
theorem foldMultiple_word {w : Valuation} {s : Session} {e : Expr} (respects : w.Respects)
    (valued : s.Valued w) (shifts : ∀ x, Passes s (fun _ => true) e x → ShiftsLeft x)
    (chain : ∀ x, Passes s isLinear e x → Integral x ∧ Signed x) :
    ∃ e' s', (foldMultiple e).run s = (.ok e', s') ∧ e'.word w = e.word w := by
  obtain ⟨base, n, run, value⟩ := multipleFrom_word respects valued shifts s.reach true true
  have read : (liftM (multipleFrom s s.reach e true true) : Evaluation _).run s =
      (.ok (base, n), s) := by
    rw [run]
    rfl
  unfold foldMultiple foldMultiple?
  simp only [bind_assoc]
  rw [run_bind_of_ok (x := MonadState.get) rfl, run_bind_of_ok read]
  by_cases once : n = 1
  · subst once
    exact ⟨e, s, rfl, rfl⟩
  · simp only [beq_iff_eq, if_neg once, bind_assoc, pure_bind]
    obtain ⟨m, s₁, made⟩ := literal_total n s
    obtain ⟨_, t, rfl⟩ := literal_keeps n _ _ made
    obtain ⟨e', s₂, applied⟩ := apply_int_total base .mul (.literal n t) s₁
    obtain ⟨_, l, r, t', hl, hr, rfl⟩ := apply_keeps rfl rfl _ _ _ _ _ applied
    rw [run_bind_of_ok made, run_bind_of_ok applied]
    refine ⟨_, s₂, rfl, ?_⟩
    show l.word w * r.word w = e.word w
    rw [hl.word_eq, hr.word_eq, value chain]
    rfl

def sevenTimes : Session :=
  let x := Expr.argument 0 true 0
  let value := Expr.binary (.binary x .shiftLeft (.literal 3 1) 2 false) .sub x 3 false
  let temp : Temp :=
    { value := value, type := 3, stem := "temp", exactlyOnce := false, trivial := false }
  { rodata := {}, temps := #[temp] }

def fiveFirst : Valuation where
  temp
    | 0 => 35
    | _ => 0
  leaf _ := 5

lemma fiveFirst_valued : sevenTimes.Valued fiveFirst
  | 0 => by decide
  | n + 1 => by
    rfl

lemma sevenTimes_passes (h : Passes sevenTimes through
    (.binary (.unary .neg (.temp 0 3) 5) .shiftLeft (.literal 2 6) 7 false) x) :
    ShiftsLeft x ∧ Integral x ∧ Signed x := by
  cases h with
  | here => exact ⟨(by decide : (0 : Int) ≤ _), rfl, trivial⟩
  | right _ h =>
    cases h
    exact ⟨trivial, trivial, trivial⟩
  | left _ h =>
    cases h with
    | here => exact ⟨trivial, trivial, rfl⟩
    | operand h =>
      cases h with
      | here => exact ⟨trivial, trivial, trivial⟩
      | behind _ h =>
        cases h with
        | here => exact ⟨trivial, rfl, trivial⟩
        | right _ h =>
          cases h
          exact ⟨trivial, trivial, trivial⟩
        | left _ h =>
          cases h with
          | here => exact ⟨(by decide : (0 : Int) ≤ _), rfl, trivial⟩
          | left _ h | right _ h =>
            cases h
            exact ⟨trivial, trivial, trivial⟩

theorem foldMultiple_word_sevenTimes :
    let e := Expr.binary (.unary .neg (.temp 0 3) 5) .shiftLeft (.literal 2 6) 7 false
    ∃ e' s', (foldMultiple e).run sevenTimes = (.ok e', s') ∧ e'.word fiveFirst = e.word fiveFirst :=
  foldMultiple_word (fun _ _ _ => rfl) fiveFirst_valued
    (fun _ passes => (sevenTimes_passes passes).1) fun _ passes => (sevenTimes_passes passes).2

/-- A complement is taken for a minus sign. -/
theorem foldMultiple_complement :
    let e := Expr.binary (.unary .complement (.argument 0 true 0) 5) .shiftLeft (.literal 2 6) 7 false
    ∃ e' s', (foldMultiple e).run sevenTimes = (.ok e', s') ∧ e'.word fiveFirst ≠ e.word fiveFirst :=
  ⟨_, _, rfl, by decide⟩

end Eval

end Decompiler
