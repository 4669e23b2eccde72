import Decompiler.Proofs.ExpressionText

/-!
# The values of texts of integer expressions

The text of an expression of integers is read as a C expression with the same value, in every
arithmetic and for all values of its variables. This is not so if two minus signs meet or if a number
is converted to a type that does not hold it.

Main statement: `wholeText_value`.
-/

namespace Decompiler.Eval

open Asm Code Infer List

def Fits (skipCasts : Bool) (store : TypeStore) (n : Int) (t : TypeId) : Prop :=
  skipCasts = false → store.sizeBits t = 8 ∨ store.sizeBits t = 16 →
    0 ≤ n ∧ n < 2 ^ store.sizeBits t

def StartsWithMinus : Expr → Prop
  | .unary .neg _ _ => True
  | .literal n _ => n < 0
  | _ => False

/-- An expression in which the numbers that are written are in the range of their types, and no two
minus signs meet. -/
inductive Faithful (skipCasts : Bool) (s : Session) : Expr → Prop where
  | literal {n t} :
    Fits skipCasts s.types.store n t →
    Faithful skipCasts s (.literal n t)
  | unary {op e t} :
    Faithful skipCasts s e →
    (op = .neg → ¬ StartsWithMinus e) →
    Faithful skipCasts s (.unary op e t)
  | binary {l op r t floating l' op' r'} :
    Turned l op r floating l' op' r' →
    Faithful skipCasts s l' →
    Faithful skipCasts s r' →
    Faithful skipCasts s (.binary l op r t floating)
  | leaf {e} :
    IsLeaf s e →
    Faithful skipCasts s e

def IsVariableName (types : List String) (name : String) : Prop :=
  C.Source.IsSpelling name ∧ name ∉ C.Source.keywords ∧ name ∉ types

section

variable {store : TypeStore}

lemma regular_integerForm (n : Int) (unsigned : Bool) : (integerForm n unsigned).Regular types := by
  rw [integerForm]
  split
  · exact .signed .number fun _ => rfl
  · exact .number

lemma valueIn_integerForm (a : Arithmetic) (name : String → a.Value) (n : Int) (unsigned : Bool) :
    (integerForm n unsigned).valueIn a name = a.literal n := by
  rw [integerForm]
  split
  · rw [C.Form.valueIn, C.Form.valueIn, a.unary_neg]
    congr
    omega
  · rw [C.Form.valueIn]
    congr
    omega

lemma startsWithMinus_integerForm (sign : 0 ≤ n) (unsigned : Bool) :
    (integerForm n unsigned).startsWithMinus = false := by
  rw [integerForm, if_neg (not_lt.2 sign)]
  rfl

lemma regular_literalForm : (literalForm skipCasts store n t).Regular ("u8" :: "u16" :: types) := by
  rw [literalForm]
  split
  · exact regular_integerForm _ _
  split
  · exact .narrowed (.head _) (.inl ⟨rfl, rfl⟩) (regular_integerForm _ _)
  split
  · exact .narrowed (.tail _ (.head _)) (.inr ⟨rfl, rfl⟩) (regular_integerForm _ _)
  · exact regular_integerForm _ _

lemma narrow_literal (a : Arithmetic) (range : 0 ≤ n ∧ n < 2 ^ bits) :
    a.narrow bits (a.literal n) = a.literal n := by
  obtain ⟨m, rfl⟩ := Int.eq_ofNat_of_zero_le range.1
  exact a.narrow_literal bits m (by exact_mod_cast range.2)

lemma valueIn_literalForm (fits : Fits skipCasts store n t) (a : Arithmetic)
    (name : String → a.Value) :
    (literalForm skipCasts store n t).valueIn a name = a.literal n := by
  rw [literalForm]
  split
  · exact valueIn_integerForm _ _ _ _
  case isFalse casts =>
    have range := fits (by simpa using casts)
    split
    case isTrue bits =>
      have bits : store.sizeBits t = 8 := by simpa using bits
      rw [C.Form.valueIn, valueIn_integerForm]
      exact narrow_literal a (bits ▸ range (.inl bits))
    case isFalse =>
      split
      case isTrue bits =>
        have bits : store.sizeBits t = 16 := by simpa using bits
        rw [C.Form.valueIn, valueIn_integerForm]
        exact narrow_literal a (bits ▸ range (.inr bits))
      case isFalse => exact valueIn_integerForm _ _ _ _

lemma startsWithMinus_literalForm (sign : 0 ≤ n) :
    (literalForm skipCasts store n t).startsWithMinus = false := by
  rw [literalForm]
  split
  · exact startsWithMinus_integerForm sign _
  split
  · rfl
  split
  · rfl
  · exact startsWithMinus_integerForm sign _

end

section

variable {e : Expr}

lemma startsWithMinus_form (integer : IsInteger s e) (minus : ¬ StartsWithMinus e) :
    (form skipCasts s e).startsWithMinus = false := by
  cases integer with
  | literal => exact startsWithMinus_literalForm (not_lt.1 minus)
  | @unary op =>
    cases op with
    | neg => exact absurd trivial minus
    | complement | not => rfl
  | @binary l op r t floating =>
    obtain ⟨l', op', r', turned⟩ := exists_turned l op r floating
    rw [turned.form]
    rfl
  | leaf leaf =>
    rw [form_leaf leaf]
    rfl

lemma regular_form (faithful : Faithful skipCasts s e) (integer : IsInteger s e)
    (names : ∀ leaf ∈ leaves e, IsVariableName ("u8" :: "u16" :: types) (leafName s leaf)) :
    (form skipCasts s e).Regular ("u8" :: "u16" :: types) := by
  induction faithful with
  | literal => exact regular_literalForm
  | unary faithful minus ih =>
    cases integer with
    | unary integer =>
      exact .signed (ih integer names) fun neg => startsWithMinus_form integer (minus neg)
    | leaf leaf => cases leaf
  | @binary l op r t floating l' op' r' turned _ _ ihl ihr =>
    cases integer with
    | binary left right =>
      obtain ⟨left, right⟩ := turned.integer left right
      rw [turned.form]
      refine .group (ihl left fun leaf mem => ?_) (ihr right fun leaf mem => ?_) ?_
      · exact names leaf (turned.mem_leaves leaf (mem_append_left _ mem))
      · exact names leaf (turned.mem_leaves leaf (mem_append_right _ mem))
      · exact fun bare => operator?_form bare s
    | leaf leaf => cases leaf
  | @leaf e leaf =>
    rw [form_leaf leaf]
    obtain ⟨spelling, keyword, type⟩ := names e (by rw [leaves_leaf leaf]; exact .head _)
    exact .name spelling keyword type

lemma valueIn_form (faithful : Faithful skipCasts s e) (a : Arithmetic) {σ}
    {ρ} (values : ∀ leaf ∈ leaves e, ρ (leafName s leaf) = σ leaf) :
    (form skipCasts s e).valueIn a ρ = e.valueIn a σ := by
  induction faithful with
  | literal fits => exact valueIn_literalForm fits a ρ
  | unary _ _ ih => exact congrArg (a.unary _) (ih values)
  | @binary l op r t floating l' op' r' turned _ _ ihl ihr =>
    have left := ihl fun leaf mem => values leaf (turned.mem_leaves leaf (mem_append_left _ mem))
    have right := ihr fun leaf mem =>
      values leaf (turned.mem_leaves leaf (mem_append_right _ mem))
    rw [turned.form, C.Form.valueIn, left, right]
    exact turned.value a σ
  | @leaf e leaf =>
    rw [form_leaf leaf, valueIn_leaf leaf, ← values e (by rw [leaves_leaf leaf]; exact .head _)]
    rfl

end

section

def Balanced (cs : List Char) : Prop :=
  ∀ opened rest, isBalanced opened (cs ++ rest) = isBalanced opened rest

variable {cs : List Char} {e : C.Form}

lemma Balanced.append (first : Balanced cs) (second : Balanced ds) : Balanced (cs ++ ds) := by
  intro opened rest
  rw [append_assoc, first, second]

lemma Balanced.parens (h : Balanced cs) : Balanced ('(' :: (cs ++ [')'])) := by
  intro opened rest
  rw [cons_append, append_assoc]
  exact h (opened + 1) (')' :: rest)

lemma balanced_of_forall (other : ∀ c ∈ cs, c ≠ '(' ∧ c ≠ ')') : Balanced cs := by
  intro opened rest
  induction cs with
  | nil => rfl
  | cons c cs ih =>
    obtain ⟨notOpening, notClosing⟩ := other c (.head _)
    rw [cons_append, isBalanced.eq_def]
    simp only [beq_iff_eq, notOpening, notClosing, if_false]
    exact ih fun c mem => other c (.tail _ mem)

lemma balanced_of_all (other : (cs.all fun c => c != '(' && c != ')')) : Balanced cs :=
  balanced_of_forall fun c mem => by simpa using all_eq_true.1 other c mem

lemma balanced_singleton (other : c ≠ '(' ∧ c ≠ ')') : Balanced [c] :=
  balanced_of_forall fun _ mem => mem_singleton.1 mem ▸ other

lemma ne_parens_of_isNameChar (h : C.Source.isNameChar c) : c ≠ '(' ∧ c ≠ ')' := by
  constructor <;> rintro rfl <;> cases h

lemma balanced_name (spelled : C.Source.IsSpelling name) : Balanced name.toList := by
  obtain ⟨c, cs, text, start, others⟩ := spelled
  rw [text]
  refine balanced_of_forall fun d mem => ne_parens_of_isNameChar ?_
  rcases mem_cons.1 mem with rfl | mem
  · rw [C.Source.isNameChar, start, Bool.true_or]
  · exact others d mem

lemma balanced_numeral (n : Nat) (unsigned : Bool) : Balanced (C.Source.numeral n unsigned) := by
  have letter : Balanced (if unsigned then ['U'] else []) := by
    cases unsigned with
    | false => exact fun _ _ => rfl
    | true => exact balanced_singleton (by decide)
  refine .append ?_ letter
  split
  case isTrue small => interval_cases n <;> exact balanced_singleton (by decide)
  case isFalse =>
    refine balanced_of_forall fun c mem => ?_
    rcases mem with _ | ⟨_, _ | ⟨_, mem⟩⟩
    · decide
    · decide
    · have digit := C.Source.isHexDigit_upper mem
      constructor <;> rintro rfl <;> cases digit

lemma balanced_narrow
    (narrow : (type = "u8" ∧ bits = 8) ∨ (type = "u16" ∧ bits = 16)) : Balanced type.toList := by
  rcases narrow with ⟨rfl, -⟩ | ⟨rfl, -⟩ <;> exact balanced_of_all (by decide)

lemma balanced_written (regular : e.Regular types) (parens : Bool) : Balanced (e.written parens) := by
  induction regular generalizing parens with
  | name spelled => exact balanced_name spelled
  | @number n unsigned => exact balanced_numeral n unsigned
  | @signed op e _ _ ih =>
    refine .append ?_ (ih true)
    cases op <;> exact balanced_singleton (by decide)
  | @narrowed type bits e _ narrow _ ih =>
    have whole := (balanced_narrow narrow).parens.append (ih true)
    simpa [C.Form.written] using whole
  | @group bare l op r _ _ _ ihl ihr =>
    have operator : Balanced (' ' :: (op.text.toList ++ [' '])) := by
      cases op <;> exact balanced_of_all (by decide)
    have inside := ((ihl !bare).append operator).append (ihr true)
    cases parens with
    | false => simpa [C.Form.written] using inside
    | true => simpa [C.Form.written] using inside.parens

lemma startsWith_paren : (String.ofList cs).startsWith "(" ↔ ['('] <+: cs := by
  simp

lemma stripParens_other (other : c ≠ '(') :
    stripParens (String.ofList (c :: cs)) = String.ofList (c :: cs) := by
  have start : ¬ String.startsWith (String.ofList (c :: cs)) "(" := by
    rw [startsWith_paren]
    exact fun h => other (cons_prefix_cons.1 h).1.symm
  rw [stripParens, Bool.eq_false_iff.2 start]
  rfl

lemma stripParens_parens (balanced : Balanced cs) :
    stripParens (String.ofList ('(' :: (cs ++ [')']))) = String.ofList cs := by
  have inside : inner (String.ofList ('(' :: (cs ++ [')']))) = String.ofList cs := by simp [inner]
  have whole : isBalanced 0 cs := by
    rw [← append_nil cs, balanced 0 []]
    rfl
  have start : String.startsWith (String.ofList ('(' :: (cs ++ [')']))) "(" :=
    startsWith_paren.2 (prefix_append ['('] _)
  rw [stripParens, start, inside, String.toList_ofList, whole]
  rfl

lemma stripParens_closed (balanced : Balanced cs) :
    stripParens (String.ofList ('(' :: (cs ++ ')' :: c :: ds))) =
      String.ofList ('(' :: (cs ++ ')' :: c :: ds)) := by
  have inside : (inner (String.ofList ('(' :: (cs ++ ')' :: c :: ds)))).toList =
      cs ++ ')' :: (c :: ds).dropLast := by
    simp [inner, dropLast_append_of_ne_nil]
  have early : isBalanced 0 (inner (String.ofList ('(' :: (cs ++ ')' :: c :: ds)))).toList = false := by
    rw [inside, balanced]
    rfl
  rw [stripParens, early, Bool.and_false]
  rfl

lemma stripParens_written (regular : e.Regular types) :
    stripParens (String.ofList (e.written true)) = String.ofList (e.written false) := by
  cases regular with
  | name spelled =>
    obtain ⟨c, cs, text, start, -⟩ := spelled
    rw [C.Form.written, C.Form.written, text]
    refine stripParens_other ?_
    rintro rfl
    cases start
  | @number n unsigned =>
    obtain ⟨c, cs, text, digit⟩ := C.Source.numeral_eq_cons n unsigned
    rw [C.Form.written, C.Form.written, text]
    refine stripParens_other ?_
    rintro rfl
    cases digit
  | @signed op => cases op <;> exact stripParens_other (by decide)
  | @narrowed type bits e _ narrow regular =>
    obtain ⟨c, cs, text, -⟩ := C.Form.written_start regular
    rw [C.Form.written, C.Form.written, text]
    exact stripParens_closed (balanced_narrow narrow)
  | group left right bare =>
    rw [C.Form.written_true rfl]
    exact stripParens_parens (balanced_written (.group left right bare) false)

end

lemma Faithful.named (faithful : Faithful skipCasts s e)
    (named : s.Named s') : Faithful skipCasts s' e := by
  induction faithful with
  | literal fits => exact .literal (named.types ▸ fits)
  | unary _ minus ih => exact .unary ih minus
  | binary turned _ _ ihl ihr => exact .binary turned ihl ihr
  | leaf leaf => exact .leaf (leaf.named named)

/-- The text of an integer expression is read as an expression with the same value, in every
arithmetic and for all values of the variables. -/
theorem wholeText_value {s : Session} {skipCasts : Bool} {e : Expr} (integer : IsInteger s e)
    (faithful : Faithful skipCasts s e) :
    ∃ text s', (wholeText skipCasts e).run s = (.ok text, s') ∧
      ∀ types, (∀ leaf ∈ leaves e, IsVariableName ("u8" :: "u16" :: types) (leafName s' leaf)) →
        ∃ e', C.readExpression ("u8" :: "u16" :: types) text = .ok e' ∧
          ∀ (a : Arithmetic) (σ : Expr → a.Value) (ρ : String → a.Value),
            (∀ leaf ∈ leaves e, ρ (leafName s' leaf) = σ leaf) →
            e'.valueIn a ρ = some (e.valueIn a σ) := by
  obtain ⟨text, s', run, named, written⟩ :=
    exprTextFrom_writes (s := s) integer (Nat.le_add_left e.depth s.reach) .refl
  refine ⟨stripParens text, s', ?_, fun types names => ?_⟩
  · rw [wholeText, exprText]
    exact run_bind_of_ok (run_get_bind.trans run)
  · have text : text = String.ofList ((form skipCasts s' e).written true) := by
      rw [← written s' .refl, String.ofList_toList]
    have regular := regular_form (faithful.named named) (integer.named named) names
    obtain ⟨e', read, denotes⟩ := C.readExpression_written regular
    refine ⟨e', ?_, fun a σ ρ values => ?_⟩
    · rw [text, stripParens_written regular, read]
    · rw [denotes a ρ, valueIn_form (faithful.named named) a values]

def wordAndByte : Session :=
  { types := { store := { nodes := #[.integer, .ofSize 8] } }, rodata := {} }

def fiveLess : Expr :=
  .binary (.literal 5 0) .lt (.binary (.symbol "x" 0) .add (.literal (-3) 1) 0 false) 0 false

/-- The comparison is written as `(x - (u8)3) > 5`. -/
theorem wholeText_value_fiveLess :
    IsInteger wordAndByte fiveLess ∧ Faithful false wordAndByte fiveLess ∧
    ∃ text s' e', (wholeText false fiveLess).run wordAndByte = (.ok text, s') ∧
      C.readExpression ["u8", "u16"] text = .ok e' ∧
      ∀ x : Int, e'.valueIn .integers (fun _ => x) = some (C.truth (5 < x + -3)) := by
  have integer : IsInteger wordAndByte fiveLess :=
    .binary (.literal rfl rfl) (.binary (.leaf trivial) (.literal rfl rfl))
  have faithful : Faithful false wordAndByte fiveLess := by
    refine .binary (.flipped rfl) (.binary (.subtracted (by decide)) (.leaf trivial) ?_) ?_
    · exact .literal fun _ _ => by decide
    · exact .literal fun _ bits => absurd bits (by decide)
  refine ⟨integer, faithful, ?_⟩
  obtain ⟨text, s', run, value⟩ := wholeText_value integer faithful
  have names : ∀ leaf ∈ leaves fiveLess, IsVariableName ["u8", "u16"] (leafName s' leaf) := by
    intro leaf mem
    obtain rfl := List.mem_singleton.1 mem
    have name : leafName s' (.symbol "x" 0) = "x" := rfl
    rw [name]
    exact ⟨⟨'x', [], rfl, rfl, nofun⟩, by decide, by decide⟩
  obtain ⟨e', read, value⟩ := value [] names
  exact ⟨text, s', e', run, read, fun x => value .integers (fun _ => x) (fun _ => x) fun _ _ => rfl⟩

def integerOf? (text : String) : Option Int := do
  let e ← (C.readExpression ["u8", "u16"] text).toOption
  e.valueIn .integers fun _ => Arithmetic.integers.literal 0

/-- Two minus signs that meet are read as a decrement, which a number does not have, and a negative
byte becomes positive. -/
theorem wholeText_value_differs :
    (∀ e ∈ [Expr.unary .neg (.literal (-5) 0) 0, .literal (-1) 1], IsInteger wordAndByte e) ∧
    ((wholeText false (.unary .neg (.literal (-5) 0) 0)).run wordAndByte).1.toOption = some "--5" ∧
    integerOf? "--5" = none ∧
    (∀ σ, (Expr.unary .neg (.literal (-5) 0) 0).valueIn .integers σ = Arithmetic.integers.literal 5) ∧
    ((wholeText false (.literal (-1) 1)).run wordAndByte).1.toOption = some "(u8)-1" ∧
    integerOf? "(u8)-1" = some 255 ∧
    ∀ σ, (Expr.literal (-1) 1).valueIn .integers σ = Arithmetic.integers.literal (-1) := by
  refine ⟨?_, ?_, ?_, fun _ => rfl, ?_, ?_, fun _ => rfl⟩
  · rintro e (_ | ⟨_, _ | ⟨_, ⟨⟩⟩⟩)
    · exact .unary (.literal rfl rfl)
    · exact .literal rfl rfl
  all_goals decide +kernel

end Decompiler.Eval
