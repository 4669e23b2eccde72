import Decompiler.C.Grammar.Unit
import Decompiler.Proofs.Arithmetic
import Decompiler.Proofs.CTokens

/-!
# Reading C expressions

How a text is read as an expression that consists of names, numbers, operators, conversions to narrow
types and parentheses. Operations stand in parentheses, except for those on the left of an operator
of the same level.
-/

namespace Decompiler.C

open Code Source Read Expression List Token Declaration

variable {types : List String} {α β : Type} {ts us vs : List Token} {t : Token}

lemma Token.IsLike.is (h : t.IsLike t') (text : String) : t.is text = t'.is text := by
  rw [Token.is, Token.is, h.1, h.2]

lemma Token.IsLike.isOneOf (h : t.IsLike t') (texts : List String) :
    t.isOneOf texts = t'.isOneOf texts := by
  rw [Token.isOneOf, Token.isOneOf, h.1, h.2]

lemma Token.IsLike.startsBase (h : t.IsLike t') : t.startsBase = t'.startsBase := by
  rw [Token.startsBase, Token.startsBase, h.1, h.isOneOf, h.isOneOf]

lemma Token.IsLike.startsTypeName (h : t.IsLike t') : t.startsTypeName = t'.startsTypeName := by
  rw [Token.startsTypeName, Token.startsTypeName, h.startsBase, h.isOneOf]

structure Ahead (types : List String) (ts : List Token) (s : Source) : Prop where
  ready : s.Ready types
  token : s.token.IsLike (.first ts)
  rest : ∀ t us, ts = t :: us → Lexes types s.rest us

def Reads (types : List String) (x : Read α) (ts us : List Token) (p : α → Prop) : Prop :=
  ∀ s, Ahead types ts s → ∃ a s', x.run s = .ok (a, s') ∧ Ahead types us s' ∧ p a

section

variable {p q : α → Prop} {r : β → Prop} {a : α}

lemma Reads.pure (h : p a) : Reads types (pure a) ts ts p :=
  fun s ahead => ⟨a, s, rfl, ahead, h⟩

lemma Reads.bind (first : Reads types x ts us p) (second : ∀ a, p a → Reads types (f a) us vs r) :
    Reads types (x >>= f) ts vs r := by
  intro s ahead
  obtain ⟨a, s', run, ahead, h⟩ := first s ahead
  obtain ⟨b, s'', run', ahead, h⟩ := second a h s' ahead
  refine ⟨b, s'', ?_, ahead, h⟩
  rw [StateT.run_bind, run]
  exact run'

lemma Reads.mono (h : Reads types x ts us p) (le : ∀ a, p a → q a) : Reads types x ts us q := by
  intro s ahead
  obtain ⟨a, s', run, ahead, h⟩ := h s ahead
  exact ⟨a, s', run, ahead, le a h⟩

lemma reads_peek : Reads types peek ts ts (·.IsLike (.first ts)) :=
  fun s ahead => ⟨s.token, s, rfl, ahead, ahead.token⟩

lemma reads_next : Reads types next (t :: ts) ts (·.IsLike t) := by
  intro s ahead
  have lexes := ahead.rest t ts rfl
  have enough : s.rest.length < s.size + 1 := Nat.lt_succ_of_le ahead.ready.size
  have run {s'} (read : readFrom (s.size + 1) s = .ok s') :
      next.run s = .ok (s.token, s') := by
    simp [Read.next, Source.read, read]
  cases lexes with
  | nil last =>
    obtain ⟨s', read, token, -, ready⟩ := last s _ ahead.ready rfl enough
    exact ⟨_, s', run read, ⟨ready, token, nofun⟩, ahead.token⟩
  | cons first shorter others =>
    obtain ⟨s', read, token, rest, ready⟩ := first s _ ahead.ready rfl enough
    refine ⟨_, s', run read, ⟨ready, token, ?_⟩, ahead.token⟩
    intro t us same
    obtain ⟨-, rfl⟩ := cons.inj same
    rw [rest]
    exact others

lemma reads_skip : Reads types (discard next) (t :: ts) ts fun _ => True :=
  reads_next.bind fun _ _ => .pure trivial

lemma reads_bound : Reads types bound ts ts (ts.length < ·) := by
  intro s ahead
  refine ⟨s.size + 2, s, rfl, ahead, ?_⟩
  cases ts with
  | nil => exact Nat.succ_pos _
  | cons t ts =>
    have some := (ahead.rest t ts rfl).length_le
    have all := ahead.ready.size
    rw [length_cons]
    omega

lemma reads_placeOf (t : Token) : Reads types (placeOf t) ts ts fun _ => True :=
  fun s ahead => ⟨s.place t.line t.column, s, rfl, ahead, trivial⟩

lemma reads_fresh : Reads types fresh ts ts fun _ => True := by
  intro s ahead
  exact ⟨s.fresh, { s with fresh := s.fresh + 1 }, rfl,
    ⟨⟨ahead.ready.mode, ahead.ready.scopes, ahead.ready.size⟩, ahead.token, ahead.rest⟩, trivial⟩

lemma reads_accept {text} (here : t.is text) : Reads types (accept text) (t :: ts) ts (·) := by
  refine reads_peek.bind fun a like => ?_
  rw [like.is, first, here]
  exact reads_skip.bind fun _ _ => .pure rfl

lemma reads_accept_not {text} (other : (first ts).is text = false) :
    Reads types (accept text) ts ts (· = false) := by
  refine reads_peek.bind fun a like => ?_
  rw [like.is, other]
  exact .pure rfl

lemma reads_require {text} (here : t.is text) :
    Reads types (require text) (t :: ts) ts fun _ => True := by
  refine reads_peek.bind fun a like => ?_
  rw [like.is, first, here]
  exact reads_skip

lemma reads_loop_stop (pos : 0 < n)
    (stops : Reads types (step a) ts us fun r => p r.1 ∧ r.2 = false) :
    Reads types (loop step n a) ts us p := by
  obtain ⟨n, rfl⟩ := Nat.exists_eq_succ_of_ne_zero (ne_of_gt pos)
  refine stops.bind ?_
  rintro ⟨a, more⟩ ⟨h, rfl⟩
  exact .pure h

lemma reads_bounded_stop (stops : Reads types (step a) ts us fun r => p r.1 ∧ r.2 = false) :
    Reads types (do loop step (← bound) a) ts us p :=
  reads_bound.bind fun _ enough => reads_loop_stop (Nat.zero_lt_of_lt enough) stops

lemma reads_loop_more (goes : Reads types (step a) ts us fun r => q r.1 ∧ r.2)
    (others : ∀ a, q a → Reads types (loop step n a) us vs p) :
    Reads types (loop step (n + 1) a) ts vs p := by
  refine goes.bind ?_
  rintro ⟨a, more⟩ ⟨h, rfl⟩
  exact others a h

end

def binOps : List BinOp :=
  [.add, .sub, .mul, .div, .mod, .shiftLeft, .shiftRight, .bitAnd, .bitOr, .bitXor, .eq, .ne, .lt, .le,
    .gt, .ge, .and, .or]

def Follows (t : Token) : Prop :=
  t.kind = .eof ∨ t.kind = .operator ∧ t.text ∈ ")" :: binOps.map BinOp.text

def Closes (t : Token) : Prop :=
  t.kind = .eof ∨ t.kind = .operator ∧ t.text = ")"

lemma Closes.follows (closes : Closes t) : Follows t := by
  rcases closes with kind | ⟨kind, text⟩
  · exact .inl kind
  · exact .inr ⟨kind, text ▸ mem_cons_self⟩

lemma follows_operatorToken (op : BinOp) : Follows (operatorToken op.text) := by
  refine .inr ⟨rfl, mem_cons_of_mem _ (mem_map_of_mem ?_)⟩
  cases op <;> decide

lemma isOneOf_apart {allowed texts : List String}
    (h : t.kind = .eof ∨ t.kind = .operator ∧ t.text ∈ allowed)
    (apart : ∀ text ∈ texts, text ∉ allowed) : t.isOneOf texts = false := by
  rcases h with kind | ⟨-, mem⟩
  · rw [isOneOf, kind]
    rfl
  · have absent : texts.contains t.text = false := by
      rw [Bool.eq_false_iff]
      exact fun found => apart _ (contains_iff_mem.1 found) mem
    rw [isOneOf, absent, Bool.and_false]

lemma Follows.is (follows : Follows t) {text} (other : text ∉ ")" :: binOps.map BinOp.text) :
    t.is text = false := by
  have apart := isOneOf_apart follows (forall_mem_singleton.2 other)
  rwa [isOneOf, contains_cons, contains_nil, Bool.or_false] at apart

lemma assignments_apart : ∀ text ∈ assignments, text ∉ ")" :: binOps.map BinOp.text := by
  decide

section

variable {go : Reader} {e : Expr}

lemma reads_postfixes (follows : Follows (.first ts)) :
    Reads types (postfixes go e) ts ts (· = e) := by
  refine reads_bounded_stop (reads_peek.bind fun t like => ?_)
  have other {text} (absent : text ∉ ")" :: binOps.map BinOp.text) :
      t.is text = false := by
    rw [like.is]
    exact follows.is absent
  rw [other (by decide), other (by decide), other (by decide), other (by decide), other (by decide),
    other (by decide)]
  exact .pure ⟨rfl, rfl⟩

lemma reads_operations_append {looser levels}
    (none : ∀ ops ∈ looser, (first us).isOneOf ops = false)
    (reads : Reads types (operations go levels e) ts us p) :
    Reads types (operations go (looser ++ levels) e) ts us p := by
  induction looser with
  | nil => exact reads
  | cons ops looser ih =>
    obtain ⟨here, none⟩ := forall_mem_cons.1 none
    refine (ih none).bind fun e h => reads_bounded_stop (reads_peek.bind fun t like => ?_)
    rw [like.isOneOf, here]
    exact .pure ⟨h, rfl⟩

lemma reads_operations_none {levels} (none : ∀ ops ∈ levels, (first ts).isOneOf ops = false) :
    Reads types (operations go levels e) ts ts (· = e) := by
  rw [← append_nil levels]
  exact reads_operations_append none (.pure rfl)

end

inductive Form where
  | name (text : String)
  | number (n : Nat) (unsigned : Bool)
  | signed (op : UnOp) (operand : Form)
  | narrowed (type : String) (bits : Nat) (operand : Form)
  /-- An operation in parentheses; `bare` says that there are none around its left side. -/
  | group (bare : Bool) (left : Form) (op : BinOp) (right : Form)

def level : BinOp → Nat
  | .or => 0
  | .and => 1
  | .bitOr => 2
  | .bitXor => 3
  | .bitAnd => 4
  | .eq | .ne => 5
  | .lt | .le | .gt | .ge => 6
  | .shiftLeft | .shiftRight => 7
  | .add | .sub => 8
  | .mul | .div | .mod => 9

lemma level_lt (op : BinOp) : level op < levels.length := by
  cases op <;> decide

lemma isOneOf_levels (op : BinOp) (i : Nat) (ops : List String)
    (found : levels[i]? = some ops) :
    (operatorToken op.text).isOneOf ops = decide (i = level op) := by
  have lt := (List.getElem?_eq_some_iff.1 found).1
  have small : i < 10 := lt
  interval_cases i <;> cases found <;> cases op <;> rfl

namespace Form

def written : (parens : Bool) → Form → List Char
  | _, .name text => text.toList
  | _, .number n unsigned => numeral n unsigned
  | _, .signed op e => op.text.toList ++ e.written true
  | _, .narrowed type _ e => '(' :: (type.toList ++ ')' :: e.written true)
  | true, .group bare l op r =>
    '(' :: (l.written (!bare) ++ ' ' :: (op.text.toList ++ ' ' :: (r.written true ++ [')'])))
  | false, .group bare l op r =>
    l.written (!bare) ++ ' ' :: (op.text.toList ++ ' ' :: r.written true)

def tokens : (parens : Bool) → Form → List Token
  | _, .name text => [⟨.name, text, 0, 0⟩]
  | _, .number n unsigned => [⟨.constant, String.ofList (numeral n unsigned), 0, 0⟩]
  | _, .signed op e => operatorToken op.text :: e.tokens true
  | _, .narrowed type _ e =>
    operatorToken "(" :: ⟨.typeName, type, 0, 0⟩ :: operatorToken ")" :: e.tokens true
  | true, .group bare l op r =>
    operatorToken "(" :: (l.tokens (!bare) ++ operatorToken op.text :: (r.tokens true ++
      [operatorToken ")"]))
  | false, .group bare l op r => l.tokens (!bare) ++ operatorToken op.text :: r.tokens true

def valueIn (a : Arithmetic) (name : String → a.Value) : Form → a.Value
  | .name text => name text
  | .number n _ => a.literal n
  | .signed op e => a.unary op (e.valueIn a name)
  | .narrowed _ bits e => a.narrow bits (e.valueIn a name)
  | .group _ l op r => a.binary op (l.valueIn a name) (r.valueIn a name)

def startsWithMinus : Form → Bool
  | .signed .neg _ => true
  | _ => false

def operator? : Form → Option BinOp
  | .group _ _ op _ => some op
  | _ => none

/-- A form in which names are names of variables, no two minus signs meet and only operations of the
same level have no parentheses around them. -/
inductive Regular (types : List String) : Form → Prop where
  | name {text} :
    IsSpelling text →
    text ∉ keywords →
    text ∉ types →
    Regular types (.name text)
  | number {n unsigned} :
    Regular types (.number n unsigned)
  | signed {op e} :
    Regular types e →
    (op = .neg → e.startsWithMinus = false) →
    Regular types (.signed op e)
  | narrowed {type bits e} :
    type ∈ types →
    (type = "u8" ∧ bits = 8) ∨ (type = "u16" ∧ bits = 16) →
    Regular types e →
    Regular types (.narrowed type bits e)
  | group {bare l op r} :
    Regular types l →
    Regular types r →
    (bare = true → ∃ op', l.operator? = some op' ∧ level op' = level op) →
    Regular types (.group bare l op r)

variable {e l r : Form} {op : BinOp} {cs rest : List Char}

lemma written_true (operation : e.operator? = some op) :
    e.written true = '(' :: (e.written false ++ [')']) := by
  cases e with
  | group => simp [written]
  | _ => cases operation

lemma written_start (regular : Regular types e) :
    ∃ c cs, e.written true = c :: cs ∧ c ≠ '=' ∧ c ≠ '>' ∧
      (e.startsWithMinus = false → c ≠ '-') := by
  cases regular with
  | name spelled =>
    obtain ⟨c, cs, text, start, -⟩ := spelled
    refine ⟨c, cs, text, ?_, ?_, fun _ => ?_⟩ <;> rintro rfl <;> cases start
  | @number n unsigned =>
    obtain ⟨c, cs, text, digit⟩ := numeral_eq_cons n unsigned
    refine ⟨c, cs, text, ?_, ?_, fun _ => ?_⟩ <;> rintro rfl <;> cases digit
  | @signed op e =>
    cases op with
    | neg => exact ⟨_, _, rfl, by decide, by decide, nofun⟩
    | complement | not => exact ⟨_, _, rfl, by decide, by decide, fun _ => by decide⟩
  | narrowed | group => exact ⟨_, _, rfl, by decide, by decide, fun _ => by decide⟩

/-- An expression is written as its tokens. -/
lemma lexes_written (regular : Regular types e) (parens : Bool) (stops : Stops rest)
    (others : Lexes types rest ts) :
    Lexes types (e.written parens ++ rest) (e.tokens parens ++ ts) := by
  induction regular generalizing parens rest ts with
  | @name text spelled keyword type =>
    have absent : types.contains text = false := by simpa using type
    have lexed : Lexes types (text.toList ++ rest)
        (⟨if types.contains text then .typeName else .name, text, 0, 0⟩ :: ts) :=
      .name spelled keyword stops others
    rw [absent] at lexed
    exact lexed
  | number => exact .number _ _ stops others
  | @signed op e regular minus ih =>
    rw [written, append_assoc]
    refine .unary op ?_ (ih true stops others)
    obtain ⟨c, cs, text, equals, greater, start⟩ := written_start regular
    rw [text]
    rintro c' ⟨⟩
    exact ⟨equals, fun neg => ⟨start (minus neg), greater⟩⟩
  | @narrowed type bits e mem known regular ih =>
    have spelled : IsSpelling type := by
      rcases known with ⟨rfl, -⟩ | ⟨rfl, -⟩ <;>
        exact ⟨_, _, rfl, rfl, all_eq_true.1 (by decide)⟩
    have keyword : type ∉ keywords := by
      rcases known with ⟨rfl, -⟩ | ⟨rfl, -⟩ <;> decide
    have named : Lexes types (type.toList ++ ')' :: (e.written true ++ rest))
        (⟨if types.contains type then .typeName else .name, type, 0, 0⟩ :: operatorToken ")" ::
          (e.tokens true ++ ts)) :=
      .name spelled keyword stops_closing (ih true stops others).closing
    rw [contains_iff_mem.2 mem] at named
    simpa [written, tokens] using named.opening
  | @group bare l op r _ _ _ ihl ihr =>
    have behind {rest} {ts} (stops : Stops rest)
        (others : Lexes types rest ts) :
        Lexes types (l.written (!bare) ++ ' ' :: (op.text.toList ++ ' ' :: (r.written true ++ rest)))
          (l.tokens (!bare) ++ operatorToken op.text :: (r.tokens true ++ ts)) :=
      ihl (!bare) stops_space (Lexes.binary op (ihr true stops others)).space
    cases parens with
    | false => simpa [written, tokens] using behind stops others
    | true => simpa [written, tokens] using (behind stops_closing others.closing).opening

def Denotes (e : Form) (e' : C.Expr) : Prop :=
  ∀ a name, e'.valueIn a name = some (e.valueIn a name)

def seed : Form → Form
  | .group true l _ _ => l.seed
  | .group false l _ _ => l
  | e => e

/-- The operators behind the seed, with their right sides. -/
def steps : Form → List (BinOp × Form)
  | .group true l op r => l.steps ++ [(op, r)]
  | .group false _ op r => [(op, r)]
  | _ => []

def stepTokens (steps : List (BinOp × Form)) : List Token :=
  steps.flatMap fun s => operatorToken s.1.text :: s.2.tokens true

def chain (first : Form) (steps : List (BinOp × Form)) : Form :=
  steps.foldl (fun l s => group true l s.1 s.2) first

def ForOperands (p : Form → Prop) (e : Form) : Prop :=
  p e.seed ∧ ∀ s ∈ e.steps, p s.2

lemma tokens_false (e : Form) : e.tokens false = e.seed.tokens true ++ stepTokens e.steps := by
  induction e with
  | group bare l op r ihl => cases bare <;> simp [tokens, seed, steps, stepTokens, ihl]
  | _ => simp [tokens, seed, steps, stepTokens]

lemma valueIn_chain (e : Form) (a : Arithmetic) (name : String → a.Value) :
    (chain e.seed e.steps).valueIn a name = e.valueIn a name := by
  induction e with
  | group bare l op r ihl =>
    cases bare with
    | false => rfl
    | true => simpa [chain, seed, steps, valueIn] using congrArg (a.binary op · _) ihl
  | _ => rfl

lemma length_le_stepTokens (steps : List (BinOp × Form)) :
    steps.length ≤ (stepTokens steps).length := by
  induction steps with
  | nil => exact le_rfl
  | cons s steps ih =>
    simp only [stepTokens, flatMap_cons, length_append, length_cons] at ih ⊢
    omega

lemma first_stepTokens (steps) {p : Token → Prop} (each : ∀ s ∈ steps, p (operatorToken s.1.text))
    (last : p (.first ts)) : p (.first (stepTokens steps ++ ts)) := by
  cases steps with
  | nil => exact last
  | cons s steps => exact each s mem_cons_self

lemma Regular.level_steps (regular : Regular types e) :
    ∀ s ∈ e.steps, level s.1 = e.operator?.elim 0 level := by
  induction regular with
  | @group bare l op r _ _ same ihl =>
    cases bare with
    | false => exact forall_mem_singleton.2 rfl
    | true =>
      obtain ⟨op', left, equal⟩ := same rfl
      rw [left] at ihl
      exact forall_mem_append.2 ⟨fun s mem => (ihl s mem).trans equal, forall_mem_singleton.2 rfl⟩
  | _ => nofun

lemma Denotes.binary (hl : l.Denotes left) (hr : r.Denotes right) :
    (group bare l op r).Denotes (.binary op.text left right) := by
  intro a name
  have known : binOp? op.text = some op := by
    cases op <;> decide
  simp [Expr.valueIn, known, hl a name, hr a name, valueIn]

lemma Denotes.unary {op operand} (h : e.Denotes operand) :
    (signed op e).Denotes (.unary op.text operand) := by
  intro a name
  have known : unOp? op.text = some op := by
    cases op <;> decide
  simp [Expr.valueIn, known, h a name, valueIn]

def Loose (k : Nat) (t : Token) : Prop :=
  ∀ ops ∈ Expression.levels.drop (k + 1), t.isOneOf ops = false

lemma loose_operatorToken (op : BinOp) : Loose (level op) (operatorToken op.text) := by
  intro ops mem
  obtain ⟨i, found⟩ := mem_iff_getElem?.1 mem
  rw [getElem?_drop] at found
  rw [isOneOf_levels op _ ops found, decide_eq_false_iff_not]
  omega

lemma isOneOf_of_closes (closes : Closes t) (ops : List String) (mem : ops ∈ levels) :
    t.isOneOf ops = false := by
  have levels : ∀ ops ∈ levels, ∀ text ∈ ops, text ∉ [")"] := by decide
  exact isOneOf_apart (closes.imp_right (And.imp_right mem_singleton.2)) (levels ops mem)

section

variable {step : C.Expr → Read (C.Expr × Bool)} {n k : Nat} {p : Form → Prop} {q : C.Expr → Prop}

lemma reads_steps {steps} (operands : ∀ s ∈ steps, level s.1 = k ∧ p s.2)
    (one : ∀ left op r vs, level op = k → p r → Follows (.first vs) → Loose k (.first vs) →
      Reads types (step left) (operatorToken op.text :: (r.tokens true ++ vs)) vs fun result =>
        (∃ right, r.Denotes right ∧ result.1 = .binary op.text left right) ∧ result.2)
    (follows : Follows (.first ts)) (loose : Loose k (.first ts)) (start : e.Denotes left)
    (others : ∀ left, (chain e steps).Denotes left → Reads types (loop step n left) ts us q) :
    Reads types (loop step (n + steps.length) left) (stepTokens steps ++ ts) us q := by
  induction steps generalizing e left with
  | nil => exact others left start
  | cons s steps ih =>
    obtain ⟨⟨same, operand⟩, operands⟩ := forall_mem_cons.1 operands
    have follows' := first_stepTokens steps (fun s _ => follows_operatorToken s.1) follows
    have loose' := first_stepTokens steps (p := Loose k)
      (fun s mem => (operands s mem).1 ▸ loose_operatorToken s.1) loose
    have text : stepTokens (s :: steps) ++ ts =
        operatorToken s.1.text :: (s.2.tokens true ++ (stepTokens steps ++ ts)) := by
      simp [stepTokens]
    rw [text]
    refine reads_loop_more (q := fun e' => ∃ right, s.2.Denotes right ∧ e' = .binary s.1.text left right)
      (one left s.1 s.2 _ same operand follows' loose') ?_
    rintro _ ⟨right, value, rfl⟩
    exact ih operands (start.binary value) others

def CastReads (types : List String) (go : Reader) (e : Form) : Prop :=
  ∀ ts, Follows (.first ts) →
    Reads types (go .cast) (e.tokens true ++ ts) ts fun result => e.Denotes result.1

/-- A chain of operations of one level is read from left to right. -/
lemma reads_operations_level (found : levels[k]? = some ops)
    (operands : ∀ s ∈ e.steps, level s.1 = k ∧ CastReads types go s.2)
    (closes : Closes (.first ts)) (start : e.seed.Denotes left) :
    Reads types (operations go (ops :: levels.drop (k + 1)) left)
      (stepTokens e.steps ++ ts) ts e.Denotes := by
  have none (ops) (mem : ops ∈ levels) :=
    isOneOf_of_closes closes ops mem
  have last : Loose k (.first ts) := fun ops mem => none ops (mem_of_mem_drop mem)
  refine (reads_operations_none (first_stepTokens e.steps (p := Loose k)
    (fun s mem => (operands s mem).1 ▸ loose_operatorToken s.1) last)).bind ?_
  rintro _ rfl
  refine reads_bound.bind fun n enough => ?_
  have rounds : e.steps.length < n := by
    have steps := length_le_stepTokens e.steps
    rw [length_append] at enough
    omega
  obtain ⟨n, rfl⟩ := Nat.exists_eq_add_of_lt rounds
  rw [show e.steps.length + n + 1 = n + 1 + e.steps.length by omega]
  refine reads_steps operands ?_ closes.follows last start ?_
  · intro left op r vs same reads follows loose
    refine reads_peek.bind fun t like => ?_
    have here : (operatorToken op.text).isOneOf ops := by
      rw [isOneOf_levels op k ops found, decide_eq_true same.symm]
    rw [like.isOneOf, first, here]
    refine reads_skip.bind fun _ _ => ?_
    refine (reads vs follows).bind fun result value => ?_
    refine (reads_operations_none loose).bind ?_
    rintro _ rfl
    exact .pure ⟨⟨_, value, by rw [like.2]; rfl⟩, rfl⟩
  · intro left value
    refine reads_loop_stop (Nat.succ_pos n) (reads_peek.bind fun t like => ?_)
    rw [like.isOneOf, none ops (mem_of_getElem? found)]
    exact .pure ⟨fun a name => (value a name).trans (congrArg _ (e.valueIn_chain a name)), rfl⟩

lemma reads_operations (regular : Regular types e)
    (operands : ∀ s ∈ e.steps, CastReads types go s.2) (closes : Closes (.first ts))
    (start : e.seed.Denotes left) :
    Reads types (operations go levels left) (stepTokens e.steps ++ ts) ts
      e.Denotes := by
  let k := e.operator?.elim 0 level
  have lt : k < levels.length := by
    cases some : e.operator? with
    | none => simp [k, some, levels]
    | some op => simpa [k, some] using level_lt op
  have split : levels.take k ++ levels[k] :: levels.drop (k + 1) = levels := by
    rw [← drop_eq_getElem_cons, take_append_drop]
  rw [← split]
  exact reads_operations_append
    (fun ops mem => isOneOf_of_closes closes ops (mem_of_mem_take mem))
    (reads_operations_level (getElem?_eq_getElem lt)
      (fun s mem => ⟨regular.level_steps s mem, operands s mem⟩) closes start)

end

lemma reads_expression (regular : Regular types e) (first : ∀ ts, Follows (.first ts) →
      Reads types (Expression.cast go) (e.seed.tokens true ++ ts) ts fun result =>
        e.seed.Denotes result.1) (operands : ∀ s ∈ e.steps, CastReads types go s.2)
    (closes : Closes (.first ts)) :
    Reads types (expression go) (e.tokens false ++ ts) ts e.Denotes := by
  have follows : Follows (.first (stepTokens e.steps ++ ts)) :=
    first_stepTokens _ (fun s _ => follows_operatorToken s.1) closes.follows
  have assignment : Reads types (assignment go) (e.tokens false ++ ts) ts e.Denotes := by
    rw [tokens_false, append_assoc]
    refine (first _ follows).bind ?_
    rintro ⟨left, isUnary⟩ start
    refine reads_peek.bind fun t like => ?_
    rw [like.isOneOf, isOneOf_apart follows assignments_apart, Bool.and_false]
    refine (reads_operations regular operands closes start).bind fun e' value => ?_
    refine (reads_accept_not (closes.follows.is (by decide))).bind ?_
    rintro _ rfl
    exact .pure value
  refine assignment.bind fun e' value => reads_bounded_stop ?_
  refine (reads_accept_not (closes.follows.is (by decide))).bind ?_
  rintro _ rfl
  exact .pure ⟨value, rfl⟩

section

variable {type : String} {go : Reader}

lemma reads_qualifierList (other : (first ts).isOneOf qualifiers = false) :
    Reads types qualifierList ts ts (· = []) := by
  refine reads_bounded_stop (reads_peek.bind fun t like => ?_)
  rw [like.isOneOf, other]
  exact .pure ⟨rfl, rfl⟩

lemma reads_baseType :
    Reads types (baseType go) (⟨.typeName, type, 0, 0⟩ :: ts) ts
      fun s => s.base = .words [type] := by
  refine reads_next.bind fun t like => ?_
  rw [like.is, like.is, like.is]
  refine (reads_placeOf t).bind fun place _ => .pure ?_
  rw [like.2]

lemma reads_memberSpecifiers
    (base : Reads types (go .baseType) (⟨.typeName, type, 0, 0⟩ :: operatorToken ")" :: ts)
      (operatorToken ")" :: ts) fun s => s.base = .words [type]) :
    Reads types (memberSpecifiers go)
      (⟨.typeName, type, 0, 0⟩ :: operatorToken ")" :: ts) (operatorToken ")" :: ts)
      fun spec => spec.quals = [] ∧ ∃ s, spec.types = [s] ∧ s.base = .words [type] := by
  refine (reads_qualifierList rfl).bind ?_
  rintro _ rfl
  refine reads_peek.bind fun t like => ?_
  rw [like.startsBase]
  refine base.bind fun s words => ?_
  refine reads_bounded_stop (reads_peek.bind fun t like => ?_)
  rw [like.isOneOf, like.isOneOf]
  exact .pure ⟨⟨rfl, s, rfl, words⟩, rfl⟩

lemma reads_declarator :
    Reads types (declarator go .abstract) (operatorToken ")" :: ts)
      (operatorToken ")" :: ts) fun d => d.name = none ∧ d.modifiers = [] := by
  have stars : Reads types stars (operatorToken ")" :: ts) (operatorToken ")" :: ts)
      (· = []) := by
    refine reads_bounded_stop (reads_peek.bind fun t like => ?_)
    rw [like.is]
    exact .pure ⟨rfl, rfl⟩
  have direct : Reads types (directDeclarator go .abstract false)
      (operatorToken ")" :: ts) (operatorToken ")" :: ts)
      fun d => d.name = none ∧ d.modifiers = [] := by
    refine reads_peek.bind fun t like => ?_
    rw [like.1, like.is, like.is]
    exact (reads_placeOf t).bind fun place _ => .pure ⟨rfl, rfl⟩
  refine stars.bind ?_
  rintro _ rfl
  refine direct.bind ?_
  rintro d ⟨name, modifiers⟩
  exact .pure ⟨name, by rw [modifiers]; rfl⟩

lemma reads_typeOf (quals : spec.quals = []) (single : spec.types = [s])
    (words : s.base = .words [type]) (name : d.name = none) (modifiers : d.modifiers = []) :
    Reads types (typeOf spec d) ts ts
      fun t => ∃ n, t = .named n none [] (.words [type]) := by
  have names : s.names? = some [type] := by
    rw [Specifier.names?, words]
  have base (isFunction) (place) :
      Reads types (baseOf spec.types isFunction place) ts ts (· = .words [type]) := by
    rw [baseOf, single]
    simp only [find?_cons, names, find?_nil]
    exact .pure (by simp [names])
  refine (base _ _).bind ?_
  rintro _ rfl
  refine reads_fresh.bind fun n _ => .pure ⟨n, ?_⟩
  rw [modifiers, name, quals]
  rfl

lemma reads_typeName (depth : Nat) :
    Reads types (readPart (depth + 2) .typeName) (⟨.typeName, type, 0, 0⟩ :: operatorToken ")" :: ts)
      (operatorToken ")" :: ts) fun t => ∃ n, t = .named n none [] (.words [type]) := by
  have base := @reads_baseType types (operatorToken ")" :: ts) type (readPart depth)
  refine (@reads_memberSpecifiers types ts type (readPart (depth + 1)) base).bind ?_
  rintro spec ⟨quals, s, single, words⟩
  refine (@reads_declarator types ts (readPart depth)).bind ?_
  rintro d ⟨name, modifiers⟩
  exact reads_typeOf quals single words name modifiers

end

section

variable {go : Reader}

lemma reads_cast_operand (other : (first ts).is "(" = false)
    (reads : Reads types (operand go) ts us fun e => p (e, true)) :
    Reads types (cast go) ts us p := by
  refine (reads_accept_not other).bind ?_
  rintro _ rfl
  exact reads.bind fun e h => .pure h

lemma reads_cast_primary {e}
    (leaf : t.kind = .name ∧ e = .ident t.text ∨ t.kind = .constant ∧ e = .constant t.text)
    (follows : Follows (.first ts)) :
    Reads types (cast go) (t :: ts) ts fun result => result.1 = e := by
  have plain : (t.kind == .keyword || t.kind == .operator) = false := by
    rcases leaf with ⟨kind, -⟩ | ⟨kind, -⟩ <;> rw [kind] <;> rfl
  have primary : Reads types (primary go) (t :: ts) ts (· = e) := by
    refine reads_peek.bind fun t' like => ?_
    have same : t'.kind = t.kind ∧ t'.text = t.text := like
    rcases leaf with ⟨kind, rfl⟩ | ⟨kind, rfl⟩ <;> simp only [same, kind] <;>
      exact reads_skip.bind fun _ _ => .pure rfl
  refine reads_cast_operand (by simp [is, first, plain]) ?_
  refine reads_peek.bind fun t' like => ?_
  rw [like.isOneOf, like.isOneOf, like.is, first, isOneOf, isOneOf, is, plain]
  refine primary.bind ?_
  rintro _ rfl
  exact reads_postfixes follows

lemma reads_cast_signed {op} (operand : CastReads types go e) (follows : Follows (.first ts)) :
    Reads types (cast go) (operatorToken op.text :: (e.tokens true ++ ts)) ts fun result =>
      (signed op e).Denotes result.1 := by
  have other : (operatorToken op.text).is "(" = false := by
    cases op <;> rfl
  have steps : (operatorToken op.text).isOneOf ["++", "--"] = false := by
    cases op <;> rfl
  have here : (operatorToken op.text).isOneOf ["&", "*", "+", "-", "~", "!"] := by
    cases op <;> rfl
  refine reads_cast_operand other (reads_peek.bind fun t like => ?_)
  rw [like.isOneOf, like.isOneOf, first, steps, here]
  refine reads_skip.bind fun _ _ => ?_
  refine (operand ts follows).bind fun result value => .pure ?_
  rw [like.2]
  exact value.unary

lemma startsTypeName_tokens (regular : Regular types e) (parens : Bool) :
    (first (e.tokens parens ++ ts)).startsTypeName = false := by
  induction regular generalizing parens ts with
  | name | number => cases parens <;> rfl
  | @signed op => cases parens <;> cases op <;> rfl
  | narrowed => cases parens <;> rfl
  | @group bare l op r _ _ _ ihl =>
    cases parens with
    | false =>
      rw [tokens, append_assoc]
      exact ihl _
    | true => rfl

lemma reads_cast_group (regular : Regular types e) (follows : Follows (.first ts))
    (inside : Reads types (go .expression) (e.tokens false ++ operatorToken ")" :: ts)
      (operatorToken ")" :: ts) e.Denotes) :
    Reads types (cast go)
      (operatorToken "(" :: (e.tokens false ++ operatorToken ")" :: ts)) ts fun result =>
        e.Denotes result.1 := by
  refine (reads_accept rfl).bind ?_
  rintro _ rfl
  refine reads_peek.bind fun t like => ?_
  rw [like.startsTypeName, startsTypeName_tokens regular]
  refine Reads.bind ?_ fun _ value => .pure value
  refine inside.bind fun e' value => (reads_require rfl).bind fun _ _ => ?_
  exact (reads_postfixes follows).mono (by rintro _ rfl; exact value)

lemma reads_cast_narrowed (known : (type = "u8" ∧ bits = 8) ∨ (type = "u16" ∧ bits = 16))
    (regular : Regular types e) (typeName : Reads types (go .typeName)
      (⟨.typeName, type, 0, 0⟩ :: operatorToken ")" :: (e.tokens true ++ ts))
      (operatorToken ")" :: (e.tokens true ++ ts)) fun t => ∃ n, t = .named n none [] (.words [type]))
    (operand : CastReads types go e) (follows : Follows (.first ts)) :
    Reads types (cast go)
      (operatorToken "(" :: ⟨.typeName, type, 0, 0⟩ :: operatorToken ")" :: (e.tokens true ++ ts)) ts
      fun result => (narrowed type bits e).Denotes result.1 := by
  refine (reads_accept rfl).bind ?_
  rintro _ rfl
  refine reads_peek.bind fun t like => ?_
  rw [like.startsTypeName]
  refine typeName.bind ?_
  rintro _ ⟨n, rfl⟩
  refine (reads_require rfl).bind fun _ _ => reads_peek.bind fun t like => ?_
  have brace : (first (e.tokens true ++ ts)).is "\x7b" = false := by
    cases regular with
    | @signed op => cases op <;> rfl
    | _ => rfl
  rw [like.is, brace]
  refine (operand ts follows).bind fun result value => .pure ?_
  intro a name
  have narrow : narrowBits? (.named n none [] (.words [type])) = some bits := by
    rcases known with ⟨rfl, rfl⟩ | ⟨rfl, rfl⟩ <;> rfl
  simp [Expr.valueIn, narrow, value a name, valueIn]

end

lemma dropEndWhile_numeral (n : Nat) (unsigned : Bool) :
    Text.dropEndWhile (fun c => ['l', 'L', 'u', 'U'].contains c)
      ('0' :: 'x' :: (Nat.toDigits 16 n).map Char.toUpper ++ if unsigned then ['U'] else []) =
      '0' :: 'x' :: (Nat.toDigits 16 n).map Char.toUpper := by
  have letters {c} (mem : c ∈ '0' :: 'x' :: (Nat.toDigits 16 n).map Char.toUpper) :
      ['l', 'L', 'u', 'U'].contains c = false := by
    rcases mem with _ | ⟨_, _ | ⟨_, mem⟩⟩
    · decide
    · decide
    · have digit := isHexDigit_upper mem
      rw [Bool.eq_false_iff, Ne, contains_iff_mem]
      simp only [mem_cons, not_mem_nil, or_false]
      rintro (same | same | same | same) <;> rw [same] at digit <;> cases digit
  have kept : ('0' :: 'x' :: (Nat.toDigits 16 n).map Char.toUpper).rdropWhile
      (['l', 'L', 'u', 'U'].contains) = '0' :: 'x' :: (Nat.toDigits 16 n).map Char.toUpper :=
    rdropWhile_eq_self_iff.2 fun nonempty => by
      rw [letters (getLast_mem nonempty)]
      nofun
  cases unsigned with
  | false =>
    rw [if_neg nofun, append_nil]
    exact kept
  | true => exact (rdropWhile_concat_pos _ _ _ rfl).trans kept

lemma denotes_number (n : Nat) (unsigned : Bool) :
    (number n unsigned).Denotes (.constant (String.ofList (numeral n unsigned))) := by
  have value : constantValue? (String.ofList (numeral n unsigned)) = some (n : Int) := by
    rw [constantValue?, String.toList_ofList, numeral]
    split
    case isTrue small => interval_cases n <;> cases unsigned <;> decide
    case isFalse =>
      rw [dropEndWhile_numeral, (Integer.denotes_upper n).read?]
  intro a name
  simp [Expr.valueIn, value, valueIn]

def IsRead (types : List String) (e : Form) : Prop :=
  ∀ depth, (e.tokens true).length < depth → CastReads types (readPart depth) e

lemma reads_readPart_expression (regular : Regular types e)
    (operands : e.ForOperands (IsRead types)) (enough : (e.tokens false).length + 1 < depth)
    (closes : Closes (.first ts)) :
    Reads types (readPart depth .expression) (e.tokens false ++ ts) ts e.Denotes := by
  obtain ⟨depth, rfl⟩ := Nat.exists_eq_succ_of_ne_zero (ne_zero_of_lt enough)
  rw [tokens_false, length_append] at enough
  refine reads_expression regular (operands.1 (depth + 1) (by omega)) (fun s mem => ?_) closes
  obtain ⟨before, after, split⟩ := append_of_mem mem
  simp only [split, stepTokens, flatMap_append, flatMap_cons, length_append, length_cons] at enough
  exact operands.2 s mem depth (by omega)

lemma isRead_of (h : ∀ depth ts, (e.tokens true).length ≤ depth → Follows (.first ts) →
      Reads types (cast (readPart depth)) (e.tokens true ++ ts) ts fun result =>
        e.Denotes result.1) : IsRead types e := by
  intro depth enough ts follows
  obtain ⟨depth, rfl⟩ := Nat.exists_eq_succ_of_ne_zero (ne_zero_of_lt enough)
  exact h depth ts (Nat.le_of_lt_succ enough) follows

/-- A regular expression is read, and so is each of its operands. -/
lemma Regular.isRead (regular : Regular types e) :
    IsRead types e ∧ e.ForOperands (IsRead types) := by
  -- Outside of operations, an operand is its own chain.
  have both {e} (h : IsRead types e) (single : e.seed = e) (last : e.steps = []) :
      IsRead types e ∧ e.ForOperands (IsRead types) :=
    ⟨h, single.symm ▸ h, by rw [last]; nofun⟩
  induction regular with
  | @name text spelled keyword type =>
    refine both (isRead_of fun depth ts enough follows => ?_) rfl rfl
    refine (reads_cast_primary (.inl ⟨rfl, rfl⟩) follows).mono fun result same => ?_
    rw [same]
    exact fun a name => rfl
  | @number n unsigned =>
    refine both (isRead_of fun depth ts enough follows => ?_) rfl rfl
    refine (reads_cast_primary (.inr ⟨rfl, rfl⟩) follows).mono fun result same => ?_
    rw [same]
    exact denotes_number n unsigned
  | @signed op e _ _ ih =>
    refine both (isRead_of fun depth ts enough follows => ?_) rfl rfl
    exact reads_cast_signed (ih.1 depth enough) follows
  | @narrowed type bits e _ known regular ih =>
    refine both (isRead_of fun depth ts enough follows => ?_) rfl rfl
    rw [tokens, length_cons, length_cons, length_cons] at enough
    obtain ⟨depth, rfl⟩ : ∃ n, depth = n + 2 := ⟨depth - 2, by omega⟩
    exact reads_cast_narrowed known regular (reads_typeName depth) (ih.1 (depth + 2) (by omega)) follows
  | @group bare l op r regularL regularR same ihl ihr =>
    have regular := group regularL regularR same
    have operands : (Form.group bare l op r).ForOperands (IsRead types) := by
      cases bare with
      | false => exact ⟨ihl.1, forall_mem_singleton.2 ihr.1⟩
      | true => exact ⟨ihl.2.1, forall_mem_append.2 ⟨ihl.2.2, forall_mem_singleton.2 ihr.1⟩⟩
    refine ⟨isRead_of fun depth ts enough follows => ?_, operands⟩
    have text : (Form.group bare l op r).tokens true ++ ts =
        operatorToken "(" :: ((Form.group bare l op r).tokens false ++ operatorToken ")" :: ts) := by
      simp [tokens]
    have length : ((Form.group bare l op r).tokens true).length =
        ((Form.group bare l op r).tokens false).length + 2 := by
      simp [tokens]
      omega
    rw [text]
    exact reads_cast_group regular follows
      (reads_readPart_expression regular operands (by omega) (.inr ⟨rfl, rfl⟩))

end Form

def wholeExpression : Read Expr := do
  let n ← bound
  discard next
  let e ← readPart n .expression
  if (← peek).kind == .eof then return e else unexpected

def readExpression (types : List String) (text : String) : Except Problem Expr := do
  let source : Source :=
    { rest := text.toList, size := text.length, scopes := [types.map (·, true)] }
  return (← wholeExpression.run source).1

/-- What is written for an expression is read as this expression. -/
lemma readExpression_written {e : Form} (regular : e.Regular types) :
    ∃ e', readExpression types (String.ofList (e.written false)) = .ok e' ∧ e.Denotes e' := by
  have reads : Reads types wholeExpression (.first [] :: e.tokens false) [] e.Denotes := by
    refine reads_bound.bind fun n enough => ?_
    refine reads_skip.bind fun _ _ => ?_
    have expression : Reads types (readPart n .expression) (e.tokens false ++ []) [] e.Denotes :=
      Form.reads_readPart_expression regular regular.isRead.2 enough (.inl rfl)
    rw [append_nil] at expression
    refine expression.bind fun e' value => reads_peek.bind fun t like => ?_
    rw [like.1]
    exact .pure value
  have lexes : Lexes types (e.written false ++ []) (e.tokens false ++ []) :=
    Form.lexes_written regular false nofun lexes_nil
  rw [append_nil, append_nil] at lexes
  obtain ⟨e', s, run, -, value⟩ := reads
    { rest := e.written false, size := (e.written false).length, scopes := [types.map (·, true)] }
    ⟨⟨rfl, rfl, le_refl _⟩, ⟨rfl, rfl⟩, by rintro _ _ ⟨⟩; exact lexes⟩
  refine ⟨e', ?_, value⟩
  rw [readExpression, String.toList_ofList, String.length_ofList, run]
  rfl

end Decompiler.C
