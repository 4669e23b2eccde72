import Decompiler.C.Source
import Decompiler.Code.Expr
import Decompiler.Proofs.Numerals

/-!
# Tokens of C texts

A text is read token by token, each as long as possible. What follows a token decides where it ends,
so every lemma here is about a text with a rest.
-/

namespace Decompiler.C

open Text Lexeme List

def Token.IsLike (t t' : Token) : Prop :=
  t.kind = t'.kind ∧ t.text = t'.text

def Token.first : List Token → Token
  | [] => ⟨.eof, "", 0, 0⟩
  | t :: _ => t

def operatorToken (text : String) : Token :=
  ⟨.operator, text, 0, 0⟩

namespace Source

structure Ready (types : List String) (s : Source) : Prop where
  mode : s.mode = .code
  scopes : s.scopes = [types.map (·, true)]
  size : s.rest.length ≤ s.size

def Lexes1 (types : List String) (cs : List Char) (t : Token) (rest : List Char) : Prop :=
  ∀ s n, Ready types s → s.rest = cs → cs.length < n →
    ∃ s', readFrom n s = .ok s' ∧ s'.token.IsLike t ∧ s'.rest = rest ∧ Ready types s'

inductive Lexes (types : List String) : List Char → List Token → Prop where
  | nil {cs} :
    Lexes1 types cs (.first []) [] →
    Lexes types cs []
  | cons {cs rest t ts} :
    Lexes1 types cs t rest →
    rest.length < cs.length →
    Lexes types rest ts →
    Lexes types cs (t :: ts)

variable {types : List String} {cs rest : List Char} {ts : List Token} {s : Source}

lemma Lexes.length_le (h : Lexes types cs ts) : ts.length ≤ cs.length := by
  induction h with
  | nil => exact Nat.zero_le _
  | cons _ shorter _ ih =>
    rw [length_cons]
    omega

lemma Lexes1.space (h : Lexes1 types cs t rest) : Lexes1 types (' ' :: cs) t rest := by
  intro s n ready text enough
  obtain ⟨n, rfl⟩ := Nat.exists_eq_succ_of_ne_zero (ne_zero_of_lt enough)
  have skipped : Ready types (s.skip 1) :=
    ⟨ready.mode, ready.scopes, by have := ready.size; simp [skip, text] at this ⊢; omega⟩
  have step : readFrom (n + 1) s = readFrom n (s.skip 1) := by
    rw [readFrom, text, ready.mode]
    rfl
  rw [step]
  exact h _ n skipped (by simp [skip, text]) (by simpa using enough)

lemma Lexes.space (h : Lexes types cs ts) : Lexes types (' ' :: cs) ts := by
  cases h with
  | nil last => exact .nil last.space
  | cons first shorter others => exact .cons first.space (Nat.lt_succ_of_lt shorter) others

lemma Lexes.take {c kind token} (step : ∀ s, Ready types s → s.rest = c :: cs →
      s.codeStep c cs = .ok (some (s.take kind token.length), s.take kind token.length))
    (text : c :: cs = token ++ rest) (nonempty : token ≠ []) (others : Lexes types rest ts) :
    Lexes types (token ++ rest) (⟨kind, String.ofList token, 0, 0⟩ :: ts) := by
  have pos := length_pos_iff.2 nonempty
  refine .cons ?_ (by simp only [length_append]; omega) others
  intro s n ready same enough
  obtain ⟨n, rfl⟩ := Nat.exists_eq_succ_of_ne_zero (ne_zero_of_lt enough)
  have here : s.rest = c :: cs := same.trans text.symm
  refine ⟨s.take kind token.length, ?_, ⟨rfl, ?_⟩, ?_, ready.mode, ready.scopes, ?_⟩
  · rw [readFrom, here, ready.mode]
    simp only [step s ready here]
    rfl
  · simp [Source.take, same]
  · simp [Source.take, skip, same]
  · have := ready.size
    simp only [Source.take, skip, length_drop]
    omega

lemma lexes_nil : Lexes types [] [] := by
  refine .nil fun s n ready text enough => ?_
  obtain ⟨n, rfl⟩ := Nat.exists_eq_succ_of_ne_zero (ne_of_gt enough)
  refine ⟨{ s with token := ⟨.eof, "", s.line, s.column⟩ }, ?_, ⟨rfl, rfl⟩, text, ready.mode,
    ready.scopes, ready.size⟩
  rw [readFrom, text]
  rfl

lemma numberLexeme?_eq_none (digit : isAsciiDigit c = false) (point : c ≠ '.') :
    numberLexeme? (c :: cs) = none := by
  have zero : c ≠ '0' := by
    rintro rfl
    cases digit
  have others : ('1' ≤ c && c ≤ '9') = false := by
    rw [Bool.eq_false_iff]
    intro between
    simp only [Bool.and_eq_true, decide_eq_true_eq] at between
    have digits : isAsciiDigit c := by
      simp only [isAsciiDigit, Bool.and_eq_true, decide_eq_true_eq]
      exact ⟨Char.le_trans (by decide) between.1, between.2⟩
    rw [digits] at digit
    cases digit
  simp [numberLexeme?, floating?, pointed?, run, run?, digit, point,
    hexFloating?, marked?, badOctal?, octal?, decimal?, zero,
    others]

def operatorChars : List Char :=
  ['+', '-', '*', '/', '%', '<', '>', '&', '|', '^', '=', '!', '~', '(', ')']

lemma codeStep_operator (start : c ∈ operatorChars) (text : s.rest = c :: cs)
    (found : operator? (c :: cs) = some n) :
    s.codeStep c cs = .ok (some (s.take .operator n), s.take .operator n) := by
  have number : numberLexeme? (c :: cs) = none := by
    simp only [operatorChars, mem_cons, not_mem_nil, or_false] at start
    apply numberLexeme?_eq_none <;> rcases start with rfl | rfl | rfl | rfl | rfl | rfl | rfl | rfl |
      rfl | rfl | rfl | rfl | rfl | rfl | rfl <;> decide
  simp only [operatorChars, mem_cons, not_mem_nil, or_false] at start
  rcases start with rfl | rfl | rfl | rfl | rfl | rfl | rfl | rfl | rfl | rfl | rfl | rfl | rfl | rfl |
    rfl <;> simp [codeStep, text, number, wide?, badString?, identifier?,
      isNameStart, string?, found] <;> rfl

def Stops (rest : List Char) : Prop :=
  ∀ c ∈ rest.head?, c = ' ' ∨ c = ')'

lemma stops_space : Stops (' ' :: cs) :=
  fun _ mem => .inl (Option.some.inj mem).symm

lemma stops_closing : Stops (')' :: cs) :=
  fun _ mem => .inr (Option.some.inj mem).symm

def isNameChar (c : Char) : Bool :=
  Lexeme.isNameStart c || isAsciiDigit c

def IsSpelling (name : String) : Prop :=
  ∃ c cs, name.toList = c :: cs ∧ Lexeme.isNameStart c = true ∧ ∀ c ∈ cs, isNameChar c = true

lemma Stops.ends (stops : Stops rest) : Ends isNameChar rest := by
  intro c mem
  rcases stops c mem with rfl | rfl <;> rfl

lemma lt_of_isNameStart (start : isNameStart c) :
    isAsciiDigit c = false ∧ c ∉ [' ', '\t', '\n', '#', '\x7b', '\x7d', '.', '\'', '"'] := by
  constructor
  · by_contra digit
    rw [Bool.not_eq_false] at digit
    simp only [isNameStart, isAsciiDigit, Bool.or_eq_true, Bool.and_eq_true,
      decide_eq_true_eq, beq_iff_eq, Char.le_def, UInt32.le_iff_toNat_le] at start digit
    rcases start with ((start | start) | rfl) | rfl
    · exact absurd (le_trans start.1 digit.2) (by decide)
    · exact absurd (le_trans start.1 digit.2) (by decide)
    · exact absurd digit (by decide)
    · exact absurd digit (by decide)
  · simp only [mem_cons, not_mem_nil, or_false]
    rintro (rfl | rfl | rfl | rfl | rfl | rfl | rfl | rfl | rfl) <;> cases start

lemma identifier?_append (start : isNameStart c) (all : ∀ c ∈ cs, isNameChar c)
    (stops : Stops rest) : identifier? (c :: (cs ++ rest)) = some (cs.length + 1) := by
  have whole := span_append all stops.ends
  rw [span_eq_takeWhile_dropWhile, Prod.mk.injEq] at whole
  rw [identifier?, if_pos start]
  change some (1 + ((cs ++ rest).takeWhile isNameChar).length) = _
  rw [whole.1, add_comm]

lemma codeStep_name (start : isNameStart c) (all : ∀ c ∈ cs, isNameChar c)
    (stops : Stops rest) (text : s.rest = c :: (cs ++ rest)) :
    s.codeStep c (cs ++ rest) = .ok (some (s.takeName (cs.length + 1)), s.takeName (cs.length + 1)) := by
  obtain ⟨digit, other⟩ := lt_of_isNameStart start
  simp only [mem_cons, not_mem_nil, or_false, not_or] at other
  obtain ⟨space, tab, line, hash, opened, closed, point, quote, quotes⟩ := other
  have number : numberLexeme? (c :: (cs ++ rest)) = none := numberLexeme?_eq_none digit point
  have name := identifier?_append start all stops
  -- A name may start with the letter that marks wide characters, but no quote follows it.
  have next : ∀ d ∈ (cs ++ rest).head?, d ≠ '\'' ∧ d ≠ '"' := by
    intro d mem
    cases cs with
    | nil => rcases stops d mem with rfl | rfl <;> decide
    | cons d' cs =>
      obtain rfl : d' = d := Option.some.inj mem
      have named := all d' mem_cons_self
      constructor <;> rintro rfl <;> cases named
  have noChar : wide? (charConstant? 1 1) (c :: (cs ++ rest)) = none := by
    unfold wide?
    split
    · rename_i same
      obtain ⟨-, rfl⟩ := cons.inj same
      rw [charConstant?]
      · rfl
      · intro cs' same
        exact (next '\'' (by rw [same]; rfl)).1 rfl
    · rfl
  have noString : wide? string? (c :: (cs ++ rest)) = none := by
    unfold wide?
    split
    · rename_i same
      obtain ⟨-, rfl⟩ := cons.inj same
      rw [string?]
      · rfl
      · intro cs' same
        exact (next '"' (by rw [same]; rfl)).2 rfl
    · rfl
  simp [codeStep, text, space, tab, line, hash, opened, closed, quote, number, noChar, noString,
    badString?, quotes, name]
  rfl

lemma isType_iff (ready : Ready types s) (name : String) : s.isType name = types.contains name := by
  have found : (types.map (·, true)).lookup name =
      if types.contains name then some true else none := by
    clear ready
    induction types with
    | nil => rfl
    | cons t ts ih =>
      rw [map_cons, lookup_cons, contains_cons, ih]
      cases name == t <;> rfl
  rw [isType, ready.scopes, findSome?_cons, found]
  cases types.contains name <;> rfl

/-- A name is read as one token. -/
lemma Lexes.name {name} (spelled : IsSpelling name) (keyword : name ∉ keywords) (stops : Stops rest)
    (others : Lexes types rest ts) :
    Lexes types (name.toList ++ rest)
      (⟨if types.contains name then .typeName else .name, name, 0, 0⟩ :: ts) := by
  obtain ⟨c, cs, spelled, start, all⟩ := spelled
  have whole : String.ofList (c :: cs) = name := by
    rw [← spelled, String.ofList_toList]
  rw [spelled, ← whole]
  refine @take types (cs ++ rest) rest ts c _ (c :: cs) ?_ rfl (cons_ne_nil c cs) others
  intro s ready text
  rw [codeStep_name start all stops text, takeName, text]
  have taken : (c :: (cs ++ rest)).take (cs.length + 1) = c :: cs := by simp
  have absent : keywords.contains name = false := by simpa using keyword
  rw [taken, whole, absent, isType_iff ready]
  cases types.contains name <;> rfl

def numeral (n : Nat) (unsigned : Bool) : List Char :=
  (if n < 10 then [Nat.digitChar n] else '0' :: 'x' :: (Nat.toDigits 16 n).map Char.toUpper) ++
    if unsigned then ['U'] else []

lemma Stops.cases (stops : Stops rest) :
    rest = [] ∨ (∃ cs, rest = ' ' :: cs) ∨ ∃ cs, rest = ')' :: cs := by
  cases rest with
  | nil => exact .inl rfl
  | cons c cs =>
    rcases stops c rfl with rfl | rfl
    · exact .inr (.inl ⟨cs, rfl⟩)
    · exact .inr (.inr ⟨cs, rfl⟩)

lemma numberLexeme?_digit (small : n < 10) (unsigned : Bool) (stops : Stops rest) :
    numberLexeme? (Nat.digitChar n :: ((if unsigned then ['U'] else []) ++ rest)) =
      some (some ((if unsigned then ['U'] else []).length + 1)) := by
  rcases stops.cases with rfl | ⟨cs, rfl⟩ | ⟨cs, rfl⟩ <;> cases unsigned <;> interval_cases n <;> rfl

lemma numberLexeme?_hex (nonempty : digits ≠ []) (all : ∀ c ∈ digits, isHexDigit c)
    (ends : Ends isHexDigit rest) (point : ∀ cs, rest ≠ '.' :: cs)
    (exponent : exponent? ['p', 'P'] rest = none) :
    numberLexeme? ('0' :: 'x' :: (digits ++ rest)) =
      some (some (2 + digits.length + integerSuffix rest)) := by
  have whole := span_append all ends
  rw [span_eq_takeWhile_dropWhile, Prod.mk.injEq] at whole
  have run : run isHexDigit (digits ++ rest) = digits.length := by
    rw [run, whole.1]
  have run? : run? isHexDigit (digits ++ rest) = some digits.length := by
    rw [run?, run]
    split
    · exact absurd (length_eq_zero_iff.1 ‹_›) nonempty
    · rfl
  have pointed : pointed? isHexDigit (digits ++ rest) = none := by
    simp only [pointed?, run, drop_left]
  have floating : floating? ('0' :: 'x' :: (digits ++ rest)) = none := rfl
  have hexFloating : hexFloating? ('0' :: 'x' :: (digits ++ rest)) = none := by
    simp [hexFloating?, pointed, run?, exponent]
  have marked : marked? 'x' 'X' isHexDigit ('0' :: 'x' :: (digits ++ rest)) =
      some (2 + digits.length + integerSuffix rest) := by
    have behind : ('0' :: 'x' :: (digits ++ rest)).drop (2 + digits.length) = rest := by
      rw [add_comm]
      simp
    simp [marked?, run?, withSuffix, behind]
  rw [numberLexeme?, floating, hexFloating, marked]

lemma isHexDigit_upper (mem : c ∈ (Nat.toDigits 16 n).map Char.toUpper) : isHexDigit c := by
  obtain ⟨d, digit⟩ := (Integer.digits_toDigits n).toUpper.isDigit (le_refl 16) c mem
  exact digit.all (p := (isHexDigit ·)) (by decide)

lemma numberLexeme?_numeral (n : Nat) (unsigned : Bool) (stops : Stops rest) :
    numberLexeme? (numeral n unsigned ++ rest) = some (some (numeral n unsigned).length) := by
  rw [numeral]
  split
  case isTrue small =>
    rw [append_assoc, singleton_append, numberLexeme?_digit small unsigned stops]
    simp
  case isFalse =>
    rw [List.append_assoc, List.cons_append, cons_append, numberLexeme?_hex]
    · rcases stops.cases with rfl | ⟨cs, rfl⟩ | ⟨cs, rfl⟩ <;> cases unsigned <;>
        simp [integerSuffix, Lexeme.integerSuffixes] <;> omega
    · simp
    · exact fun c => isHexDigit_upper
    all_goals
      rcases stops.cases with rfl | ⟨cs, rfl⟩ | ⟨cs, rfl⟩ <;> cases unsigned <;>
        first | exact ends_nil | exact ends_cons rfl | rfl | nofun

lemma codeStep_number (digit : isAsciiDigit c) (text : s.rest = c :: cs)
    (number : numberLexeme? (c :: cs) = some (some n)) :
    s.codeStep c cs = .ok (some (s.take .constant n), s.take .constant n) := by
  have other : c ∉ [' ', '\t', '\n', '#', '\x7b', '\x7d'] := by
    simp only [mem_cons, not_mem_nil, or_false]
    rintro (rfl | rfl | rfl | rfl | rfl | rfl) <;> cases digit
  simp only [mem_cons, not_mem_nil, or_false, not_or] at other
  obtain ⟨space, tab, line, hash, opened, closed⟩ := other
  simp [codeStep, text, space, tab, line, hash, opened, closed, number]
  rfl

lemma numeral_eq_cons (n : Nat) (unsigned : Bool) :
    ∃ c cs, numeral n unsigned = c :: cs ∧ isAsciiDigit c := by
  rw [numeral]
  split
  case isTrue small =>
    refine ⟨_, _, rfl, ?_⟩
    interval_cases n <;> rfl
  case isFalse => exact ⟨_, _, rfl, rfl⟩

/-- A number is read as one token. -/
lemma Lexes.number (n : Nat) (unsigned : Bool) (stops : Stops rest) (others : Lexes types rest ts) :
    Lexes types (numeral n unsigned ++ rest)
      (⟨.constant, String.ofList (numeral n unsigned), 0, 0⟩ :: ts) := by
  have number := numberLexeme?_numeral n unsigned stops
  obtain ⟨c, cs, same, digit⟩ := numeral_eq_cons n unsigned
  rw [same] at number ⊢
  exact .take (fun s _ text => codeStep_number digit text number) rfl (cons_ne_nil c cs) others

lemma Lexes.operator (op : List Char) (start : ∃ c cs, op = c :: cs ∧ c ∈ operatorChars)
    (longest : operator? (op ++ rest) = some op.length) (others : Lexes types rest ts) :
    Lexes types (op ++ rest) (operatorToken (String.ofList op) :: ts) := by
  obtain ⟨c, cs, rfl, start⟩ := start
  exact .take (fun s _ text => codeStep_operator start text longest) rfl (cons_ne_nil c cs) others

lemma Lexes.opening (others : Lexes types rest ts) :
    Lexes types ('(' :: rest) (operatorToken "(" :: ts) :=
  .operator ['('] ⟨_, _, rfl, by decide⟩ rfl others

lemma Lexes.closing (others : Lexes types rest ts) :
    Lexes types (')' :: rest) (operatorToken ")" :: ts) :=
  .operator [')'] ⟨_, _, rfl, by decide⟩ rfl others

/-- An operator with a space behind it is read as one token. -/
lemma Lexes.binary (op : Code.BinOp) (others : Lexes types rest ts) :
    Lexes types (op.text.toList ++ ' ' :: rest) (operatorToken op.text :: ts) := by
  have start : ∃ c cs, op.text.toList = c :: cs ∧ c ∈ operatorChars := by
    cases op <;> exact ⟨_, _, rfl, by decide⟩
  have longest : operator? (op.text.toList ++ ' ' :: rest) = some op.text.toList.length := by
    cases op <;> rfl
  have lexed := operator _ start longest others.space
  rwa [String.ofList_toList] at lexed

/-- A sign is read as one token unless it forms another with what follows. -/
lemma Lexes.unary (op : Code.UnOp)
    (apart : ∀ c ∈ rest.head?, c ≠ '=' ∧ (op = .neg → c ≠ '-' ∧ c ≠ '>'))
    (others : Lexes types rest ts) :
    Lexes types (op.text.toList ++ rest) (operatorToken op.text :: ts) := by
  have start : ∃ c cs, op.text.toList = c :: cs ∧ c ∈ operatorChars := by
    cases op <;> exact ⟨_, _, rfl, by decide⟩
  have longest : operator? (op.text.toList ++ rest) = some op.text.toList.length := by
    cases rest with
    | nil => cases op <;> rfl
    | cons c cs =>
      obtain ⟨equals, minus⟩ := apart c rfl
      have equals : ('=' == c) = false := beq_eq_false_iff_ne.2 equals.symm
      cases op with
      | neg =>
        obtain ⟨minus, arrow⟩ := minus rfl
        have minus : ('-' == c) = false := beq_eq_false_iff_ne.2 minus.symm
        have arrow : ('>' == c) = false := beq_eq_false_iff_ne.2 arrow.symm
        simp [Code.UnOp.text, operator?, operators, isPrefixOf, equals, minus,
          arrow]
      | complement => rfl
      | not => simp [Code.UnOp.text, operator?, operators, isPrefixOf, equals]
  have lexed := operator _ start longest others
  rwa [String.ofList_toList] at lexed

end Source

end Decompiler.C
