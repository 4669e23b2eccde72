import Decompiler.Asm.Operand.Reader
import Decompiler.Proofs.Numerals
import Decompiler.Proofs.Steps

/-!
# Reading what operands are written as
-/

namespace Decompiler.Asm

open Text List

structure Register.Legible (r : Register) : Prop where
  word : ∀ c ∈ r.name.toList, isWordChar c = true
  notPointer : r.name ≠ "s8"
  notZero : r.name ≠ "r0"

structure IsName (name : String) : Prop where
  word : ∀ c ∈ name.toList, isWordChar c = true
  start : ∃ c cs, name.toList = c :: cs ∧ isAsciiDigit c = false

namespace Operand

/-- The operands that a text can stand for. -/
inductive Legible : Operand → Prop
  | register {r} :
    r.Legible →
    Legible (.register r)
  | symbol {name} :
    IsName name →
    Legible (.symbol name)
  | inSection {name addend} :
    name ∈ sections →
    Legible (.inSection name addend)
  | half {h of} :
    Legible of →
    Legible (.half h of)
  | literal {value} :
    Legible (.literal value)
  | memory {base} :
    base.Legible →
    Legible (.memory base)
  | atLiteral {value base} :
    base.Legible →
    Legible (.memoryAt (.literal value) base)
  | atHalf {h of base} :
    Legible of →
    base.Legible →
    Legible (.memoryAt (.half h of) base)
  | onLiteral {op left right} :
    Legible (.binary op (.literal left) (.literal right))
  | onSymbol {op name right} :
    IsName name →
    Legible (.binary op (.symbol name) (.literal right))
  | target {label} :
    (∀ c ∈ label.toList, isWordChar c = true) →
    label ∉ sections →
    Legible (.target label)

section

variable {read : ReadOn} {o : Operand} {value : Option Operand} {cs rest : List Char}

lemma registerNamed_legible (word : ∀ c ∈ name.toList, isWordChar c) :
    (registerNamed name).Legible := by
  unfold registerNamed
  split
  · exact ⟨all_eq_true.1 (by decide), by decide, by decide⟩
  split
  · exact ⟨all_eq_true.1 (by decide), by decide, by decide⟩
  case isFalse notPointer notZero =>
    exact ⟨word, by simpa using notPointer, by simpa using notZero⟩

lemma fold_legible (h : Legible (.binary op l r)) (run : fold (.binary op l r) = .ok o) :
    Legible o := by
  cases h with
  | @onLiteral _ left right =>
    change (do return .literal (← op.apply left right)) = Except.ok o at run
    obtain ⟨_, -, run⟩ := bind_ok run
    cases run
    exact .literal
  | onSymbol name =>
    cases run
    exact .onSymbol name

def ReadOn.Keeps (read : ReadOn) : Prop :=
  ∀ value cs o rest, (∀ v ∈ value, Legible v) → read value cs = .ok (some o, rest) → Legible o

section

variable (keeps : read.Keeps)

include keeps

lemma ReadOn.Keeps.start (run : read none cs = .ok (some o, rest)) : Legible o :=
  keeps none cs o rest nofun run

lemma ReadOn.Keeps.goOn (h : Legible v)
    (run : read (some v) cs = .ok (some o, rest)) : Legible o := by
  apply keeps (some v) cs o rest _ run
  intro _ same
  cases same
  exact h

lemma readHalf_legible (run : readHalf read cs = .ok (some o, rest)) : Legible o := by
  obtain ⟨-, -, run⟩ := bind_ok run
  obtain ⟨inside, -, run⟩ := bind_ok run
  obtain ⟨⟨argument, behind⟩, argumentRun, run⟩ := bind_ok run
  cases argument with
  | none => cases run
  | some argument =>
    obtain ⟨closed, -, run⟩ := bind_ok run
    exact keeps.goOn (.half (keeps.start argumentRun)) run

lemma readParenthesis_legible (known : ∀ v ∈ value, Legible v)
    (run : readParenthesis read value cs = .ok (some o, rest)) : Legible o := by
  obtain ⟨_, allowed, run⟩ := bind_ok run
  obtain ⟨⟨inner, behind⟩, innerRun, run⟩ := bind_ok run
  cases inner with
  | none => cases run
  | some inner =>
    obtain ⟨closed, -, run⟩ := bind_ok run
    -- What is inside has been read from the start, so nothing is assumed about `value` for it.
    have legible : Legible inner := keeps.start innerRun
    cases legible with
    | register base =>
      cases value with
      | none => exact keeps.goOn (.memory base) run
      | some offset =>
        cases offset with
        | literal => exact keeps.goOn (.atLiteral base) run
        | half =>
          cases known _ rfl with
          | half of => exact keeps.goOn (.atHalf of base) run
        | _ => cases allowed
    | onLiteral =>
      obtain ⟨folded, fold, run⟩ := bind_ok run
      exact keeps.goOn (fold_legible .onLiteral fold) run
    | onSymbol name =>
      obtain ⟨folded, fold, run⟩ := bind_ok run
      exact keeps.goOn (fold_legible (.onSymbol name) fold) run
    | _ => cases run

end

lemma readOperation_legible (known : Legible left)
    (run : readOperation read op left cs = .ok (some o, rest)) : Legible o := by
  obtain ⟨_, allowed, run⟩ := bind_ok run
  obtain ⟨start, -, run⟩ := bind_ok run
  obtain ⟨⟨right, behind⟩, -, run⟩ := bind_ok run
  obtain ⟨k, -, run⟩ := bind_ok run
  cases known with
  | inSection name =>
    -- The position moves, and so there is no operation to be written.
    cases run
    exact .inSection name
  | literal =>
    cases run
    exact .onLiteral
  | symbol name =>
    cases run
    exact .onSymbol name
  | _ => cases allowed

/-- What is read on from a legible operand is legible. -/
lemma readAt_legible (keeps : read.Keeps) (known : ∀ v ∈ value, Legible v)
    (run : readAt read value c cs = .ok (some o, rest)) : Legible o := by
  unfold readAt at run
  simp only [span_eq_takeWhile_dropWhile] at run
  -- The cases go by the character: blank, register, target, relocation, end, number, parenthesis,
  -- name and operator.
  split at run
  · exact keeps value cs o rest known run
  split at run
  · obtain ⟨-, -, run⟩ := bind_ok run
    exact keeps.goOn (.register (registerNamed_legible (word_takeWhile cs))) run
  split at run
  · obtain ⟨-, -, run⟩ := bind_ok run
    split at run
    case isTrue inside => exact keeps.goOn (.inSection (by simpa using inside)) run
    case isFalse outside =>
      exact keeps.goOn (.target (word_takeWhile cs) (by simpa using outside)) run
  split at run
  · obtain ⟨-, -, run⟩ := bind_ok run
    exact readHalf_legible keeps run
  split at run
  · cases run
    exact known o rfl
  split at run
  · obtain ⟨-, -, run⟩ := bind_ok run
    obtain ⟨⟨k, behind⟩, -, run⟩ := bind_ok run
    exact keeps.goOn .literal run
  case isFalse notDigit =>
  split at run
  · exact readParenthesis_legible keeps known run
  split at run
  case isTrue word =>
    obtain ⟨-, -, run⟩ := bind_ok run
    apply keeps.goOn (.symbol ⟨word_takeWhile (c :: cs), c, cs.takeWhile isWordChar, _, _⟩) run
    · rw [String.toList_ofList, takeWhile_cons_of_pos word]
    · simp only [Bool.or_eq_true, not_or, Bool.not_eq_true] at notDigit
      exact notDigit.1
  case isFalse =>
    split at run
    · exact readOperation_legible (known _ rfl) run
    · cases run

lemma readFrom_legible (n : Nat) : (readFrom n).Keeps := by
  induction n with
  | zero =>
    intro value cs o rest known run
    cases run
  | succ n ih =>
    intro value cs o rest known run
    cases cs with
    | nil =>
      cases run
      exact known o rfl
    | cons c cs => exact readAt_legible ih known run

/-- Every operand that is read can be written. -/
lemma read_legible (run : Operand.read cs = .ok (some o)) : Legible o := by
  obtain ⟨⟨_, rest⟩, run, same⟩ := bind_ok run
  cases same
  exact (readFrom_legible _).start run

end

def plain : Operand → Operand
  | .inSection name addend => .symbol (sectionSymbol name addend)
  | .half h of => .half h of.plain
  | .memoryAt offset base => .memoryAt offset.plain base
  | .binary op left right => .binary op left.plain right.plain
  | operand => operand

def namesSection : Operand → Bool
  | .inSection _ _ => true
  | .half _ of => of.namesSection
  | .memoryAt offset _ => offset.namesSection
  | .binary _ left right => left.namesSection || right.namesSection
  | _ => false

lemma text_plain (o : Operand) : o.plain.text = o.text := by
  induction o with
  | half h of ih | memoryAt offset base ih => rw [plain, text, text, ih]
  | binary op left right ihl ihr => rw [plain, text, text, ihl, ihr]
  | _ => rfl

lemma plain_eq_self {o : Operand} (h : o.namesSection = false) : o.plain = o := by
  induction o with
  | inSection => cases h
  | half _ of ih | memoryAt offset base ih => rw [plain, ih h]
  | binary op left right ihl ihr =>
    obtain ⟨hl, hr⟩ := Bool.or_eq_false_iff.1 h
    rw [plain, ihl hl, ihr hr]
  | _ => rfl

section

variable {n : Nat} {read : ReadOn} {o left : Operand} {value : Option Operand} {rest : List Char}

lemma registerNamed_eq (h : r.Legible) : registerNamed r.name = r := by
  rw [registerNamed, if_neg (by simpa using h.notPointer), if_neg (by simpa using h.notZero)]

lemma readAt_register (h : r.Legible) (ends : Ends isWordChar rest) :
    readAt read none '$' (r.name.toList ++ rest) = read (some (.register r)) rest := by
  change (fun split : List Char × List Char =>
    read (some (.register (registerNamed (String.ofList split.1)))) split.2)
      ((r.name.toList ++ rest).span isWordChar) = _
  simp only [span_append h.word ends, String.ofList_toList, registerNamed_eq h]

lemma readAt_dot (word : ∀ c ∈ label.toList, isWordChar c) (ends : Ends isWordChar rest) :
    readAt read none '.' (label.toList ++ rest) =
      read (some (if sections.contains label then .inSection label 0 else .target label)) rest := by
  change (fun split : List Char × List Char =>
    read (some (if sections.contains (String.ofList split.1) then
        .inSection (String.ofList split.1) 0 else .target (String.ofList split.1))) split.2)
      ((label.toList ++ rest).span isWordChar) = _
  simp only [span_append word ends, String.ofList_toList]

lemma readAt_symbol (word : ∀ d ∈ c :: cs, isWordChar d) (start : isAsciiDigit c = false)
    (ends : Ends isWordChar rest) :
    readAt read none c (cs ++ rest) = read (some (.symbol (String.ofList (c :: cs)))) rest := by
  have own : isWordChar c := word c (.head _)
  have other {d : Char} (h : isWordChar d = false) : (c == d) = false :=
    beq_eq_false_of_isWordChar own h
  have span := span_append word ends
  rw [cons_append] at span
  unfold readAt
  rw [isBlank_of_isWordChar own, other rfl, other rfl, other rfl,
    other rfl, other rfl, other rfl, start, own, span]
  rfl

lemma readHalf_text (inner : read none cs = .ok (some o, ')' :: rest)) :
    readHalf read (h.text.toList ++ '(' :: cs) = read (some (.half h o)) rest := by
  cases h
  all_goals
    change (read none cs >>= _) = _
    rw [inner]
    rfl

lemma readParenthesis_base (allowed : opens value)
    (inner : read none cs = .ok (some (.register base), ')' :: rest)) :
    readParenthesis read value cs = read (some (match value with
      | none => .memory base
      | some offset => .memoryAt offset base)) rest := by
  rw [readParenthesis, allowed]
  rw [inner]
  cases value with
  | none | some offset => rfl

/-- An operation on a literal; it moves a position within a section at once. -/
def joined (op : Operator) (k : Int) : Operand → Operand
  | .inSection name addend => .inSection name (addend + k)
  | left => .binary op left (.literal k)

lemma readOperation_literal (own : left.literal?.isSome || left.symbol?.isSome)
    (close : closeOperator op cs = .ok cs') (inner : read none cs' = .ok (some (.literal k), rest)) :
    readOperation read op left cs = .ok (some (joined op k left), rest) := by
  rw [readOperation, own]
  rw [close]
  change (read none cs' >>= _) = _
  rw [inner]
  cases left with
  | literal | symbol | inSection => rfl
  | _ => cases own

lemma readNumber_of_denotes (h : Integer.Denotes w k) (ends : Ends isNumberChar rest) :
    readNumber (w ++ rest) = .ok (k, rest) := by
  have chars {c} (mem : c ∈ w) : isNumberChar c :=
    (h.isNumeralChar c mem).all (p := (isNumberChar ·)) (by decide)
  have value := h.read?
  rw [readNumber, span_append (fun c => chars) ends]
  dsimp only
  rw [value]
  cases h with
  | plain spells =>
    cases spells with
    | decimal _ zero =>
      split
      · cases zero rfl
      · rfl
    | hex marked => rcases marked with rfl | rfl <;> rfl
  | negative => rfl

lemma readAt_literal (start : isAsciiDigit c ∨ c = '-')
    (number : readNumber (c :: cs) = .ok (k, rest)) :
    readAt read none c cs = read (some (.literal k)) rest := by
  rcases start with digit | rfl
  · have word : isWordChar c := by simp [isWordChar, digit]
    have other {d : Char} (h : isWordChar d = false) : (c == d) = false :=
      beq_eq_false_of_isWordChar word h
    unfold readAt
    rw [isBlank_of_isWordChar word, other rfl, other rfl,
      other rfl, other rfl, digit, number]
    rfl
  · change (readNumber _ >>= _) = _
    rw [number]
    rfl

lemma readFrom_literal (h : Integer.Denotes w k) (ends : Ends isNumberChar rest) :
    readFrom (n + 1) none (w ++ rest) = readFrom n (some (.literal k)) rest := by
  have number := readNumber_of_denotes h ends
  obtain ⟨c, cs, rfl, start⟩ := h.start
  exact readAt_literal start number

lemma readFrom_symbol (h : IsName name) (ends : Ends isWordChar rest) :
    readFrom (n + 1) none (name.toList ++ rest) = readFrom n (some (.symbol name)) rest := by
  obtain ⟨c, cs, same, start⟩ := h.start
  have word := h.word
  have read : readAt (readFrom n) none c (cs ++ rest) = _ :=
    readAt_symbol (same ▸ word) start ends
  rw [← same, String.ofList_toList] at read
  rw [same]
  exact read

lemma readFrom_register (h : r.Legible) (ends : Ends isWordChar rest) :
    readFrom (n + 1) none (r.text.toList ++ rest) = readFrom n (some (.register r)) rest := by
  have shape : r.text.toList ++ rest = '$' :: (r.name.toList ++ rest) := by simp [Register.text]
  rw [shape]
  exact readAt_register h ends

lemma readFrom_target (word : ∀ c ∈ label.toList, isWordChar c)
    (other : label ∉ sections) (ends : Ends isWordChar rest) :
    readFrom (n + 1) none ((target label).text.toList ++ rest) =
      readFrom n (some (.target label)) rest := by
  have shape : (target label).text.toList ++ rest = '.' :: (label.toList ++ rest) := by simp [text]
  rw [shape]
  exact (readAt_dot word ends).trans (by rw [if_neg (by simpa using other)])

def Stops (rest : List Char) : Prop :=
  ∀ c ∈ rest.head?, c = ')'

lemma stops_nil : Stops [] :=
  nofun

lemma stops_close (cs : List Char) : Stops (')' :: cs) := by
  intro c mem
  cases mem
  rfl

lemma Stops.ends (stops : Stops rest) (other : p ')' = false) : Ends p rest := by
  intro c mem
  rw [stops c mem]
  exact other

lemma readFrom_stops (stops : Stops rest) : readFrom (n + 1) value rest = .ok (value, rest) := by
  cases rest with
  | nil => rfl
  | cons c cs =>
    cases stops c rfl
    rfl

lemma readFrom_base {base : Register} (h : base.Legible) (allowed : opens value) :
    readFrom (n + 3) value ('(' :: (base.text.toList ++ ')' :: rest)) =
      readFrom (n + 2) (some (match value with
        | none => .memory base
        | some offset => .memoryAt offset base)) rest := by
  apply readParenthesis_base allowed
  rw [readFrom_register h (ends_cons rfl)]
  exact readFrom_stops (stops_close rest)

lemma readAt_operator (op : Operator) :
    ∃ c cs, op.text.toList = c :: cs ∧ ∀ (read : ReadOn) (left : Operand) (rest : List Char),
      readAt read (some left) c (cs ++ rest) = readOperation read op left (cs ++ rest) ∧
        closeOperator op (cs ++ rest) = .ok rest := by
  cases op with
  | add => exact ⟨'+', [], rfl, fun _ _ _ => ⟨rfl, rfl⟩⟩
  | sub => exact ⟨'-', [], rfl, fun _ _ _ => ⟨rfl, rfl⟩⟩
  | mul => exact ⟨'*', [], rfl, fun _ _ _ => ⟨rfl, rfl⟩⟩
  | and => exact ⟨'&', [], rfl, fun _ _ _ => ⟨rfl, rfl⟩⟩
  | shiftRight => exact ⟨'>', ['>'], rfl, fun _ _ _ => ⟨rfl, rfl⟩⟩

lemma readFrom_operation (own : left.literal?.isSome || left.symbol?.isSome)
    (h : Integer.Denotes w k) (stops : Stops rest) :
    readFrom (n + 5) (some left) (' ' :: (op.text.toList ++ ' ' :: (w ++ rest))) =
      .ok (some (joined op k left), rest) := by
  have right : readFrom (n + 3) none (' ' :: (w ++ rest)) = .ok (some (.literal k), rest) := by
    change readFrom (n + 2) none _ = _
    rw [readFrom_literal h (stops.ends rfl)]
    exact readFrom_stops stops
  obtain ⟨c, cs, same, reads⟩ := readAt_operator op
  obtain ⟨step, close⟩ := reads (readFrom (n + 3)) left (' ' :: (w ++ rest))
  rw [same]
  change readAt (readFrom (n + 3)) (some left) c (cs ++ _) = _
  rw [step]
  exact readOperation_literal own close right

lemma isName_sectionSymbol (known : name ∈ sections) (addend : Int) :
    IsName (sectionSymbol name addend) := by
  have inName : ∀ c ∈ name.toList, isWordChar c := by
    apply all_eq_true.1
    revert name
    decide
  have digits : ∀ c ∈ (Integer.hex addend).toList.drop 2, isWordChar c.toUpper := by
    have digit {c : Char} (mem : c ∈ Nat.toDigits 16 addend.natAbs) :
        isWordChar c.toUpper := by
      obtain ⟨d, digit⟩ := (Integer.digits_toDigits _).isDigit (Nat.le_refl 16) c mem
      exact digit.all (p := (isWordChar ·.toUpper)) (by decide)
    intro c mem
    rw [Integer.hex_toList] at mem
    split at mem
    · rcases mem with _ | ⟨_, mem⟩
      · rfl
      · exact digit mem
    · exact digit mem
  have shape : (sectionSymbol name addend).toList =
      '_' :: '_' :: (name.toList ++ ((Integer.hex addend).toList.drop 2).map Char.toUpper) := by
    simp [sectionSymbol]
  refine ⟨?_, '_', _, shape, rfl⟩
  rw [shape]
  simp only [forall_mem_cons, forall_mem_append, forall_mem_map]
  exact ⟨rfl, rfl, inName, digits⟩

lemma toList_half (h : Half) (o : Operand) (rest : List Char) : (half h o).text.toList ++ rest =
    '%' :: (h.text.toList ++ '(' :: (o.text.toList ++ ')' :: rest)) := by
  simp [text]

lemma toList_memoryAt (offset : Operand) (base : Register) (rest : List Char) :
    (memoryAt offset base).text.toList ++ rest =
      offset.text.toList ++ '(' :: (base.text.toList ++ ')' :: rest) := by
  simp [text]

lemma toList_binary (op : Operator) (k : Int) (rest : List Char) :
    (binary op left (.literal k)).text.toList ++ rest =
      left.text.toList ++ ' ' :: (op.text.toList ++ ' ' :: ((Integer.hex k).toList ++ rest)) := by
  simp [text]

lemma readFrom_half
    (inner : readFrom n none (o.text.toList ++ ')' :: rest) = .ok (some o.plain, ')' :: rest)) :
    readFrom (n + 1) none ((half h o).text.toList ++ rest) =
      readFrom n (some (.half h o.plain)) rest := by
  rw [toList_half]
  change readHalf (readFrom n) (h.text.toList ++ '(' :: (o.text.toList ++ ')' :: rest)) = _
  exact readHalf_text inner

lemma length_hex_pos (k : Int) : 0 < (Integer.hex k).toList.length :=
  length_pos_iff.2 (Integer.denotes_hex k).ne_nil

lemma length_name_pos (h : IsName name) : 0 < name.toList.length := by
  obtain ⟨c, cs, same, -⟩ := h.start
  rw [same]
  exact Nat.succ_pos _

lemma length_register_pos (r : Register) : 0 < r.text.toList.length := by
  simp [Register.text]

lemma length_operator_pos (op : Operator) : 0 < op.text.toList.length := by
  obtain ⟨c, cs, same, -⟩ := readAt_operator op
  rw [same]
  exact Nat.succ_pos _

lemma readFrom_whole (pos : 0 < w.length)
    (step : ∀ m, readFrom (m + 1) none (w ++ rest) = readFrom m (some o) rest) (stops : Stops rest)
    (steps : (w ++ rest).length < n) : readFrom n none (w ++ rest) = .ok (some o, rest) := by
  rw [length_append] at steps
  obtain ⟨m, rfl⟩ : ∃ m, n = m + 2 := Nat.exists_eq_add_of_le' (by omega)
  rw [step]
  exact readFrom_stops stops

lemma readFrom_binary (pos : 0 < left.text.toList.length)
    (step : ∀ m rest, Ends isWordChar rest → Ends isNumberChar rest →
      readFrom (m + 1) none (left.text.toList ++ rest) = readFrom m (some left) rest)
    (own : (∃ m, left = .literal m) ∨ ∃ name, left = .symbol name) (stops : Stops rest)
    (steps : ((binary op left (.literal k)).text.toList ++ rest).length < n) :
    readFrom n none ((binary op left (.literal k)).text.toList ++ rest) =
      .ok (some (.binary op left (.literal k)), rest) := by
  have posSign := length_operator_pos op
  have posRight := length_hex_pos k
  rw [toList_binary] at steps ⊢
  simp only [length_append, length_cons] at steps
  obtain ⟨m, rfl⟩ : ∃ m, n = m + 6 := Nat.exists_eq_add_of_le' (by omega)
  rw [step _ _ (ends_cons rfl) (ends_cons rfl)]
  rcases own with ⟨_, rfl⟩ | ⟨_, rfl⟩
  all_goals exact readFrom_operation rfl (Integer.denotes_hex k) stops

/-- An operand is read from its text, with one step for each character. -/
lemma readFrom_text (h : Legible o) (stops : Stops rest)
    (steps : (o.text.toList ++ rest).length < n) :
    readFrom n none (o.text.toList ++ rest) = .ok (some o.plain, rest) := by
  induction h generalizing n rest with
  | @register r h =>
    exact readFrom_whole (length_register_pos r) (fun _ => readFrom_register h (stops.ends rfl))
      stops steps
  | symbol h =>
    exact readFrom_whole (length_name_pos h) (fun _ => readFrom_symbol h (stops.ends rfl)) stops
      steps
  | @inSection _ addend known =>
    have h := isName_sectionSymbol known addend
    exact readFrom_whole (length_name_pos h) (fun _ => readFrom_symbol h (stops.ends rfl)) stops
      steps
  | @literal k =>
    exact readFrom_whole (length_hex_pos k)
      (fun _ => readFrom_literal (Integer.denotes_hex k) (stops.ends rfl)) stops steps
  | @target label word other =>
    have pos : 0 < (target label).text.toList.length := by simp [text]
    exact readFrom_whole pos (fun _ => readFrom_target word other (stops.ends rfl)) stops steps
  | half _ ih =>
    rw [toList_half, length_cons, length_append, length_cons] at steps
    obtain ⟨m, rfl⟩ : ∃ m, n = m + 2 := Nat.exists_eq_add_of_le' (by omega)
    rw [readFrom_half (ih (stops_close rest) (by omega))]
    exact readFrom_stops stops
  | @memory base h =>
    have shape : (memory base).text.toList ++ rest = '(' :: (base.text.toList ++ ')' :: rest) := by
      simp [text]
    rw [shape] at steps ⊢
    simp only [length_append, length_cons] at steps
    obtain ⟨m, rfl⟩ : ∃ m, n = m + 3 := Nat.exists_eq_add_of_le' (by omega)
    rw [readFrom_base h rfl]
    exact readFrom_stops stops
  | @atLiteral k base h =>
    have pos := length_register_pos base
    rw [toList_memoryAt, text] at steps ⊢
    simp only [length_append, length_cons] at steps
    obtain ⟨m, rfl⟩ : ∃ m, n = m + 4 := Nat.exists_eq_add_of_le' (by omega)
    rw [readFrom_literal (Integer.denotes_hex k) (ends_cons rfl), readFrom_base h rfl]
    exact readFrom_stops stops
  | @atHalf h of base _ legible ih =>
    rw [toList_memoryAt, toList_half] at steps
    rw [toList_memoryAt]
    simp only [length_append, length_cons] at steps
    obtain ⟨m, rfl⟩ : ∃ m, n = m + 4 := Nat.exists_eq_add_of_le' (by omega)
    have inner := ih (stops_close ('(' :: (base.text.toList ++ ')' :: rest))) (n := m + 3) (by
      simp only [length_append, length_cons]
      omega)
    rw [readFrom_half inner, readFrom_base legible rfl]
    exact readFrom_stops stops
  | @onLiteral _ k _ =>
    exact readFrom_binary (length_hex_pos k)
      (fun _ _ _ ends => readFrom_literal (Integer.denotes_hex k) ends) (.inl ⟨k, rfl⟩) stops steps
  | @onSymbol _ name _ h =>
    exact readFrom_binary (length_name_pos h) (fun _ _ ends _ => readFrom_symbol h ends)
      (.inr ⟨name, rfl⟩) stops steps

/-- What an operand is written as is read as this operand. -/
lemma read_text (h : Legible o) : Operand.read o.text.toList = .ok (some o.plain) := by
  have run : readFrom (o.text.toList.length + 1) none (o.text.toList ++ []) = _ :=
    readFrom_text h stops_nil (by simp)
  rw [append_nil] at run
  rw [read, run]
  rfl

end

end Operand

end Decompiler.Asm
