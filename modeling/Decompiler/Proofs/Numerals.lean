import Decompiler.Number.Integer
import Decompiler.Proofs.TextPieces

/-!
# Numerals

A decimal or hexadecimal numeral is read as the integer that it denotes.
-/

namespace Decompiler.Integer

open Text List

def IsDigit (b : Nat) (c : Char) (d : Nat) : Prop :=
  d < b ∧ (c = Nat.digitChar d ∨ c = (Nat.digitChar d).toUpper)

/-- Digits in base `b` and the number that they denote. -/
inductive Digits (b : Nat) : List Char → Nat → Prop
  | single {c d} :
    IsDigit b c d →
    Digits b [c] d
  | snoc {cs n c d} :
    Digits b cs n →
    IsDigit b c d →
    Digits b (cs ++ [c]) (n * b + d)

inductive Spells : List Char → Nat → Prop
  | decimal :
    Digits 10 cs n →
    (cs.head? = some '0' → cs = ['0']) →
    Spells cs n
  | hex :
    mark = 'x' ∨ mark = 'X' →
    Digits 16 cs n →
    Spells ('0' :: mark :: cs) n

/-- A numeral, perhaps behind a minus sign, and the integer that it denotes. -/
inductive Denotes : List Char → Int → Prop
  | plain :
    Spells cs n →
    Denotes cs n
  | negative :
    Spells cs n →
    Denotes ('-' :: cs) (-n)

def IsNumeralChar (c : Char) : Prop :=
  c = '-' ∨ c = 'x' ∨ c = 'X' ∨ ∃ d, IsDigit 16 c d

section

variable {c : Char} {cs : List Char}

lemma IsNumeralChar.all {p : Char → Prop} (h : IsNumeralChar c) (all : p '-' ∧ p 'x' ∧ p 'X' ∧
    ∀ d < 16, p (Nat.digitChar d) ∧ p (Nat.digitChar d).toUpper) : p c := by
  rcases h with rfl | rfl | rfl | ⟨d, lt, rfl | rfl⟩
  · exact all.1
  · exact all.2.1
  · exact all.2.2.1
  · exact (all.2.2.2 d lt).1
  · exact (all.2.2.2 d lt).2

lemma IsDigit.all {p : Char → Prop} (h : IsDigit 16 c d)
    (all : ∀ d < 16, p (Nat.digitChar d) ∧ p (Nat.digitChar d).toUpper) : p c := by
  rcases h with ⟨lt, rfl | rfl⟩
  · exact (all d lt).1
  · exact (all d lt).2

lemma IsDigit.mono (h : IsDigit b c d) (le : b ≤ 16) : IsDigit 16 c d :=
  ⟨Nat.lt_of_lt_of_le h.1 le, h.2⟩

lemma IsDigit.toUpper (h : IsDigit 16 c d) : IsDigit 16 c.toUpper d := by
  rcases h with ⟨lt, rfl | rfl⟩
  · exact ⟨lt, .inr rfl⟩
  · refine ⟨lt, .inr ?_⟩
    revert d
    decide

lemma IsDigit.letterDigit? (h : IsDigit 16 c d) : letterDigit? c = some d ∧ (c == '_') = false := by
  rcases h with ⟨lt, rfl | rfl⟩
  all_goals
    revert d
    decide

lemma Digits.isDigit (h : Digits b cs n) (le : b ≤ 16) : ∀ c ∈ cs, ∃ d, IsDigit 16 c d := by
  induction h with
  | single digit => exact forall_mem_singleton.2 ⟨_, digit.mono le⟩
  | snoc _ digit ih =>
    exact forall_mem_append.2 ⟨ih, forall_mem_singleton.2 ⟨_, digit.mono le⟩⟩

lemma Digits.toUpper (h : Digits 16 cs n) : Digits 16 (cs.map Char.toUpper) n := by
  induction h with
  | single digit => exact .single digit.toUpper
  | snoc _ digit ih =>
    rw [map_append]
    exact .snoc ih digit.toUpper

lemma Digits.digitsValue? (h : Digits b cs n) (le : b ≤ 16) (rest : List Char) :
    digitsValue? b true 0 (cs ++ rest) = digitsValue? b false n rest := by
  have step {fresh acc c d rest} (digit : IsDigit b c d) :
      Integer.digitsValue? b fresh acc (c :: rest) =
        Integer.digitsValue? b false (acc * b + d) rest := by
    obtain ⟨value, other⟩ := (digit.mono le).letterDigit?
    rw [Integer.digitsValue?, other, value]
    simp [digit.1]
  induction h generalizing rest with
  | single digit => rw [singleton_append, step digit, Nat.zero_mul, Nat.zero_add]
  | snoc _ digit ih => rw [append_assoc, ih, singleton_append, step digit]

lemma digits_toDigits (n : Nat) : Digits 16 (Nat.toDigits 16 n) n := by
  induction n using Nat.strongRecOn with
  | ind n ih =>
    by_cases small : n < 16
    · rw [Nat.toDigits_of_lt_base small]
      exact .single ⟨small, .inl rfl⟩
    · rw [Nat.toDigits_of_base_le (by decide) (Nat.le_of_not_lt small)]
      have := Digits.snoc (ih (n / 16) (Nat.div_lt_self (by omega) (by decide)))
        ⟨Nat.mod_lt n (by decide), .inl rfl⟩
      rwa [Nat.div_add_mod'] at this

lemma Spells.markedValue? (h : Spells cs n) : markedValue? cs = some n := by
  cases h with
  | decimal digits zero =>
    have value := digits.digitsValue? (by decide) []
    rw [append_nil] at value
    rw [Integer.markedValue?]
    · exact value
    · rintro m cs rfl
      cases zero rfl
  | hex marked digits =>
    have value := digits.digitsValue? (Nat.le_refl 16) []
    rw [append_nil] at value
    rcases marked with rfl | rfl
    all_goals
      rw [markedValue?]
      · exact value
      · rintro ds rfl
        cases value

lemma Digits.start (h : Digits b cs n) : ∃ c rest d, cs = c :: rest ∧ IsDigit b c d := by
  induction h with
  | single digit => exact ⟨_, _, _, rfl, digit⟩
  | snoc _ _ ih =>
    obtain ⟨c, rest, d, rfl, digit⟩ := ih
    exact ⟨c, _, d, rfl, digit⟩

lemma Spells.start (h : Spells cs n) : ∃ c rest, cs = c :: rest ∧ isAsciiDigit c := by
  cases h with
  | decimal digits zero =>
    obtain ⟨c, rest, d, rfl, lt, digit⟩ := digits.start
    refine ⟨c, rest, rfl, ?_⟩
    clear digits zero
    rcases digit with rfl | rfl
    all_goals
      revert d
      decide
  | hex => exact ⟨'0', _, rfl, rfl⟩

lemma Spells.isNumeralChar (h : Spells cs n) : ∀ c ∈ cs, IsNumeralChar c := by
  cases h with
  | decimal digits => exact fun c mem => .inr (.inr (.inr (digits.isDigit (by decide) c mem)))
  | hex marked digits =>
    refine forall_mem_cons.2 ⟨.inr (.inr (.inr ⟨0, by decide, .inl rfl⟩)), ?_⟩
    refine forall_mem_cons.2 ⟨.inr (marked.imp_right .inl), fun c mem => ?_⟩
    exact .inr (.inr (.inr (digits.isDigit (Nat.le_refl 16) c mem)))

end

section

variable {n : Int}

section

variable (h : Denotes cs n)

include h

lemma Denotes.isNumeralChar : ∀ c ∈ cs, IsNumeralChar c := by
  cases h with
  | plain spells => exact spells.isNumeralChar
  | negative spells => exact forall_mem_cons.2 ⟨.inl rfl, spells.isNumeralChar⟩

lemma Denotes.start : ∃ c rest, cs = c :: rest ∧ (isAsciiDigit c ∨ c = '-') := by
  cases h with
  | plain spells =>
    obtain ⟨c, rest, same, digit⟩ := spells.start
    exact ⟨c, rest, same, .inl digit⟩
  | negative => exact ⟨'-', _, rfl, .inr rfl⟩

lemma Denotes.ne_nil : cs ≠ [] := by
  obtain ⟨c, rest, rfl, -⟩ := h.start
  exact cons_ne_nil c rest

lemma Denotes.tidy : Tidy cs :=
  tidy_of_solid h.ne_nil fun c mem => (h.isNumeralChar c mem).all
    (p := fun c => isBlank c = false ∧ c ≠ ',') (by decide)

lemma Denotes.toAscii : toAscii cs = cs := by
  refine (map_congr_left fun c mem => ?_).trans (map_id cs)
  have same := (h.isNumeralChar c mem).all (p := fun c => Text.toAscii [c] = [c]) (by decide)
  exact (cons.inj same).1

/-- A numeral is read as what it denotes. -/
lemma Denotes.read? : read? cs = some n := by
  rw [Integer.read?, h.tidy.toTrimmed.trim, h.toAscii]
  cases h with
  | plain spells =>
    rw [signed?, spells.markedValue?]
    · rfl
    · rintro cs rfl
      obtain ⟨_, _, same, digit⟩ := spells.start
      cases same
      cases digit
    · rintro cs rfl
      obtain ⟨_, _, same, digit⟩ := spells.start
      cases same
      cases digit
  | negative spells =>
    rw [signed?, spells.markedValue?]
    rfl

end

lemma hex_toList (n : Int) : (hex n).toList =
    if n < 0 then '-' :: '0' :: 'x' :: Nat.toDigits 16 n.natAbs
    else '0' :: 'x' :: Nat.toDigits 16 n.natAbs := by
  rw [hex, hexNat, String.toList_append, String.toList_ofList]
  split
  · rfl
  · rfl

/-- A number that is written in hexadecimal denotes itself. -/
lemma denotes_hex (n : Int) : Denotes (hex n).toList n := by
  have digits := digits_toDigits n.natAbs
  rw [hex_toList]
  split
  case isTrue negative =>
    have := Denotes.negative (.hex (.inl rfl) digits)
    rwa [Int.ofNat_natAbs_of_nonpos (Int.le_of_lt negative), Int.neg_neg] at this
  case isFalse nonneg =>
    have := Denotes.plain (.hex (.inl rfl) digits)
    rwa [Int.natAbs_of_nonneg (Int.not_lt.1 nonneg)] at this

lemma denotes_upper (n : Nat) : Denotes ('0' :: 'x' :: (Nat.toDigits 16 n).map Char.toUpper) n :=
  .plain (.hex (.inl rfl) (digits_toDigits n).toUpper)

end

end Decompiler.Integer
