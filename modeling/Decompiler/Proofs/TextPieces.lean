import Mathlib
import Decompiler.Text.Blank
import Decompiler.Text.Digit

/-!
# Pieces of texts

How a text that is put together from pieces falls into these pieces again.
-/

namespace Decompiler.Text

open List

variable {cs rest : List Char}

def Ends (p : Char → Bool) (rest : List Char) : Prop :=
  ∀ c ∈ rest.head?, p c = false

lemma ends_nil : Ends p [] := by
  intro c mem
  cases mem

lemma ends_cons (other : p c = false) : Ends p (c :: cs) := by
  intro d mem
  cases mem
  exact other

lemma span_append (all : ∀ c ∈ w, p c) (ends : Ends p rest) : (w ++ rest).span p = (w, rest) := by
  rw [span_eq_takeWhile_dropWhile, takeWhile_append_of_pos all,
    dropWhile_append_of_pos all]
  cases rest with
  | nil => simp
  | cons c cs =>
    have other : ¬ p c := by simp [ends c rfl]
    rw [takeWhile_cons_of_neg other, dropWhile_cons_of_neg other, append_nil]

lemma isBlank_of_isWordChar (word : isWordChar c) : isBlank c = false := by
  simp only [isWordChar, isAsciiDigit, Bool.or_eq_true, Bool.and_eq_true, decide_eq_true_eq,
    beq_iff_eq, Char.le_def, UInt32.le_iff_toNat_le] at word
  have range : 48 ≤ c.toNat ∧ c.toNat ≤ 122 := by
    rcases word with ((⟨le, ge⟩ | ⟨le, ge⟩) | ⟨le, ge⟩) | rfl
    · exact ⟨le, Nat.le_trans ge (by decide)⟩
    · exact ⟨Nat.le_trans (by decide) le, ge⟩
    · exact ⟨Nat.le_trans (by decide) le, Nat.le_trans ge (by decide)⟩
    · decide
  simp only [isBlank, Bool.or_eq_false_iff, Bool.and_eq_false_iff, decide_eq_false_iff_not,
    beq_eq_false_iff_ne]
  omega

lemma beq_eq_false_of_isWordChar (word : isWordChar c) (other : isWordChar d = false) :
    (c == d) = false := by
  apply beq_eq_false_iff_ne.2
  rintro rfl
  rw [word] at other
  cases other

lemma word_takeWhile (cs : List Char) :
    ∀ c ∈ (String.ofList (cs.takeWhile isWordChar)).toList, isWordChar c := by
  intro c mem
  rw [String.toList_ofList] at mem
  exact all_eq_true.1 all_takeWhile c mem

lemma mem_of_mem_trim (mem : c ∈ trim cs) : c ∈ cs := by
  rw [trim, dropEndWhile, mem_reverse] at mem
  have mem := (dropWhile_sublist _).mem mem
  rw [mem_reverse] at mem
  exact (dropWhile_sublist _).mem mem

lemma isBlank_head?_trim (mem : c ∈ (trim cs).head?) : isBlank c = false := by
  have start := head?_dropWhile_not isBlank cs
  obtain ⟨blanks, split⟩ :=
    dropWhile_suffix isBlank
  have split := congrArg reverse split
  rw [reverse_append, reverse_reverse] at split
  change trim cs ++ blanks.reverse = _ at split
  rw [← split, head?_append, mem] at start
  exact start

def Solid (c : Char) : Prop :=
  isBlank c = false ∧ c ≠ ','

structure Trimmed (cs : List Char) : Prop where
  nonempty : cs ≠ []
  first : ∀ c ∈ cs.head?, isBlank c = false
  last : ∀ c ∈ cs.getLast?, isBlank c = false

lemma trimmed_of_no_blanks (nonempty : cs ≠ []) (none : ∀ c ∈ cs, isBlank c = false) :
    Trimmed cs where
  nonempty := nonempty
  first := fun c mem => none c (mem_of_mem_head? mem)
  last := fun c mem => none c (mem_of_mem_getLast? mem)

namespace Trimmed

lemma between (ha : Trimmed a) (hb : Trimmed b) (mid : List Char) : Trimmed (a ++ (mid ++ b)) where
  nonempty := append_ne_nil_of_left_ne_nil ha.nonempty _
  first := by
    rw [head?_append_of_ne_nil a ha.nonempty]
    exact ha.first
  last := by
    rw [← append_assoc, getLast?_append_of_ne_nil _ hb.nonempty]
    exact hb.last

lemma trim (h : Trimmed cs) : trim cs = cs := by
  have keeps {cs : List Char} (first : ∀ c ∈ cs.head?, isBlank c = false) :
      cs.dropWhile isBlank = cs := by
    cases cs with
    | nil => rfl
    | cons c cs => rw [dropWhile_cons_of_neg (by simp [first c rfl])]
  rw [Text.trim, dropEndWhile, keeps h.first, keeps, reverse_reverse]
  rw [head?_reverse]
  exact h.last

lemma trim_cons (h : Trimmed cs) : Text.trim (' ' :: cs) = cs :=
  h.trim

lemma trim_concat (h : Trimmed cs) : Text.trim (cs ++ [' ']) = cs := by
  have keep : (cs ++ [' ']).dropWhile isBlank = cs.dropWhile isBlank ++ [' '] := by
    obtain ⟨c, cs, rfl⟩ := exists_cons_of_ne_nil h.nonempty
    have other : ¬ isBlank c := by simp [h.first c rfl]
    rw [cons_append, dropWhile_cons_of_neg other, dropWhile_cons_of_neg other,
      cons_append]
  rw [Text.trim, keep, dropEndWhile, reverse_append]
  exact h.trim

lemma intercalate (nonempty : ts ≠ []) (h : ∀ t ∈ ts, Trimmed t) :
    Trimmed (intercalate [',', ' '] ts) := by
  induction ts with
  | nil => cases nonempty rfl
  | cons t ts ih =>
    obtain ⟨first, others⟩ := forall_mem_cons.1 h
    cases ts with
    | nil => simpa using first
    | cons t' ts =>
      exact first.between (ih (cons_ne_nil t' ts) others) _

end Trimmed

structure Tidy (cs : List Char) : Prop extends Trimmed cs where
  commas : ',' ∉ cs

lemma tidy_of_solid (nonempty : cs ≠ []) (solid : ∀ c ∈ cs, Solid c) : Tidy cs where
  toTrimmed := trimmed_of_no_blanks nonempty fun c mem => (solid c mem).1
  commas := fun mem => (solid _ mem).2 rfl

lemma Tidy.between (ha : Tidy a) (hb : Tidy b) (commas : ',' ∉ mid) : Tidy (a ++ (mid ++ b)) where
  toTrimmed := ha.toTrimmed.between hb.toTrimmed mid
  commas := by
    simp only [mem_append, not_or]
    exact ⟨ha.commas, commas, hb.commas⟩

lemma solid_of_isWordChar (word : isWordChar c) : Solid c := by
  constructor
  · exact isBlank_of_isWordChar word
  · rintro rfl
    cases word

/-- Pieces without commas are found again between the commas. -/
lemma split_intercalate (commas : ∀ t' ∈ t :: ts, ',' ∉ t') :
    split ',' (intercalate [',', ' '] (t :: ts)) = t :: ts.map (' ' :: ·) := by
  have shape : intercalate [',', ' '] (t :: ts) =
      intercalate [','] (t :: ts.map (' ' :: ·)) := by
    clear commas
    induction ts generalizing t with
    | nil => rfl
    | cons t' ts ih =>
      rw [intercalate_cons_cons, ih]
      cases ts with
      | nil => simp
      | cons t'' ts => simp [intercalate_cons_cons]
  rw [shape]
  apply splitOn_intercalate
  · simpa using commas
  · nofun

end Decompiler.Text
