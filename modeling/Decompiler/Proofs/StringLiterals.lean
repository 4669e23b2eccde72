import Mathlib
import Decompiler.Asm.Ascii
import Decompiler.Text.StringLiteral

/-!
# String literals that are read back

A string literal is written character by character, and a directive reads it byte by byte. Nothing
marks the end of an escape, so digits that follow one are taken for a part of it.

Main statement: `stringLiteral_read_iff`.
-/

namespace Decompiler.Asm.Ascii

open Text

variable {m : Mode} {c : Char}

def pending : Mode → List UInt8
  | .hex value | .octal value _ => [value.toUInt8]
  | _ => []

lemma pending_inside : pending .inside = [] := rfl

def continues : Mode → Char → Bool
  | .hex _, c => isHexDigit c
  | .octal _ room, c => isAsciiDigit c && room != 0
  | _, _ => false

def Mode.IsWithin : Mode → Prop
  | .outside | .escape => False
  | .inside | .hex _ | .octal _ _ => True

lemma scan_append (cs rest : List Char) : scan terminated m (cs ++ rest) =
      ((scan terminated m cs).1 ++ (scan terminated (scan terminated m cs).2 rest).1,
        (scan terminated (scan terminated m cs).2 rest).2) := by
  induction cs generalizing m with
  | nil => rfl
  | cons c cs ih => simp only [List.cons_append, scan, ih, List.append_assoc]

lemma scan_of_not_continues (within : m.IsWithin) (ends : continues m c = false) :
    scan false m (c :: cs) =
      (pending m ++ (scan false .inside (c :: cs)).1, (scan false .inside (c :: cs)).2) := by
  cases m with
  | outside | escape => cases within
  | inside => rfl
  | hex value =>
    have ends : isHexDigit c = false := ends
    simp [scan, step, ends, pending]
  | octal value room =>
    have ends : (isAsciiDigit c && room != 0) = false := ends
    simp [scan, step, ends, pending]

def extend : Mode → Char → Mode
  | .hex value, c => .hex (value * 16 + (letterDigit? c).getD 0)
  | .octal value room, c => .octal (value * 8 + (c.toNat - 48)) (room - 1)
  | m, _ => m

lemma scan_of_continues (takes : continues m c) :
    scan false m (c :: cs) = scan false (extend m c) cs := by
  cases m with
  | hex value =>
    have takes : isHexDigit c := takes
    simp [scan, step, takes, extend]
  | octal value room =>
    have takes : (isAsciiDigit c && room != 0) := takes
    simp [scan, step, takes, extend]
  | _ => cases takes

lemma extend_isWithin (within : m.IsWithin) : (extend m c).IsWithin := by
  cases m <;> exact within

lemma length_pending_extend : (pending (extend m c)).length = (pending m).length := by
  cases m <;> rfl

lemma isHexDigit_of_continues (takes : continues m c) : isHexDigit c := by
  cases m with
  | hex value => exact takes
  | octal value room =>
    have digit := (Bool.and_eq_true_iff.1 takes).1
    simp [isHexDigit, digit]
  | _ => cases takes

end Decompiler.Asm.Ascii

namespace Decompiler.Text

open Asm Ascii List

variable {m : Mode} {c d : Char} {cs rest : List Char} {bs : List UInt8}

def isCoded (c : Char) : Bool :=
  let n := c.toNat
  (0 < n && n < 0x08) || (0x0d < n && n < 0x20) || n == 0x7f || n == 0xff

def absorbs (c d : Char) : Bool :=
  if c.toNat == 0 then isAsciiDigit d else isCoded c && isHexDigit d

def readBytes (c : Char) : List UInt8 :=
  if c.toNat = 0xff then [0xff] else String.utf8EncodeChar c

def after (c : Char) : Mode :=
  if c.toNat == 0 then .octal 0 2 else if isCoded c then .hex c.toNat else .inside

lemma after_isWithin : (after c).IsWithin := by
  unfold after
  split <;> [skip; split] <;> trivial

lemma continues_after : continues (after c) d = absorbs c d := by
  unfold after absorbs
  split
  · simp [continues]
  · split <;> simp_all [continues]

lemma beq_of_wide (wide : 0x100 ≤ c.toNat) (low : d.toNat < 0x100) : (c == d) = false := by
  rw [beq_eq_false_iff_ne]
  rintro rfl
  omega

lemma escape_of_wide (wide : 0x100 ≤ c.toNat) : escape c = [c] ∧ isCoded c = false := by
  constructor
  · rw [escape, beq_of_wide wide (by decide), beq_of_wide wide (by decide)]
    simp only [Bool.or_self, Bool.false_eq_true, if_false]
    split
    all_goals first
      | omega
      | rw [if_neg (by simp only [Bool.or_eq_true, decide_eq_true_eq, beq_iff_eq]; omega)]
  · simp only [isCoded, Bool.or_eq_false_iff, Bool.and_eq_false_iff, decide_eq_false_iff_not,
      beq_eq_false_iff_ne]
    omega

lemma after_of_wide (wide : 0x100 ≤ c.toNat) : after c = .inside := by
  rw [after, (escape_of_wide wide).2, if_neg (by simp; omega)]
  rfl

lemma forall_char_lt {p : Char → Prop} (all : ∀ i < n, p (Char.ofNat i)) (c) (lt : c.toNat < n) :
    p c := by
  have here := all c.toNat lt
  rwa [Char.ofNat_toNat] at here

lemma forall_byte {p : UInt8 → Prop} (all : ∀ n < 256, p (UInt8.ofNat n)) (b : UInt8) : p b := by
  have here := all b.toNat b.toNat_lt
  rwa [UInt8.ofNat_toNat] at here

def certain (c : Char) : List UInt8 :=
  if after c = .inside then readBytes c else []

def isHigh (b : UInt8) : Bool :=
  0x80 ≤ b && b != 0xff

lemma of_narrow : ∀ c, c.toNat < 0x100 → certain c ++ pending (after c) = readBytes c ∧
    scan false .inside (escape c) = (certain c, after c) ∧
    (pending (after c)).countP isHigh = 0 :=
  forall_char_lt (by decide +kernel)

lemma certain_pending (c : Char) : certain c ++ pending (after c) = readBytes c := by
  by_cases narrow : c.toNat < 0x100
  · exact (of_narrow c narrow).1
  · simp [certain, after_of_wide (Nat.le_of_not_lt narrow), pending]

lemma scan_escape (c : Char) : scan false .inside (escape c) = (certain c, after c) := by
  by_cases narrow : c.toNat < 0x100
  · exact (of_narrow c narrow).2.1
  · have wide := Nat.le_of_not_lt narrow
    have quote : (c == '"') = false := beq_of_wide wide (by decide)
    have backslash : (c == '\\') = false := beq_of_wide wide (by decide)
    rw [(escape_of_wide wide).1, certain, after_of_wide wide, if_pos rfl, readBytes,
      if_neg (by omega)]
    simp [scan, step, insideStep, quote, backslash]

lemma escape_of_isHexDigit (digit : isHexDigit c) :
    escape c = [c] ∧ readBytes c = [c.toUInt8] ∧ isHigh c.toUInt8 = false := by
  have narrow : c.toNat < 0x80 := by
    simp only [isHexDigit, isAsciiDigit, Bool.or_eq_true, Bool.and_eq_true, decide_eq_true_eq,
      Char.le_def, UInt32.le_iff_toNat_le] at digit
    rcases digit with (⟨-, le⟩ | ⟨-, le⟩) | ⟨-, le⟩ <;> exact lt_of_le_of_lt le (by decide)
  revert digit
  revert narrow c
  exact @forall_char_lt _ _ (by decide +kernel)

lemma escape_cases (c : Char) : escape c = [c] ∨ ∃ ds, escape c = '\\' :: ds := by
  unfold escape
  split
  · exact .inr ⟨_, rfl⟩
  · split
    all_goals first
      | exact .inr ⟨_, rfl⟩
      | split
        · exact .inr ⟨_, rfl⟩
        · exact .inl rfl

lemma exists_escape (c : Char) :
    ∃ d ds, escape c = d :: ds ∧ (continues m c = false → continues m d = false) := by
  rcases escape_cases c with plain | ⟨ds, written⟩
  · exact ⟨c, [], plain, id⟩
  · refine ⟨_, ds, written, fun _ => ?_⟩
    cases m <;> rfl

lemma scan_escape_append (within : m.IsWithin) (ends : continues m c = false) :
    scan false m (escape c ++ rest) =
      (pending m ++ certain c ++ (scan false (after c) rest).1, (scan false (after c) rest).2) := by
  obtain ⟨d, ds, written, start⟩ := exists_escape c
  rw [written, cons_append, scan_of_not_continues within (start ends), ← cons_append,
    ← written, scan_append, scan_escape, append_assoc]

def Separate (m : Mode) : List Char → Prop
  | [] => True
  | c :: cs => continues m c = false ∧ Separate (after c) cs

lemma separate_inside_iff : Separate .inside cs ↔ cs.IsChain fun c d => absorbs c d = false := by
  have chain (m : Mode) (cs : List Char) : Separate m cs ↔
      (∀ c ∈ cs.head?, continues m c = false) ∧ cs.IsChain fun c d => absorbs c d = false := by
    induction cs generalizing m with
    | nil => simp [Separate]
    | cons c cs ih => simp [Separate, ih, isChain_cons, continues_after]
  rw [chain]
  simp [continues]

def read (m : Mode) (cs : List Char) : List UInt8 :=
  (scan false m (cs.flatMap escape ++ ['"'])).1

lemma scan_quote (within : m.IsWithin) : scan false m ['"'] = (pending m, .outside) := by
  have ends : continues m '"' = false := by
    cases m <;> rfl
  rw [scan_of_not_continues within ends]
  simp [scan, step, insideStep]

lemma read_nil (within : m.IsWithin) : read m [] = pending m := by
  simp [read, scan_quote within]

lemma read_cons_of_continues (takes : continues m c) : read m (c :: cs) = read (extend m c) cs := by
  rw [read, flatMap_cons, (escape_of_isHexDigit (isHexDigit_of_continues takes)).1,
    append_assoc, singleton_append, scan_of_continues takes, read]

section

variable (within : m.IsWithin)

include within

lemma read_cons_of_not_continues (ends : continues m c = false) :
    read m (c :: cs) = pending m ++ certain c ++ read (after c) cs := by
  rw [read, flatMap_cons, append_assoc, scan_escape_append within ends, read]

lemma scan_escaped (cs : List Char) :
    scan false m (cs.flatMap escape ++ ['"']) = (read m cs, .outside) := by
  refine Prod.ext rfl ?_
  induction cs generalizing m with
  | nil => simp [scan_quote within]
  | cons c cs ih =>
    rw [flatMap_cons, append_assoc]
    by_cases takes : continues m c
    · rw [(escape_of_isHexDigit (isHexDigit_of_continues takes)).1, singleton_append,
        scan_of_continues takes]
      exact ih (extend_isWithin within)
    · rw [scan_escape_append within (Bool.eq_false_iff.2 takes)]
      exact ih after_isWithin

lemma read_escaped (separate : Separate m cs) : read m cs = pending m ++ cs.flatMap readBytes := by
  induction cs generalizing m with
  | nil => simp [read_nil within]
  | cons c cs ih =>
    obtain ⟨ends, separate⟩ := separate
    rw [read_cons_of_not_continues within ends, ih after_isWithin separate, flatMap_cons,
      ← certain_pending c]
    simp only [append_assoc]

/-- No more is read back than was written, and as much only if all is separate. -/
lemma length_read_le (cs : List Char) :
    (read m cs).length ≤ (pending m).length + (cs.flatMap readBytes).length ∧
      ((read m cs).length = (pending m).length + (cs.flatMap readBytes).length →
        Separate m cs) := by
  induction cs generalizing m with
  | nil => simp [read_nil within, Separate]
  | cons c cs ih =>
    rw [flatMap_cons, length_append]
    by_cases takes : continues m c
    · have one := (escape_of_isHexDigit (isHexDigit_of_continues takes)).2.1
      have shorter := (ih (extend_isWithin (c := c) within)).1
      rw [length_pending_extend] at shorter
      rw [read_cons_of_continues takes, one, length_singleton]
      constructor <;> omega
    · have ends := Bool.eq_false_iff.2 takes
      obtain ⟨shorter, separate⟩ := ih (after_isWithin)
      have whole := congrArg length (certain_pending c)
      rw [length_append] at whole
      rw [read_cons_of_not_continues within ends, length_append, length_append]
      exact ⟨by omega, fun same => ⟨ends, separate (by omega)⟩⟩

end

lemma highs_pending (c : Char) : (pending (after c)).countP isHigh = 0 := by
  by_cases narrow : c.toNat < 0x100
  · exact (of_narrow c narrow).2.2
  · rw [after_of_wide (Nat.le_of_not_lt narrow)]
    rfl

lemma highs_le_read (within : m.IsWithin) (cs : List Char) :
    (cs.flatMap readBytes).countP isHigh ≤ (read m cs).countP isHigh := by
  induction cs generalizing m with
  | nil => exact Nat.zero_le _
  | cons c cs ih =>
    rw [flatMap_cons, countP_append]
    by_cases takes : continues m c
    · obtain ⟨-, one, low⟩ := escape_of_isHexDigit (isHexDigit_of_continues takes)
      have more := ih (extend_isWithin (c := c) within)
      rw [read_cons_of_continues takes, one, countP_singleton, low]
      simpa using more
    · have more := ih (after_isWithin (c := c))
      have whole := congrArg (countP isHigh) (certain_pending c)
      rw [countP_append, highs_pending] at whole
      rw [read_cons_of_not_continues within (Bool.eq_false_iff.2 takes), countP_append,
        countP_append]
      omega

lemma length_readBytes (c : Char) : (readBytes c).length ≤ (String.utf8EncodeChar c).length ∧
      ((readBytes c).length = (String.utf8EncodeChar c).length → c.toNat ≠ 0xff) := by
  by_cases wrong : c.toNat = 0xff
  · have two : (String.utf8EncodeChar c).length = 2 := by
      rw [← Char.ofNat_toNat c, wrong]
      rfl
    simp [readBytes, wrong, two]
  · simp [readBytes, wrong]

lemma length_flatMap_readBytes (cs : List Char) :
    (cs.flatMap readBytes).length ≤ (cs.flatMap String.utf8EncodeChar).length ∧
      ((cs.flatMap readBytes).length = (cs.flatMap String.utf8EncodeChar).length →
        ∀ c ∈ cs, c.toNat ≠ 0xff) := by
  induction cs with
  | nil => simp
  | cons c cs ih =>
    obtain ⟨le, same⟩ := length_readBytes c
    obtain ⟨les, sames⟩ := ih
    simp only [flatMap_cons, length_append, forall_mem_cons]
    exact ⟨by omega, fun all => ⟨same (by omega), sames (by omega)⟩⟩

lemma read_utf8_iff (cs : List Char) : read .inside cs = cs.flatMap String.utf8EncodeChar ↔
      Separate .inside cs ∧ ∀ c ∈ cs, c.toNat ≠ 0xff := by
  constructor
  · intro same
    obtain ⟨shorter, separate⟩ := length_read_le (m := .inside) trivial cs
    obtain ⟨le, right⟩ := length_flatMap_readBytes cs
    have same := congrArg length same
    simp only [pending, length_nil, Nat.zero_add] at shorter separate
    exact ⟨separate (by omega), right (by omega)⟩
  · rintro ⟨separate, right⟩
    rw [read_escaped (m := .inside) trivial separate]
    apply flatMap_congr
    intro c mem
    rw [readBytes, if_neg (right c mem)]

lemma utf8EncodeChar_last (nonzero : c.toNat ≠ 0) :
    ∃ front b, String.utf8EncodeChar c = front ++ [b] ∧ b ≠ 0 := by
  have last {n : Nat} (pos : 0 < n) (lt : n < 256) : UInt8.ofNat n ≠ 0 := by
    intro zero
    have zero := congrArg UInt8.toNat zero
    exact absurd zero (by simp; omega)
  have pos : 0 < c.val.toNat := Nat.pos_of_ne_zero nonzero
  simp only [String.utf8EncodeChar]
  split
  · exact ⟨[], _, rfl, last pos (by omega)⟩
  · split
    · exact ⟨[_], _, rfl, last (by omega) (by omega)⟩
    · split
      · exact ⟨[_, _], _, rfl, last (by omega) (by omega)⟩
      · exact ⟨[_, _, _], _, rfl, last (by omega) (by omega)⟩

lemma rdropWhile_utf8 (cs : List Char) : (cs.flatMap String.utf8EncodeChar).rdropWhile (· == 0) =
      (cs.rdropWhile (·.toNat == 0)).flatMap String.utf8EncodeChar := by
  induction cs using reverseRecOn with
  | nil => rfl
  | append_singleton cs c ih =>
    rw [flatMap_append, flatMap_singleton]
    by_cases zero : c.toNat = 0
    · have one : String.utf8EncodeChar c = [0] := by
        rw [← Char.ofNat_toNat c, zero]
        rfl
      rw [one, rdropWhile_concat_pos _ _ _ rfl, ih,
        rdropWhile_concat_pos _ _ _ (by simpa using zero)]
    · obtain ⟨front, b, encoded, other⟩ := utf8EncodeChar_last zero
      rw [rdropWhile_concat_neg _ _ _ (by simpa using zero), flatMap_append,
        flatMap_singleton, encoded, ← append_assoc,
        rdropWhile_concat_neg _ _ _ (by simpa using other)]

lemma utf8_decodeBytes (valid : String.fromUTF8? ⟨bs.toArray⟩ = some s) :
    s.toList.flatMap String.utf8EncodeChar = bs := by
  rw [String.fromUTF8?] at valid
  split at valid
  · obtain rfl := Option.some.inj valid
    have whole := String.utf8Encode_toList (b := String.fromUTF8 ⟨bs.toArray⟩ ‹_›)
    have whole := congrArg ByteArray.data whole
    rw [utf8Encode, data_toByteArray] at whole
    exact congrArg Array.toList whole
  · cases valid

def latin (b : UInt8) : Char :=
  Char.ofNat b.toNat

lemma toNat_latin (b : UInt8) : (latin b).toNat = b.toNat := by
  revert b
  exact forall_byte (by decide +kernel)

lemma readBytes_latin (b : UInt8) : ((readBytes (latin b)).countP isHigh = 2 ∧ isHigh b) ∨
      (readBytes (latin b) = [b] ∧ isHigh b = false) := by
  revert b
  exact forall_byte (by decide +kernel)

lemma highs_latin (bs : List UInt8) :
    ((bs.map latin).flatMap readBytes).countP isHigh = 2 * bs.countP isHigh := by
  induction bs with
  | nil => rfl
  | cons b bs ih =>
    rw [map_cons, flatMap_cons, countP_append, ih, countP_cons]
    rcases readBytes_latin b with ⟨two, high⟩ | ⟨one, low⟩
    · rw [if_pos high]
      omega
    · rw [one, countP_singleton, low]
      simp

lemma flatMap_readBytes_latin (low : ∀ b ∈ bs, isHigh b = false) :
    (bs.map latin).flatMap readBytes = bs := by
  induction bs with
  | nil => rfl
  | cons b bs ih =>
    obtain ⟨here, low⟩ := forall_mem_cons.1 low
    rcases readBytes_latin b with ⟨-, high⟩ | ⟨one, -⟩
    · rw [here] at high
      cases high
    · rw [map_cons, flatMap_cons, ih low, one, singleton_append]

lemma read_latin_iff (bs : List UInt8) : read .inside (bs.map latin) = bs ↔
      Separate .inside (bs.map latin) ∧ ∀ b ∈ bs, isHigh b = false := by
  constructor
  · intro same
    have highs := highs_le_read (m := .inside) trivial (bs.map latin)
    rw [same, highs_latin] at highs
    have low : ∀ b ∈ bs, isHigh b = false := by
      intro b mem
      have none := countP_eq_zero.1 (show bs.countP isHigh = 0 by omega) b mem
      exact Bool.eq_false_iff.2 none
    have separate := (length_read_le (m := .inside) trivial (bs.map latin)).2
    rw [same, flatMap_readBytes_latin low] at separate
    exact ⟨separate (by simp [pending]), low⟩
  · rintro ⟨separate, low⟩
    rw [read_escaped (m := .inside) trivial separate, pending_inside, nil_append,
      flatMap_readBytes_latin low]

lemma isHigh_eq_false_iff (b : UInt8) :
    isHigh b = false ↔ (latin b).toNat < 0x80 ∨ (latin b).toNat = 0xff := by
  rw [toNat_latin, isHigh]
  simp [UInt8.le_iff_toNat_le, ← UInt8.toNat_inj]
  omega

lemma rdropWhile_latin (bs : List UInt8) :
    (bs.map latin).rdropWhile (·.toNat == 0) = (bs.rdropWhile (· == 0)).map latin := by
  have zero : ((·.toNat == 0) ∘ latin) = (· == 0) := by
    funext b
    simp [toNat_latin, ← UInt8.toNat_inj]
  rw [rdropWhile, ← map_reverse, dropWhile_map, ← map_reverse, zero]
  rfl

def literalText (bytes : List UInt8) : List Char :=
  (decodeBytes bytes).rdropWhile (·.toNat == 0)

structure Legible (bytes : List UInt8) : Prop where
  separate : (literalText bytes).IsChain fun c d => absorbs c d = false
  encoded : ∀ c ∈ literalText bytes,
    if (String.fromUTF8? ⟨bytes.toArray⟩).isSome then c.toNat ≠ 0xff
    else c.toNat < 0x80 ∨ c.toNat = 0xff

lemma bytes_stringLiteral (bytes : List UInt8) :
    Ascii.bytes (stringLiteral bytes).toList false = .ok (read .inside (literalText bytes)) := by
  obtain ⟨mark, unquoted, written⟩ : ∃ mark : List Char, scan false .outside mark = ([], .outside) ∧
      (stringLiteral bytes).toList =
        '"' :: ((literalText bytes).flatMap escape ++ ['"'] ++ mark) := by
    rw [stringLiteral]
    split
    · exact ⟨[], rfl, by simp [literalText, rdropWhile]⟩
    · exact ⟨" /* not null-terminated */".toList, by decide,
        by simp [literalText, rdropWhile]⟩
  have whole : scan false .outside (stringLiteral bytes).toList =
      (read .inside (literalText bytes), .outside) := by
    rw [written]
    change ([] ++ (scan false .inside _).1, (scan false .inside _).2) = _
    rw [scan_append, scan_escaped (m := .inside) trivial, unquoted, append_nil, nil_append]
  have quoted : (stringLiteral bytes).toList.contains '"' := by
    rw [written, contains_cons, BEq.rfl, Bool.true_or]
  rw [Ascii.bytes, whole]
  simp only [quoted, if_true]
  rfl

lemma read_literalText_iff (bytes : List UInt8) :
    read .inside (literalText bytes) = bytes.rdropWhile (· == 0) ↔ Legible bytes := by
  have parts : Legible bytes ↔ Separate .inside (literalText bytes) ∧ ∀ c ∈ literalText bytes,
      if (String.fromUTF8? ⟨bytes.toArray⟩).isSome then c.toNat ≠ 0xff
      else c.toNat < 0x80 ∨ c.toNat = 0xff :=
    ⟨fun h => ⟨separate_inside_iff.2 h.separate, h.encoded⟩,
      fun h => ⟨separate_inside_iff.1 h.1, h.2⟩⟩
  rw [parts]
  rcases decoded : String.fromUTF8? ⟨bytes.toArray⟩ with _ | s
  · have text : literalText bytes = (bytes.rdropWhile (· == 0)).map latin := by
      rw [literalText, decodeBytes, decoded]
      exact rdropWhile_latin bytes
    rw [text]
    simpa [isHigh_eq_false_iff] using read_latin_iff (bytes.rdropWhile (· == 0))
  · have text : bytes.rdropWhile (· == 0) = (literalText bytes).flatMap String.utf8EncodeChar := by
      rw [literalText, decodeBytes, decoded, ← rdropWhile_utf8, utf8_decodeBytes decoded]
    rw [text]
    simpa using read_utf8_iff (literalText bytes)

/-- A string literal is always read as some bytes. They are the bytes of the string without the zero
bytes at its end exactly if the string is legible. -/
theorem stringLiteral_read_iff (bytes : List UInt8) :
    ∃ bs, Ascii.bytes (stringLiteral bytes).toList false = .ok bs ∧
      (bs = bytes.rdropWhile (· == 0) ↔ Legible bytes) :=
  ⟨_, bytes_stringLiteral bytes, read_literalText_iff bytes⟩

/-- A digit is taken for a part of the escape before it, so the two bytes of a string with a zero at
its end are read as one. The character with the code of the last byte is read as that byte, and a
high byte that is not in UTF-8 as two. -/
theorem stringLiteral_read_other :
    Ascii.bytes (stringLiteral [0, 0x31, 0]).toList false = .ok [1] ∧
      [0, 0x31, 0].rdropWhile (· == (0 : UInt8)) = [0, 0x31] ∧
      Ascii.bytes (stringLiteral [1, 0x61, 0]).toList false = .ok [0x1a] ∧
      Ascii.bytes (stringLiteral [0xc3, 0xbf, 0]).toList false = .ok [0xff] ∧
      Ascii.bytes (stringLiteral [0xe9, 0]).toList false = .ok [0xc3, 0xa9] := by
  decide +kernel

end Decompiler.Text
