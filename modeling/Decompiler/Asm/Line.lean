import Decompiler.Text.Blank
import Decompiler.Text.Digit

/-!
# Lines of assembly

The cleaning of a source line: comments become a space and runs of blanks collapse, both outside
string literals only. What remains starts with labels, each ended by a colon.
-/

namespace Decompiler.Asm.Line

/-- The rest of a string literal behind its opening quote, up to and with the closing quote, and
what follows. A backslash protects the next character, which must be on the same line. -/
def quoted? : List Char → Option (List Char × List Char)
  | [] => none
  | '"' :: cs => some (['"'], cs)
  | '\\' :: '\n' :: _ => none
  | '\\' :: c :: cs => (quoted? cs).map fun (q, rest) => ('\\' :: c :: q, rest)
  | ['\\'] => none
  | c :: cs => (quoted? cs).map fun (q, rest) => (c :: q, rest)

/-- What follows a string literal is shorter than the text it starts in. -/
theorem quoted?_length {cs q rest : List Char} (h : quoted? cs = some (q, rest)) :
    rest.length < cs.length := by
  fun_induction quoted? cs generalizing q rest with
  | case1 => simp at h
  | case2 => simp_all
  | case3 => simp at h
  | case4 c cs _ ih =>
    obtain ⟨⟨q', r'⟩, h', he⟩ := Option.map_eq_some_iff.1 h
    have := ih h'
    simp only [Prod.mk.injEq] at he
    simp only [List.length_cons, ← he.2]
    omega
  | case5 => simp at h
  | case6 c cs _ _ _ _ ih =>
    obtain ⟨⟨q', r'⟩, h', he⟩ := Option.map_eq_some_iff.1 h
    have := ih h'
    simp only [Prod.mk.injEq] at he
    simp only [List.length_cons, ← he.2]
    omega

def afterComment? : List Char → Option (List Char)
  | [] => none
  | '*' :: '/' :: rest => some rest
  | '\n' :: _ => none
  | _ :: cs => afterComment? cs

/-- What follows a comment is shorter than the text it starts in. -/
theorem afterComment?_length {cs rest : List Char} (h : afterComment? cs = some rest) :
    rest.length < cs.length := by
  fun_induction afterComment? cs with
  | case1 => simp at h
  | case2 => cases h; simp only [List.length_cons]; omega
  | case3 => simp at h
  | case4 _ _ _ _ ih => have := ih h; simp only [List.length_cons]; omega

theorem length_dropWhile_le (p : Char → Bool) (cs : List Char) :
    (cs.dropWhile p).length ≤ cs.length :=
  (List.dropWhile_suffix p).length_le

/-- A line in which each comment is a space. Comments run from a hash sign to the end of the line
or stand between `/*` and `*/`. -/
def stripComments : List Char → List Char
  | [] => []
  | '#' :: cs =>
    have := length_dropWhile_le (· != '\n') cs
    ' ' :: stripComments (cs.dropWhile (· != '\n'))
  | '/' :: '*' :: cs =>
    match h : afterComment? cs with
    | some rest =>
      have := afterComment?_length h
      ' ' :: stripComments rest
    | none => '/' :: stripComments ('*' :: cs)
  | '"' :: cs =>
    match h : quoted? cs with
    | some (q, rest) =>
      have := quoted?_length h
      '"' :: q ++ stripComments rest
    | none => '"' :: stripComments cs
  | c :: cs => c :: stripComments cs
termination_by cs => cs.length

/-- A line in which each run of blanks that starts with a space or a tab is one space. -/
def collapseBlanks : List Char → List Char
  | [] => []
  | '"' :: cs =>
    match h : quoted? cs with
    | some (q, rest) =>
      have := quoted?_length h
      '"' :: q ++ collapseBlanks rest
    | none => '"' :: collapseBlanks cs
  | c :: cs =>
    if Text.isBlank c then
      have := length_dropWhile_le Text.isBlank cs
      let run := if c == ' ' || c == '\t' then [' '] else c :: cs.takeWhile Text.isBlank
      run ++ collapseBlanks (cs.dropWhile Text.isBlank)
    else c :: collapseBlanks cs
termination_by cs => cs.length

def clean (line : List Char) : List Char :=
  Text.trim (collapseBlanks (stripComments line))

def isLabelChar (c : Char) : Bool :=
  Text.isWordChar c || c == '.'

def label? (line : List Char) : Option (String × List Char) :=
  let name := line.takeWhile isLabelChar
  match line.dropWhile isLabelChar with
  | ':' :: rest => if name.isEmpty then none else some (String.ofList name, Text.trim rest)
  | _ => none

/-- A trimmed text is not longer. -/
theorem length_trim_le (cs : List Char) : (Text.trim cs).length ≤ cs.length := by
  have h₁ := length_dropWhile_le Text.isBlank cs
  have h₂ := length_dropWhile_le Text.isBlank (cs.dropWhile Text.isBlank).reverse
  simp only [Text.trim, Text.dropEndWhile, List.length_reverse] at *
  omega

theorem label?_length {line rest : List Char} {name : String}
    (h : label? line = some (name, rest)) : rest.length < line.length := by
  have hd := length_dropWhile_le isLabelChar line
  simp only [label?] at h
  split at h
  · rename_i cs hc
    split at h
    · simp at h
    · simp only [Option.some.injEq, Prod.mk.injEq] at h
      have := length_trim_le cs
      rw [hc, List.length_cons] at hd
      rw [← h.2]
      omega
  · simp at h

def labels (line : List Char) : List String × List Char :=
  match h : label? line with
  | some (name, rest) =>
    have := label?_length h
    let (names, rest) := labels rest
    (name :: names, rest)
  | none => ([], line)
termination_by line.length

end Decompiler.Asm.Line
