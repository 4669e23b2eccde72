/-!
# Comments in C

A comment becomes a space, followed by as many line ends as it had, so that the lines keep their
numbers. Literals are left as they are.
-/

namespace Decompiler.C.Comment

/-- A literal behind its opening quote `q`, up to and with the closing one, and what follows. -/
def literal? (q : Char) : List Char → Option (List Char × List Char)
  | [] => none
  | ['\\'] => none
  | '\\' :: c :: cs => (literal? q cs).map fun (l, rest) => ('\\' :: c :: l, rest)
  | c :: cs =>
    if c == q then some ([c], cs) else (literal? q cs).map fun (l, rest) => (c :: l, rest)

/-- What follows a literal is shorter than the text it starts in. -/
theorem literal?_length {q : Char} {cs l rest : List Char} (h : literal? q cs = some (l, rest)) :
    rest.length < cs.length := by
  fun_induction literal? q cs generalizing l rest with
  | case1 => simp at h
  | case2 => simp at h
  | case3 c cs ih =>
    obtain ⟨⟨l', r'⟩, h', he⟩ := Option.map_eq_some_iff.1 h
    have := ih h'
    simp only [Prod.mk.injEq] at he
    simp only [List.length_cons, ← he.2]
    omega
  | case4 c cs _ _ hc => simp_all
  | case5 c cs _ _ hc ih =>
    obtain ⟨⟨l', r'⟩, h', he⟩ := Option.map_eq_some_iff.1 h
    have := ih h'
    simp only [Prod.mk.injEq] at he
    simp only [List.length_cons, ← he.2]
    omega

/-- The line ends in a comment behind its opening, and what follows its end. -/
def block? : List Char → Option (List Char × List Char)
  | [] => none
  | '*' :: '/' :: rest => some ([], rest)
  | '\n' :: cs => (block? cs).map fun (ls, rest) => ('\n' :: ls, rest)
  | _ :: cs => block? cs

/-- What follows a comment is shorter than the text it starts in. -/
theorem block?_length {cs ls rest : List Char} (h : block? cs = some (ls, rest)) :
    rest.length < cs.length := by
  fun_induction block? cs generalizing ls rest with
  | case1 => simp at h
  | case2 => cases h; simp only [List.length_cons]; omega
  | case3 cs ih =>
    obtain ⟨⟨l', r'⟩, h', he⟩ := Option.map_eq_some_iff.1 h
    have := ih h'
    simp only [Prod.mk.injEq] at he
    simp only [List.length_cons, ← he.2]
    omega
  | case4 _ _ _ _ ih => have := ih h; simp only [List.length_cons]; omega

/-- The text without its comments. -/
def strip : List Char → List Char
  | [] => []
  | '/' :: '/' :: cs =>
    have : (cs.dropWhile (· != '\n')).length ≤ cs.length := (List.dropWhile_suffix _).length_le
    ' ' :: strip (cs.dropWhile (· != '\n'))
  | '/' :: '*' :: cs =>
    match h : block? cs with
    | some (ls, rest) =>
      have := block?_length h
      ' ' :: ls ++ strip rest
    | none => '/' :: strip ('*' :: cs)
  | '\'' :: cs =>
    match h : literal? '\'' cs with
    | some (l, rest) =>
      have := literal?_length h
      '\'' :: l ++ strip rest
    | none => '\'' :: strip cs
  | '"' :: cs =>
    match h : literal? '"' cs with
    | some (l, rest) =>
      have := literal?_length h
      '"' :: l ++ strip rest
    | none => '"' :: strip cs
  | c :: cs => c :: strip cs
termination_by cs => cs.length

end Decompiler.C.Comment
