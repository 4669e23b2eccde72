import Decompiler.Text.Digit

/-!
# Lexemes of C

For each class of lexemes, how many characters at the start of a text belong to it.
-/

namespace Decompiler.C.Lexeme

def run (p : Char → Bool) (cs : List Char) : Nat :=
  (cs.takeWhile p).length

/-- A lexeme with at least one character that satisfies `p`. -/
def run? (p : Char → Bool) (cs : List Char) : Option Nat :=
  match run p cs with
  | 0 => none
  | n => some n

def isNameStart (c : Char) : Bool :=
  ('a' ≤ c && c ≤ 'z') || ('A' ≤ c && c ≤ 'Z') || c == '_' || c == '$'

def identifier? : List Char → Option Nat
  | c :: cs =>
    if isNameStart c then some (1 + run (fun c => isNameStart c || Text.isAsciiDigit c) cs)
    else none
  | [] => none

def integerSuffixes : List (List Char) :=
  ["ull", "Ull", "uLL", "ULL", "llu", "llU", "ll", "LLu", "LLU", "LL", "ul", "uL", "Ul", "UL",
   "lu", "lU", "Lu", "LU", "l", "L", "u", "U"].map String.toList

def integerSuffix (cs : List Char) : Nat :=
  match integerSuffixes.find? fun s => s.isPrefixOf cs with
  | some s => s.length
  | none => 0

def withSuffix (cs : List Char) (n : Nat) : Nat :=
  n + integerSuffix (cs.drop n)

def exponent? (letters : List Char) : List Char → Option Nat
  | c :: cs =>
    if letters.contains c then
      let sign := match cs with
        | '+' :: _ => 1
        | '-' :: _ => 1
        | _ => 0
      (run? Text.isAsciiDigit (cs.drop sign)).map (· + 1 + sign)
    else none
  | [] => none

def withFloatLetter (cs : List Char) (n : Nat) : Nat :=
  match cs.drop n with
  | c :: _ => if ['F', 'f', 'L', 'l'].contains c then n + 1 else n
  | [] => n

def pointed? (isDigit : Char → Bool) (cs : List Char) : Option Nat :=
  let before := run isDigit cs
  match cs.drop before with
  | '.' :: rest =>
    match run isDigit rest with
    | 0 => if before == 0 then none else some (before + 1)
    | after => some (before + 1 + after)
  | _ => none

def floating? (cs : List Char) : Option Nat :=
  match pointed? Text.isAsciiDigit cs with
  | some n =>
    let e := (exponent? ['e', 'E'] (cs.drop n)).getD 0
    some (withFloatLetter cs (n + e))
  | none =>
    match run? Text.isAsciiDigit cs with
    | none => none
    | some n => (exponent? ['e', 'E'] (cs.drop n)).map fun e => withFloatLetter cs (n + e)

def hexFloating? : List Char → Option Nat
  | '0' :: x :: cs =>
    if x == 'x' || x == 'X' then
      let digits? := match pointed? Text.isHexDigit cs with
        | some n => some n
        | none => run? Text.isHexDigit cs
      match digits? with
      | none => none
      | some n =>
        (exponent? ['p', 'P'] (cs.drop n)).map fun e => 2 + withFloatLetter cs (n + e)
    else none
  | _ => none

def marked? (lower upper : Char) (isDigit : Char → Bool) (cs : List Char) : Option Nat :=
  match cs with
  | '0' :: m :: rest =>
    if m == lower || m == upper then (run? isDigit rest).map fun n => withSuffix cs (2 + n)
    else none
  | _ => none

def isOctalDigit (c : Char) : Bool :=
  '0' ≤ c && c ≤ '7'

def badOctal? (cs : List Char) : Option Nat :=
  match cs with
  | '0' :: rest =>
    let n := run isOctalDigit rest
    match rest.drop n with
    | '8' :: _ => some (n + 2)
    | '9' :: _ => some (n + 2)
    | _ => none
  | _ => none

def octal? (cs : List Char) : Option Nat :=
  match cs with
  | '0' :: rest => some (withSuffix cs (1 + run isOctalDigit rest))
  | _ => none

def decimal? (cs : List Char) : Option Nat :=
  match cs with
  | c :: _ =>
    if '1' ≤ c && c ≤ '9' then some (withSuffix cs (run Text.isAsciiDigit cs)) else none
  | [] => none

def isSimpleEscape (c : Char) : Bool :=
  ('a' ≤ c && c ≤ 'z' && c != 'x') || ('A' ≤ c && c ≤ 'Z') ||
    ['.', '_', '~', '!', '=', '&', '^', '-', '\\', '?', '\'', '"'].contains c

def charUnit? : List Char → Option Nat
  | '\\' :: 'x' :: cs => some (2 + run Text.isHexDigit cs)
  | '\\' :: c :: cs =>
    let isDigit (c : Char) : Bool := (Text.digitValue? c).isSome
    if isSimpleEscape c then some 2
    else if isDigit c then some (2 + run isDigit cs)
    else none
  | c :: _ => if c == '\'' || c == '\\' || c == '\n' then none else some 1
  | [] => none

/-- The characters of a character constant at the start of a text: how many there are, and the
length of their text. The first argument bounds their number. -/
def charUnits : Nat → List Char → Nat × Nat
  | 0, _ => (0, 0)
  | bound + 1, cs =>
    match charUnit? cs with
    | none => (0, 0)
    | some n =>
      let (count, length) := charUnits bound (cs.drop n)
      (count + 1, n + length)

def charConstant? (lo hi : Nat) : List Char → Option Nat
  | '\'' :: cs =>
    let (count, length) := charUnits cs.length cs
    if lo ≤ count && count ≤ hi && (cs.drop length).head? == some '\'' then some (length + 2)
    else none
  | _ => none

def unmatchedQuote? : List Char → Option Nat
  | '\'' :: cs =>
    let (_, length) := charUnits cs.length cs
    match cs.drop length with
    | [] => some (length + 1)
    | '\n' :: _ => some (length + 2)
    | _ => none
  | _ => none

def isBadEscape (c : Char) : Bool :=
  !(isSimpleEscape c || c == 'x' || Text.isAsciiDigit c)

def upToQuote? (cs : List Char) : Option Nat :=
  let n := run (fun c => c != '\'' && c != '\n') cs
  if (cs.drop n).head? == some '\'' then some n else none

def badChar? : List Char → Option Nat
  | '\'' :: cs =>
    let long? := match charUnit? cs with
      | none => none
      | some n =>
        match upToQuote? (cs.drop n) with
        | some (m + 1) => some (n + m + 3)
        | _ => none
    match long?, cs with
    | some n, _ => some n
    | none, '\'' :: _ => some 2
    | none, '\\' :: c :: rest =>
      if isBadEscape c then (upToQuote? rest).map (· + 4) else none
    | none, _ => none
  | _ => none

def stringUnits : List Char → Nat
  | '\\' :: c :: cs =>
    if isSimpleEscape c || c == 'x' || Text.isAsciiDigit c then 2 + stringUnits cs else 0
  | c :: cs => if c == '"' || c == '\\' || c == '\n' then 0 else 1 + stringUnits cs
  | [] => 0

def string? : List Char → Option Nat
  | '"' :: cs =>
    let n := stringUnits cs
    if (cs.drop n).head? == some '"' then some (n + 2) else none
  | _ => none

def badString? : List Char → Option Nat
  | '"' :: cs =>
    let n := stringUnits cs
    match cs.drop n with
    | '\\' :: c :: rest =>
      if isBadEscape c then
        let m := stringUnits rest
        if (rest.drop m).head? == some '"' then some (n + m + 4) else none
      else none
    | _ => none
  | _ => none

def wide? (lexeme? : List Char → Option Nat) : List Char → Option Nat
  | 'L' :: cs => (lexeme? cs).map (· + 1)
  | _ => none

def operators : List (List Char) :=
  ["...", "<<=", ">>=", "||", "++", "*=", "+=", "|=", "^=", "/=", "%=", "-=", "&=", "&&", "--",
   "->", "<<", ">>", "<=", ">=", "==", "!=", "+", "*", "|", "^", "?", "(", ")", "[", "]", ".",
   "-", "/", "%", "&", "~", "!", "<", ">", "=", ",", ";", ":"].map String.toList

def operator? (cs : List Char) : Option Nat :=
  (operators.find? fun s => s.isPrefixOf cs).map List.length

end Decompiler.C.Lexeme
