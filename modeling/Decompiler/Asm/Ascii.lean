import Decompiler.Failure
import Decompiler.Text.Digit

/-!
# String directives

The bytes that a string directive stands for: those of all its string literals in order, each
followed by a zero byte if the directive asks for one. A literal may hold escapes: a letter for a
control character, `x` with any number of hexadecimal digits, or up to three decimal digits read
in base eight.
-/

namespace Decompiler.Asm.Ascii

inductive Mode where
  | outside
  | inside
  | escape
  | hex (value : Nat)
  | octal (value room : Nat)
  deriving DecidableEq

def insideStep (terminated : Bool) (c : Char) : List UInt8 × Mode :=
  if c == '"' then (if terminated then [0] else [], .outside)
  else if c == '\\' then ([], .escape)
  else (String.utf8EncodeChar c, .inside)

def escapeStep (c : Char) : List UInt8 × Mode :=
  if c == 'b' then ([8], .inside)
  else if c == 'f' then ([12], .inside)
  else if c == 'n' then ([10], .inside)
  else if c == 'r' then ([13], .inside)
  else if c == 't' then ([9], .inside)
  else if c == 'v' then ([11], .inside)
  else if c == 'x' then ([], .hex 0)
  else if Text.isAsciiDigit c then ([], .octal (c.toNat - 48) 2)
  else (String.utf8EncodeChar c, .inside)

def step (terminated : Bool) (mode : Mode) (c : Char) : List UInt8 × Mode :=
  let resume (value : Nat) : List UInt8 × Mode :=
    let (bytes, next) := insideStep terminated c
    (value.toUInt8 :: bytes, next)
  match mode with
  | .outside => ([], if c == '"' then .inside else .outside)
  | .inside => insideStep terminated c
  | .escape => escapeStep c
  | .hex value =>
    if Text.isHexDigit c then ([], .hex (value * 16 + (Text.letterDigit? c).getD 0))
    else resume value
  | .octal value room =>
    if Text.isAsciiDigit c && room != 0 then ([], .octal (value * 8 + (c.toNat - 48)) (room - 1))
    else resume value

def scan (terminated : Bool) : Mode → List Char → List UInt8 × Mode
  | mode, [] => ([], mode)
  | mode, c :: cs =>
    let (bytes, next) := step terminated mode c
    let (rest, last) := scan terminated next cs
    (bytes ++ rest, last)

def bytes (line : List Char) (terminated : Bool) : Except Failure (List UInt8) :=
  match scan terminated .outside line with
  | (bs, .outside) =>
    if line.contains '"' then pure bs else reject (.missingString (String.ofList line))
  | (_, .escape) => reject (.trailingBackslash (String.ofList line))
  | _ => reject (.unterminatedString (String.ofList line))

end Decompiler.Asm.Ascii
