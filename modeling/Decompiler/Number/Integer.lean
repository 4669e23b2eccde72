import Decompiler.Text.Blank
import Decompiler.Text.Digit

/-!
# Integers

Bitwise operators on unbounded two's complement integers, the numerals that denote integers, and
the reduction of an integer to a machine field.
-/

namespace Decompiler.Integer

def land : Int → Int → Int
  | .ofNat m, .ofNat n => .ofNat (m &&& n)
  | .ofNat m, .negSucc n => .ofNat (m ^^^ (m &&& n))
  | .negSucc m, .ofNat n => .ofNat (n ^^^ (n &&& m))
  | .negSucc m, .negSucc n => .negSucc (m ||| n)

def lnot (n : Int) : Int :=
  -n - 1

def lor (m n : Int) : Int :=
  lnot (land (lnot m) (lnot n))

def lxor (m n : Int) : Int :=
  land (lor m n) (lnot (land m n))

def shiftLeft (n : Int) (k : Nat) : Int :=
  n * Nat.pow 2 k

def signed16 (n : Int) : Int :=
  (n + 0x8000) % 0x10000 - 0x8000

def unsigned16 (n : Int) : Int :=
  n % 0x10000

def unsigned32 (n : Int) : Int :=
  n % 0x100000000

def hexNat (n : Nat) : String :=
  String.ofList (Nat.toDigits 16 n)

def hex (n : Int) : String :=
  (if n < 0 then "-0x" else "0x") ++ hexNat n.natAbs

/-- An upper-case hexadecimal numeral without a base mark: `1F`, `-1F`. -/
def upperHex (n : Int) : String :=
  (if n < 0 then "-" else "") ++ (hexNat n.natAbs).map Char.toUpper

/-- A hexadecimal numeral with upper-case digits and a lower-case base mark: `0x1F`, `-0x1F`. -/
def markedHex (n : Int) : String :=
  (if n < 0 then "-0x" else "0x") ++ (hexNat n.natAbs).map Char.toUpper

/-- The digits of a numeral in base `b`, where one underscore may stand between two digits.
`fresh` says that no digit has been read since the last underscore. -/
def digitsValue? (b : Nat) : (fresh : Bool) → (acc : Nat) → List Char → Option Nat
  | fresh, acc, [] => if fresh then none else some acc
  | fresh, acc, c :: cs =>
    if c == '_' then
      if fresh then none else digitsValue? b true acc cs
    else
      match Text.letterDigit? c with
      | some d => if d < b then digitsValue? b false (acc * b + d) cs else none
      | none => none

/-- The value of an unsigned numeral whose base is given by its mark `0x`, `0o` or `0b`. Without
a mark the base is ten, and a numeral that starts with zero denotes zero. -/
def markedValue? : List Char → Option Nat
  | '0' :: m :: cs =>
    let rest := match cs with
      | '_' :: ds => ds
      | ds => ds
    if m == 'x' || m == 'X' then digitsValue? 16 true 0 rest
    else if m == 'o' || m == 'O' then digitsValue? 8 true 0 rest
    else if m == 'b' || m == 'B' then digitsValue? 2 true 0 rest
    else
      match digitsValue? 10 true 0 ('0' :: m :: cs) with
      | some 0 => some 0
      | _ => none
  | cs => digitsValue? 10 true 0 cs

def signed? (value? : List Char → Option Nat) : List Char → Option Int
  | '-' :: cs => (value? cs).map fun n => -(n : Int)
  | '+' :: cs => (value? cs).map fun n => (n : Int)
  | cs => (value? cs).map fun n => (n : Int)

/-- The integer that a numeral denotes, with the base taken from its mark. -/
def read? (cs : List Char) : Option Int :=
  signed? markedValue? (Text.toAscii (Text.trim cs))

def readDecimal? (cs : List Char) : Option Int :=
  signed? (digitsValue? 10 true 0) (Text.toAscii (Text.trim cs))

end Decompiler.Integer
