import Decompiler.Number.Decimal

/-!
# Floating-point literals

The decimal literals under which single and double precision constants appear in C code. A single
precision constant is written with as few digits as still read back, first as a double and then
rounded to single precision.
-/

namespace Decompiler.Number

def narrow (bits : Nat) : Nat :=
  match decode double bits with
  | .notANumber negative => (if negative then single.signBit else 0) + single.quiet
  | .infinite negative => (if negative then single.signBit else 0) + single.infinity
  | .finite negative m e =>
    let (num, den) := fraction m e
    encode single negative num den

def widen (bits : Nat) : Nat :=
  match decode single bits with
  | .notANumber negative => (if negative then double.signBit else 0) + double.quiet
  | .infinite negative => (if negative then double.signBit else 0) + double.infinity
  | .finite negative m e =>
    let (num, den) := fraction m e
    encode double negative num den

inductive LiteralStyle where
  | scientific
  | fixed
  | general

/-- How a positive number is written: scientific if its decimal logarithm is more than 6.9 away
from zero, and otherwise fixed below one and general from one on. -/
def literalStyle (num den : Nat) : LiteralStyle :=
  let n := Nat.pow num 10
  let d := Nat.pow den 10
  if d * Nat.pow 10 69 < n || n * Nat.pow 10 69 < d then .scientific
  else if num < den then .fixed
  else .general

/-- A positive number with `places` digits or decimals; where general notation would need an
exponent, a numeral of another number stands in, so that it is not chosen. -/
def literalDigits (style : LiteralStyle) (places num den : Nat) : List Char :=
  match style with
  | .scientific =>
    let (ds, x) := scientific places num den
    ds ++ 'e' :: (if x < 0 then ['-'] else []) ++ digits x.natAbs
  | .fixed => fixed places num den
  | .general => (general? places num den).getD ['0']

/-- The fewest places, counted down from nineteen, at which every larger count reads back as the
single precision pattern; `none` if nineteen do not. -/
def fewestPlaces? (reads : Nat → Bool) : Option Nat :=
  if reads 19 then some (19 - (List.range 19).findIdx (fun i => !reads (18 - i))) else none

/-- The literal of a single precision constant, given by its low thirty-two bits. -/
def singleLiteral (n : Int) : String :=
  let bits := (n % 0x100000000).toNat
  let withDecimals (cs : List Char) : List Char := if cs.contains '.' then cs else cs ++ ['.', '0']
  String.ofList <|
    match decode single bits with
    | .notANumber _ => if bits == single.quiet then "nan.0".toList else "nan".toList
    | .infinite negative => (if negative then "-inf.0" else "inf.0").toList
    | .finite negative m e =>
      let (num, den) := fraction m e
      let sign := if negative then ['-'] else []
      if m == 0 || (num == 4294967296 * den && !negative) then doubleText (widen bits)
      else
        let style := literalStyle num den
        let reads (places : Nat) : Bool :=
          match numeral? (sign ++ literalDigits style places num den) with
          | some numeral => narrow numeral.toDouble == bits
          | none => false
        match fewestPlaces? reads with
        | some places => withDecimals (sign ++ literalDigits style places num den)
        | none => doubleText (widen bits)

def doubleLiteral (n : Int) : String :=
  String.ofList (doubleText (n % 0x10000000000000000).toNat)

end Decompiler.Number
