import Decompiler.Number.Binary
import Decompiler.Text.Blank
import Decompiler.Text.Digit

/-!
# Decimal numerals

Reading a decimal numeral as a double, and writing a positive fraction in fixed, scientific and
general notation with a chosen number of digits, each rounded to nearest with halves to even. The
shortest numeral of a double is the one with the fewest digits that reads back, and of those the
nearest.
-/

namespace Decompiler.Number

def digits (n : Nat) : List Char :=
  Nat.toDigits 10 n

def floorLog10 (num den : Nat) : Int :=
  if den ≤ num then ((digits (num / den)).length : Int) - 1
  else
    let len := (digits (den / num)).length
    if den ≤ num * Nat.pow 10 (len - 1) then -((len : Int) - 1) else -(len : Int)

/-- The fraction `num / den` times a power of ten, rounded to a natural number. -/
def scaled (num den : Nat) (power : Int) : Nat :=
  if 0 ≤ power then roundDiv (num * Nat.pow 10 power.toNat) den
  else roundDiv num (den * Nat.pow 10 (-power).toNat)

/-- The digits of `num / den` to `places` digits after the first one, with the exponent of the
first digit. -/
def leadingDigits (places num den : Nat) : List Char × Int :=
  let x := floorLog10 num den
  let n := scaled num den ((places : Int) - x)
  if n < Nat.pow 10 (places + 1) then (digits n, x) else (digits (n / 10), x + 1)

/-- Digits with a point after the first `whole` of them; no point if none follow. -/
def withPoint (whole : Nat) (ds : List Char) : List Char :=
  if ds.length ≤ whole then ds else ds.take whole ++ '.' :: ds.drop whole

def fixed (places num den : Nat) : List Char :=
  let n := roundDiv (num * Nat.pow 10 places) den
  let ds := digits n
  let ds := List.replicate (places + 1 - ds.length) '0' ++ ds
  withPoint (ds.length - places) ds

/-- The fraction `num / den` in scientific notation with `places` decimals, as the digits and the
exponent. -/
def scientific (places num den : Nat) : List Char × Int :=
  let (ds, x) := leadingDigits places num den
  (withPoint 1 ds, x)

def dropZeros (cs : List Char) : List Char :=
  if cs.contains '.' then
    Text.dropEndWhile (· == '.') (Text.dropEndWhile (· == '0') cs)
  else cs

/-- The fraction `num / den` to `count` significant digits in positional notation without
superfluous zeros, if its exponent allows that notation: at least `-4` and below `count`. -/
def general? (count num den : Nat) : Option (List Char) :=
  let count := max count 1
  let (_, x) := leadingDigits (count - 1) num den
  if -4 ≤ x && x < count then some (dropZeros (fixed ((count : Int) - 1 - x).toNat num den))
  else none

inductive Numeral where
  | decimal (negative : Bool) (digits : Nat) (exponent : Int)
  | infinite (negative : Bool)
  | notANumber (negative : Bool)

/-- The bit pattern of the double nearest to a numeral. Numerals whose first digit stands beyond
the range of the format need no exact arithmetic. -/
def Numeral.toDouble : Numeral → Nat
  | .decimal negative n e =>
    let magnitude := e + (digits n).length
    if n == 0 || magnitude < -400 then encode double negative 0 1
    else if 400 < magnitude then (if negative then double.signBit else 0) + double.infinity
    else if 0 ≤ e then encode double negative (n * Nat.pow 10 e.toNat) 1
    else encode double negative n (Nat.pow 10 (-e).toNat)
  | .infinite negative => (if negative then double.signBit else 0) + double.infinity
  | .notANumber negative => (if negative then double.signBit else 0) + double.quiet

/-- Reads digits with single underscores between them, as they stand; `none` if an underscore is
not between two digits. -/
def digitRun? : (fresh : Bool) → List Char → Option (List Char × List Char)
  | fresh, '_' :: cs =>
    if fresh then none
    else
      match cs with
      | c :: _ => if Text.isAsciiDigit c then digitRun? true cs else none
      | [] => none
  | fresh, c :: cs =>
    if Text.isAsciiDigit c then (digitRun? false cs).map fun (ds, rest) => (c :: ds, rest)
    else if fresh then none else some ([], c :: cs)
  | fresh, [] => if fresh then none else some ([], [])

def runValue (ds : List Char) : Nat :=
  ds.foldl (fun n c => n * 10 + (c.toNat - 48)) 0

def optionalRun? (cs : List Char) : Option (List Char × List Char) :=
  match cs with
  | c :: _ => if Text.isAsciiDigit c then digitRun? true cs else some ([], cs)
  | [] => some ([], [])

def exponent? : List Char → Option Int
  | [] => some 0
  | e :: cs =>
    if e == 'e' || e == 'E' then
      let (negative, cs) := match cs with
        | '-' :: ds => (true, ds)
        | '+' :: ds => (false, ds)
        | ds => (false, ds)
      match digitRun? true cs with
      | some (ds, []) => some (if negative then -(runValue ds : Int) else runValue ds)
      | _ => none
    else none

def unsignedNumeral? (negative : Bool) (cs : List Char) : Option Numeral :=
  let lower := cs.map Char.toLower
  if lower == "inf".toList || lower == "infinity".toList then some (.infinite negative)
  else if lower == "nan".toList then some (.notANumber negative)
  else do
    let (whole, rest) ← optionalRun? cs
    let (part, rest) ← match rest with
      | '.' :: rest => optionalRun? rest
      | rest => some ([], rest)
    if whole.isEmpty && part.isEmpty then none
    else
      let e ← exponent? rest
      some (.decimal negative (runValue (whole ++ part)) (e - part.length))

/-- Reads a numeral: a sign, digits with at most one point, an exponent; or infinity or
not-a-number by name. -/
def numeral? (cs : List Char) : Option Numeral :=
  match Text.toAscii (Text.trim cs) with
  | '-' :: cs => unsignedNumeral? true cs
  | '+' :: cs => unsignedNumeral? false cs
  | cs => unsignedNumeral? false cs

/-- The nearer of the two neighbouring decimals with `count` digits to a positive double that
reads back as its bit pattern, as digits and the exponent of the first digit. -/
def readsBack? (bits num den count : Nat) : Option (List Char × Int) :=
  let x := floorLog10 num den
  let power := (count : Int) - 1 - x
  let (num, den) :=
    if 0 ≤ power then (num * Nat.pow 10 power.toNat, den)
    else (num, den * Nat.pow 10 (-power).toNat)
  let low := num / den
  let nearer := roundDiv num den
  let farther := if nearer == low then low + 1 else low
  let back (n : Nat) : Bool := (Numeral.decimal false n (-power)).toDouble == bits
  let result (n : Nat) := (digits n, if n < Nat.pow 10 count then x else x + 1)
  if back nearer then some (result nearer)
  else if back farther then some (result farther)
  else none

def shortest (bits num den : Nat) : List Char × Int :=
  let found := (List.range 17).findSome? fun i => readsBack? bits num den (i + 1)
  let (ds, x) := found.getD (leadingDigits 16 num den)
  match Text.dropEndWhile (· == '0') ds with
  | [] => (ds, x)
  | ds => (ds, x)

def exponentText (x : Int) : List Char :=
  let ds := digits x.natAbs
  (if x < 0 then '-' else '+') :: List.replicate (2 - ds.length) '0' ++ ds

/-- Digits and the exponent of the first, written positionally from `1e-4` up to below `1e16`,
always with a decimal, and otherwise scientifically. -/
def layOut (ds : List Char) (x : Int) : List Char :=
  if -4 ≤ x && x < 16 then
    if x < 0 then '0' :: '.' :: List.replicate (-x - 1).toNat '0' ++ ds
    else
      let whole := (x + 1).toNat
      if ds.length ≤ whole then ds ++ List.replicate (whole - ds.length) '0' ++ ['.', '0']
      else ds.take whole ++ '.' :: ds.drop whole
  else withPoint 1 ds ++ 'e' :: exponentText x

def doubleText (bits : Nat) : List Char :=
  match decode double bits with
  | .notANumber _ => "nan".toList
  | .infinite negative => (if negative then "-inf" else "inf").toList
  | .finite negative m e =>
    let text :=
      if m == 0 then ['0', '.', '0']
      else
        let (num, den) := fraction m e
        let (ds, x) := shortest (bits % double.signBit) num den
        layOut ds x
    if negative then '-' :: text else text

end Decompiler.Number
