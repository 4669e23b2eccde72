/-!
# Binary floating point

The numbers of an interchange format, taken apart into a significand and a power of two, and the
nearest number of a format to a fraction. All arithmetic is exact, on natural numbers.
-/

namespace Decompiler.Number

structure Format where
  precision : Nat
  exponentBits : Nat

def single : Format := ⟨24, 8⟩

def double : Format := ⟨53, 11⟩

namespace Format

def leastExponent (f : Format) : Int :=
  3 - Nat.pow 2 (f.exponentBits - 1) - f.precision

def infinity (f : Format) : Nat :=
  (Nat.pow 2 f.exponentBits - 1) * Nat.pow 2 (f.precision - 1)

def signBit (f : Format) : Nat :=
  Nat.pow 2 (f.exponentBits + f.precision - 1)

def quiet (f : Format) : Nat :=
  f.infinity + Nat.pow 2 (f.precision - 2)

end Format

/-- What a bit pattern denotes; a finite number is a significand times a power of two. -/
inductive Value where
  | finite (negative : Bool) (significand : Nat) (exponent : Int)
  | infinite (negative : Bool)
  | notANumber (negative : Bool)
  deriving DecidableEq

def decode (f : Format) (bits : Nat) : Value :=
  let negative := bits / f.signBit % 2 == 1
  let rest := bits % f.signBit
  let unit := Nat.pow 2 (f.precision - 1)
  let field := rest / unit
  let fraction := rest % unit
  if field == Nat.pow 2 f.exponentBits - 1 then
    if fraction == 0 then .infinite negative else .notANumber negative
  else if field == 0 then .finite negative fraction f.leastExponent
  else .finite negative (fraction + unit) (f.leastExponent + (field - 1))

/-- The quotient `num / den`, rounded to the nearest natural number, a half to the even one. -/
def roundDiv (num den : Nat) : Nat :=
  let q := num / den
  let r := num % den
  if 2 * r < den then q
  else if den < 2 * r then q + 1
  else if q % 2 == 0 then q else q + 1

def fraction (significand : Nat) (exponent : Int) : Nat × Nat :=
  if 0 ≤ exponent then (significand * Nat.pow 2 exponent.toNat, 1)
  else (significand, Nat.pow 2 (-exponent).toNat)

def floorLog2 (num den : Nat) : Int :=
  let k : Int := (Nat.log2 num : Int) - Nat.log2 den
  let below := if 0 ≤ k then num < den * Nat.pow 2 k.toNat else num * Nat.pow 2 (-k).toNat < den
  if below then k - 1 else k

/-- The bit pattern of the number of the format nearest to `num / den`, a half going to the even
one; from the overflow threshold on it is infinity. -/
def encode (f : Format) (negative : Bool) (num den : Nat) : Nat :=
  let sign := if negative then f.signBit else 0
  if num == 0 then sign
  else
    let e := max (floorLog2 num den - (f.precision - 1)) f.leastExponent
    let m :=
      if 0 ≤ e then roundDiv num (den * Nat.pow 2 e.toNat)
      else roundDiv (num * Nat.pow 2 (-e).toNat) den
    sign + min ((e - f.leastExponent).toNat * Nat.pow 2 (f.precision - 1) + m) f.infinity

def bigEndian : (size : Nat) → Nat → List UInt8
  | 0, _ => []
  | size + 1, n => bigEndian size (n / 256) ++ [n.toUInt8]

end Decompiler.Number
