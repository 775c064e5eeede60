/-!
# Binary floating-point formats

A bit pattern is read as an exact number, sign and significand times a power of two, and an exact
number is rounded once, to the nearest pattern, ties to the even one. All of it is integer
arithmetic on patterns.
-/

set_option autoImplicit false

namespace WireCodec

-- Powers are those of the core library, also where a file sees others.
attribute [local instance(high)] instPowNat

namespace Ieee754

structure Format where
  exponentBits : Nat
  fractionBits : Nat
  deriving DecidableEq

def binary32 : Format := ⟨8, 23⟩

def binary64 : Format := ⟨11, 52⟩

/-- What a pattern denotes; a finite one the significand times two to the exponent, with its
sign. -/
inductive Datum where
  | nan
  | infinite (negative : Bool)
  | finite (negative : Bool) (significand : Nat) (exponent : Int)
  deriving DecidableEq

namespace Format

/-- The exponent of the last place of the numbers nearest to zero. -/
def minExponent (f : Format) : Int := 2 - 2 ^ (f.exponentBits - 1) - f.fractionBits

def infinity (f : Format) : Nat := (2 ^ f.exponentBits - 1) * 2 ^ f.fractionBits

def signBit (f : Format) : Nat := 2 ^ (f.exponentBits + f.fractionBits)

def quietNan (f : Format) : Nat := f.infinity + 2 ^ (f.fractionBits - 1)

def decode (f : Format) (pattern : Nat) : Datum :=
  let fraction := pattern % 2 ^ f.fractionBits
  let exponent := pattern / 2 ^ f.fractionBits % 2 ^ f.exponentBits
  let negative := pattern / f.signBit % 2 == 1
  if exponent = 2 ^ f.exponentBits - 1 then
    if fraction = 0 then .infinite negative else .nan
  else if exponent = 0 then .finite negative fraction f.minExponent
  else .finite negative (2 ^ f.fractionBits + fraction) (f.minExponent + (exponent - 1 : Nat))

/-- The quotient of `m` by two to the `k`, to the nearest integer, ties to the even one. -/
def roundShift (m k : Nat) : Nat :=
  let q := m / 2 ^ k
  let r := m % 2 ^ k
  if 2 * r < 2 ^ k then q
  else if 2 * r = 2 ^ k then q + q % 2
  else q + 1

/-- The pattern nearest to a magnitude. A carry out of the fraction falls into the exponent, where
it belongs. -/
def roundMagnitude (f : Format) (significand : Nat) (exponent : Int) : Nat :=
  if significand = 0 then 0
  else
    let place := max f.minExponent (exponent + Nat.log2 significand - f.fractionBits)
    let places :=
      if place ≤ exponent then significand * 2 ^ (exponent - place).toNat
      else roundShift significand (place - exponent).toNat
    min f.infinity ((place - f.minExponent).toNat * 2 ^ f.fractionBits + places)

def round (f : Format) : Datum → Nat
  | .nan => f.quietNan
  | .infinite negative => (if negative then f.signBit else 0) + f.infinity
  | .finite negative m e => (if negative then f.signBit else 0) + f.roundMagnitude m e

end Format

structure BinaryFraction where
  num : Nat
  scale : Nat
  deriving DecidableEq

def BinaryFraction.lt (a b : BinaryFraction) : Bool := a.num * 2 ^ b.scale < b.num * 2 ^ a.scale

namespace Datum

def ofInt (v : Int) : Datum := .finite (v < 0) v.natAbs 0

def scale (x : Datum) (k : Nat) : Datum :=
  match x with
  | .finite negative m e => .finite negative (m * k) e
  | _ => x

def fraction? : Datum → Option BinaryFraction
  | .finite _ m e => some (if 0 ≤ e then ⟨0, 0⟩ else ⟨m % 2 ^ (-e).toNat, (-e).toNat⟩)
  | _ => none

def wholePart (m : Nat) (e : Int) : Nat :=
  if 0 ≤ e then m * 2 ^ e.toNat else m / 2 ^ (-e).toNat

/-- The integer reached by rounding toward zero, held within 64 bits; zero for what is not a
number. -/
def toInt64 : Datum → Int64
  | .nan => 0
  | .infinite negative => if negative then Int64.minValue else Int64.maxValue
  | .finite negative m e =>
    let whole : Int := if negative then -wholePart m e else wholePart m e
    Int64.ofInt (max Int64.minValue.toInt (min Int64.maxValue.toInt whole))

def atMost (x : Datum) (bound : Nat) : Bool :=
  match x with
  | .nan => false
  | .infinite negative => negative
  | .finite negative m e =>
    negative || if 0 ≤ e then m * 2 ^ e.toNat ≤ bound else m ≤ bound * 2 ^ (-e).toNat

end Datum

def convert (source target : Format) (pattern : Nat) : Nat := target.round (source.decode pattern)

end Ieee754

end WireCodec
