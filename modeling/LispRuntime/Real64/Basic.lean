/-! Reals are 64-bit binary floating-point numbers, known by their bits: one
sign bit, eleven exponent bits and fifty-two fraction bits. Two reals are the
same when their bits are, and they are ordered by a total order on bits that
agrees with the numeric one wherever that one is defined. -/

namespace LispRuntime

structure Real64 where
  bits : UInt64
deriving DecidableEq, Repr, Inhabited

namespace Real64

/-- The number of ways to fill so many bits. -/
def span (bits : Nat) : Nat := Nat.pow 2 bits

def isNegative (real : Real64) : Bool := span 63 ≤ real.bits.toNat

def exponentField (real : Real64) : Nat := real.bits.toNat / span 52 % span 11

def fractionField (real : Real64) : Nat := real.bits.toNat % span 52

def isNaN (real : Real64) : Bool :=
  real.exponentField == 2047 && real.fractionField != 0

def isInfinite (real : Real64) : Bool :=
  real.exponentField == 2047 && real.fractionField == 0

/-! The magnitude of a finite real is `significand * 2 ^ (scale - 1075)`. -/

def significand (real : Real64) : Nat :=
  if real.exponentField = 0 then real.fractionField
  else span 52 + real.fractionField

def scale (real : Real64) : Nat := max real.exponentField 1

/-- Position in the total order: positive reals in the order of their bits,
below them the negative ones in reverse. -/
def rank (real : Real64) : Int :=
  if real.isNegative then (span 63 : Int) - 1 - (real.bits.toNat : Int)
  else (real.bits.toNat : Int)

def compare (left right : Real64) : Ordering := Ord.compare left.rank right.rank

/-- Nearest multiple of `2 ^ shift`, counted in multiples; a half goes to the
even neighbour. -/
def roundShift (value shift : Nat) : Nat :=
  let quotient := value >>> shift
  let remainder := value % span shift
  if span shift < 2 * remainder ∨ (span shift = 2 * remainder ∧ quotient % 2 = 1)
  then quotient + 1 else quotient

/-- Bits of the real nearest to a positive integer below `2 ^ 64`. A carry out
of the fraction moves into the exponent by itself. -/
def bitsOfNat (magnitude : Nat) : Nat :=
  let exponent := magnitude.log2
  let significand :=
    if exponent ≤ 52 then magnitude <<< (52 - exponent)
    else roundShift magnitude (exponent - 52)
  (exponent + 1022) * span 52 + significand

/-- The real nearest to an integer. -/
def ofInteger (value : Int64) : Real64 :=
  let magnitude := value.toInt.natAbs
  if magnitude = 0 then ⟨0⟩
  else if value.toInt < 0 then ⟨UInt64.ofNat (span 63 + bitsOfNat magnitude)⟩
  else ⟨UInt64.ofNat (bitsOfNat magnitude)⟩

end Real64

end LispRuntime
