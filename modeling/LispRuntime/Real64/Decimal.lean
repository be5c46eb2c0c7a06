import LispRuntime.Real64.Basic

/-! The written form of a real. Among the decimals that lie closer to a finite
real than to its neighbours, it is one with the fewest digits, and of those
the nearest; it is written without an exponent. The ends of the interval of
decimals that round to a real belong to it when its significand is even. -/

namespace LispRuntime

/-- The number `digits * 10 ^ exponent`. -/
structure Decimal where
  digits : Nat
  exponent : Int
deriving DecidableEq, Repr

namespace Decimal

def zeros (count : Nat) : String := String.ofList (List.replicate count '0')

/-- Positional notation. A whole number has no point. -/
def positional (decimal : Decimal) : String :=
  let digits := toString decimal.digits
  match decimal.exponent with
  | .ofNat count => digits ++ zeros count
  | .negSucc below =>
      let places := below + 1
      if digits.length ≤ places then
        "0." ++ zeros (places - digits.length) ++ digits
      else
        String.ofList (digits.toList.take (digits.length - places)) ++ "." ++
          String.ofList (digits.toList.drop (digits.length - places))

end Decimal

/-! An interval of decimals around a value, all over one denominator. -/

structure RoundingInterval where
  low : Nat
  value : Nat
  high : Nat
  denominator : Nat
  closed : Bool
deriving Repr

namespace RoundingInterval

/-- The decimals that round to the magnitude of a finite real. Below a power of
two the next real is only half as far as above it. -/
def ofReal (real : Real64) : RoundingInterval :=
  let significand := real.significand
  let below := if real.fractionField = 0 ∧ 1 < real.exponentField then 1 else 2
  let factor := if 1077 ≤ real.scale then Real64.span (real.scale - 1077) else 1
  { low := (4 * significand - below) * factor
    value := 4 * significand * factor
    high := (4 * significand + 2) * factor
    denominator := if 1077 ≤ real.scale then 1 else Real64.span (1077 - real.scale)
    closed := significand % 2 = 0 }

/-- Is `digits * unit / divisor` inside? -/
def contains (interval : RoundingInterval) (digits unit divisor : Nat) : Bool :=
  let scaled := digits * unit * interval.denominator
  if interval.closed then
    interval.low * divisor ≤ scaled && scaled ≤ interval.high * divisor
  else
    interval.low * divisor < scaled && scaled < interval.high * divisor

/-- Number of digits before the point of a value that is at least one. -/
def wholeDigits (interval : RoundingInterval) : Nat :=
  (toString (interval.value / interval.denominator)).length

/-- Number of zeros between the point and the first other digit of a value
below one. -/
def leadingZeros (interval : RoundingInterval) : Nat → Nat → Nat
  | 0, zeros => zeros
  | fuel + 1, zeros =>
      if interval.denominator ≤ interval.value * Nat.pow 10 (zeros + 1) then zeros
      else interval.leadingZeros fuel (zeros + 1)

/-- Where the first digit stands: the value is below `10 ^ magnitude`, and not
below a tenth of that. -/
def magnitude (interval : RoundingInterval) : Int :=
  if interval.denominator ≤ interval.value then interval.wholeDigits
  else - (interval.leadingZeros 400 0 : Int)

/-- The nearer one of the two multiples of `10 ^ exponent` around the value
that lie in the interval; halfway between both it is the greater one. -/
def nearestMultiple (interval : RoundingInterval) (exponent : Int) :
    Option Nat :=
  let unit := Nat.pow 10 exponent.toNat
  let divisor := Nat.pow 10 (-exponent).toNat
  let scaled := interval.value * divisor
  let step := unit * interval.denominator
  let lower := scaled / step
  let lowerFits := interval.contains lower unit divisor
  let upperFits := interval.contains (lower + 1) unit divisor
  if upperFits && (!lowerFits || step ≤ 2 * (scaled % step)) then some (lower + 1)
  else if lowerFits then some lower
  else none

/-- Tries one digit, then two, and so on. -/
def shortestFrom (interval : RoundingInterval) : Nat → Nat → Option Decimal
  | 0, _ => none
  | fuel + 1, count =>
      let exponent := interval.magnitude - (count : Int)
      match interval.nearestMultiple exponent with
      | some digits => some ⟨digits, exponent⟩
      | none => interval.shortestFrom fuel (count + 1)

end RoundingInterval

namespace Decimal

/-- Ten digits of a whole multiple of ten are one digit less. -/
def trim : Nat → Decimal → Decimal
  | 0, decimal => decimal
  | fuel + 1, decimal =>
      if decimal.digits ≠ 0 ∧ decimal.digits % 10 = 0 then
        trim fuel ⟨decimal.digits / 10, decimal.exponent + 1⟩
      else decimal

/-- Seventeen digits are always enough to tell a real from its neighbours. -/
def ofReal (real : Real64) : Decimal :=
  if real.significand = 0 then ⟨0, 0⟩
  else
    match (RoundingInterval.ofReal real).shortestFrom 17 1 with
    | some decimal => decimal.trim 20
    | none => ⟨0, 0⟩

end Decimal

namespace Real64

def isWhole (real : Real64) : Bool := 0 ≤ (Decimal.ofReal real).exponent

/-- Whole numbers are marked by a final `.0`. -/
def text (real : Real64) : String :=
  if real.isNaN then "##NaN"
  else if real.isInfinite then
    if real.isNegative then "##-Inf" else "##Inf"
  else
    let sign := if real.isNegative then "-" else ""
    let mark := if real.isWhole then ".0" else ""
    sign ++ (Decimal.ofReal real).positional ++ mark

end Real64

end LispRuntime
