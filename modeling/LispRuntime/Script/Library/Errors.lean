import LispRuntime.Script.Operation

/-! Errors by name, to be raised or to be asked for their texts. -/

namespace LispRuntime.Script.Library

open Operation

namespace Errors

/-- The errors that are made of texts. -/
def ofTexts (name : String) (texts : List String) : Option Error :=
  match name, texts with
  | "ambiguous", [multimethod, dispatchValue, first, second] =>
      some (.ambiguousDispatch multimethod dispatchValue first second)
  | "no-method", [multimethod, dispatchValue] => some (.noMethod multimethod dispatchValue)
  | "preference", [multimethod, preferred, other] =>
      some (.preferenceConflict multimethod preferred other)
  | "non-dynamic", [var] => some (.nonDynamicBinding var)
  | "not-thread-bound", [var] => some (.varNotThreadBound var)
  | "foreign", [var] => some (.setFromForeignThread var)
  | "unbound", [var] => some (.unboundVar var)
  | "not-callable", [value] => some (.notCallable value)
  | "derivation", [reason] => some (.invalidDerivation reason)
  | "eval", [message] => some (.evaluation message)
  | "underflow", [] => some .bindingStackUnderflow
  | "sealed", [] => some .transientSealed
  | "reference", [] => some .invalidReferenceState
  | _, _ => none

/-- The errors that are made of symbols. -/
def ofSymbols (name : String) (symbols : List Symbol) : Option Error :=
  match name, symbols with
  | "undefined", [symbol] => some (.undefinedSymbol symbol)
  | "no-namespace", [symbol] => some (.noNamespace symbol)
  | "alias", [aliasName, space, existing] => some (.aliasConflict aliasName space existing)
  | _, _ => none

/-- The errors that are made of numbers. -/
def ofNumbers (name : String) (numbers : List Int64) : Option Error :=
  let size (number : Int64) : Nat := number.toUInt64.toNat
  match name, numbers with
  | "overflow", [pairs] => some (.mapOverflow (size pairs))
  | "reserve", [pairs] => some (.mapReserve (size pairs))
  | "arity", [expected, got] =>
      some (.arityMismatch (.exactly (size expected)) (size got) none)
  | "arity-at-least", [expected, got] =>
      some (.arityMismatch (.atLeast (size expected)) (size got) none)
  | "index", [index, length] => some (.indexOutOfBounds index (size length))
  | _, _ => none

def ofMixed (name : String) (operands : List Value) : Option Error :=
  match name, operands with
  | "refer", [.symbol symbol _, .string _ existing, .symbol space _] =>
      some (.referConflict symbol existing space)
  | "arity-named", [.integer expected, .integer got, .string _ name] =>
      some (.wrongArity name expected.toUInt64.toNat got.toUInt64.toNat)
  | "type", [expected, got] => some (.typeMismatch none expected.typeName got.typeName)
  | "type-in", [expected, got, .string _ context] =>
      some (.wrongType context expected.typeName got.typeName)
  | _, _ => none

def readAll {α : Type} [Readable α] (operands : List Value) : Option (List α) :=
  operands.mapM fun operand => Readable.read (.value operand)

/-- The error of a name with what its text is about. -/
def ofOperands (name : String) (operands : List Value) : Attempt Error :=
  Attempt.found
    ((readAll operands).bind (ofTexts name) <|>
      (readAll operands).bind (ofSymbols name) <|>
      (readAll operands).bind (ofNumbers name) <|>
      ofMixed name operands)

def raise (name : String) (operands : List Value) : Attempt Value := do
  throw (← ofOperands name operands)

def text (name : String) (operands : List Value) : Attempt String := do
  return (← ofOperands name operands).message

def kind (name : String) (operands : List Value) : Attempt String := do
  return (← ofOperands name operands).kind

end Errors

def errors : Table :=
  [ named "raise" Errors.raise,
    named "error_text" Errors.text,
    named "error_kind" Errors.kind ]

end LispRuntime.Script.Library
