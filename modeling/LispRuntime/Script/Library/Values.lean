import LispRuntime.Cell.Deref
import LispRuntime.Namespace.Registry
import LispRuntime.Script.Operation

/-! Operations on values of any type: what they are, how they compare, how they
print, and their metadata. -/

namespace LispRuntime.Script.Library

open Operation

namespace Values

def asInteger : Value → Value
  | .integer number => .integer number
  | _ => .nil

def asText : Value → Option String
  | .string _ text => some text
  | _ => none

def asKeyword : Value → Option Keyword
  | .keyword name => some name
  | _ => none

def asSymbol : Value → Option Symbol
  | .symbol name _ => some name
  | _ => none

def isLess (left right : Value) : Run Bool := do
  return (← left.compare right) == .lt

/-- Characters that cannot be seen are shown by their numbers. -/
def inspectCharacter (char : Char) : List Char :=
  if Text.escapeCharacter char ≠ [char] then Text.escapeCharacter char
  else if char.toNat = 0 then ['\\', '0']
  else if char.toNat < 32 ∨ (127 ≤ char.toNat ∧ char.toNat < 160) then
    "\\u\x7b".toList ++ Nat.toDigits 16 char.toNat ++ ['\x7d']
  else [char]

def inspectText (text : String) : String :=
  "\"" ++ String.ofList (text.toList.flatMap inspectCharacter) ++ "\""

def lengthText : Option Nat → String
  | some length => "Some(" ++ toString length ++ ")"
  | none => "None"

/-- The configuration of a registry and how many namespaces it has. -/
def inspectRegistry (cell : Ref .registry) : Run String := do
  let registry ← Registry.registryAt cell
  let configuration := registry.configuration
  return "Runtime \x7b config: RuntimeConfig \x7b core_ns: " ++
    inspectText configuration.core ++ ", user_ns: " ++
    inspectText configuration.user ++ ", print_length: " ++
    lengthText configuration.printLength ++ " \x7d, namespaces: " ++
    toString registry.spaces.length ++ " \x7d"

def inspect (operand : Operand) : Attempt String :=
  match operand with
  | .value value => value.inspect
  | .registry cell => inspectRegistry cell
  | .block handle => do Value.inspectEntries (← HandleTable.entries handle)
  | .hierarchy cell => do return (← Run.hierarchyAt cell).hierarchy.text
  | .frame _ => misuse 0 "value"

def printLength : Run Value := do
  return Registry.lengthValue (← Run.printLength)

def setPrintLength (length : Option Nat) : Run Value := do
  return Registry.lengthValue (← Run.setPrintLength length)

end Values

def values : Table :=
  [ named "type" fun (value : Value) => plain value.tagName,
    named "type_name" fun (value : Value) => plain value.typeName,
    named "is_nil" fun (value : Value) => plain value.isNil,
    named "is_truthy" fun (value : Value) => plain value.isTruthy,
    named "is_map" fun (value : Value) => plain value.isMap,
    named "is_set" fun (value : Value) => plain value.isSet,
    named "is_sequential" fun (value : Value) => plain value.isSequential,
    named "is_callable" fun (value : Value) => plain value.isCallable,
    named "as_int" fun (value : Value) => plain (Values.asInteger value),
    named "as_str" fun (value : Value) => plain (Values.asText value),
    named "as_keyword" fun (value : Value) => plain (Values.asKeyword value),
    named "as_symbol" fun (value : Value) => plain (Values.asSymbol value),
    named "identical" fun (left right : Value) => plain (left.identical right),
    named "eq" Value.equal,
    named "cmp" Value.compare,
    named "lt" Values.isLess,
    named "hash" Value.hash,
    named "str" Value.display,
    named "debug" Values.inspect,
    named "meta" Value.metadata,
    named "with_meta" Value.withMetadata,
    named "reset_meta" Value.resetMetadata,
    named "get_print_length" Values.printLength,
    named "set_print_length" Values.setPrintLength ]

end LispRuntime.Script.Library
