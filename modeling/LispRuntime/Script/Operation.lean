import LispRuntime.Script.Observation

/-! Named operations. An operation is a function of the library under a name;
how its operands are read and its result is written follows from its type. An
operation fails when an operand is missing or is not what it takes; operands
that it does not take are of no concern to it. -/

namespace LispRuntime.Script

abbrev Operation := List Operand → Attempt Operand

/-- Operations by name. -/
abbrev Table := List (String × Operation)

namespace Operation

/-- What is said when an operand is not what an operation takes. -/
def misuse {α : Type} (position : Nat) (expected : String) : Attempt α :=
  throw (.evaluation
    ("driver: operand " ++ toString position ++ ": " ++ expected ++ " expected"))

/-! ## Reading operands

Integers stand for machine words too, and wrap. -/

class Readable (α : Type) where
  /-- A word for what can be read. -/
  expected : String
  read : Operand → Option α

/-- Reads one kind of value. -/
def readValue {α : Type} (read : Value → Option α) (operand : Operand) : Option α :=
  operand.value?.bind read

instance : Readable Operand where
  expected := "value"
  read := some

instance : Readable Value where
  expected := "value"
  read := Operand.value?

/-- Nil stands for no value. -/
instance : Readable (Option Value) where
  expected := "value"
  read := readValue fun
    | .nil => some none
    | value => some (some value)

instance : Readable Bool where
  expected := "value"
  read := readValue fun value => some value.isTruthy

instance : Readable Int64 where
  expected := "integer"
  read := readValue fun
    | .integer value => some value
    | _ => none

instance : Readable UInt64 where
  expected := "integer"
  read := readValue fun
    | .integer value => some value.toUInt64
    | _ => none

instance : Readable UInt32 where
  expected := "integer"
  read := readValue fun
    | .integer value => some value.toUInt64.toUInt32
    | _ => none

instance : Readable Nat where
  expected := "integer"
  read := readValue fun
    | .integer value => some value.toUInt64.toNat
    | _ => none

instance : Readable (Option Nat) where
  expected := "integer"
  read := readValue fun
    | .nil => some none
    | .integer value => some (some value.toUInt64.toNat)
    | _ => none

instance : Readable Real64 where
  expected := "real"
  read := readValue fun
    | .real value => some value
    | _ => none

instance : Readable String where
  expected := "string"
  read := readValue fun
    | .string _ text => some text
    | _ => none

instance : Readable (Option String) where
  expected := "string"
  read := readValue fun
    | .nil => some none
    | .string _ text => some (some text)
    | _ => none

instance : Readable Symbol where
  expected := "symbol"
  read := readValue fun
    | .symbol name _ => some name
    | _ => none

instance : Readable Keyword where
  expected := "keyword"
  read := readValue fun
    | .keyword name => some name
    | _ => none

/-- Bindings are given as a map whose keys are vars. -/
instance : Readable (List (Ref .var × Value)) where
  expected := "map of vars"
  read := readValue fun value =>
    value.mapEntries?.bind fun entries =>
      entries.mapM fun
        | (.var cell, value) => some (cell, value)
        | _ => none

instance : Readable (Ref .transient) where
  expected := "transient"
  read := readValue fun
    | .transient cell => some cell
    | _ => none

instance : Readable (Ref .atom) where
  expected := "atom"
  read := readValue fun
    | .atom cell => some cell
    | _ => none

instance : Readable (Ref .volatile) where
  expected := "volatile"
  read := readValue fun
    | .volatile cell => some cell
    | _ => none

instance : Readable (Ref .var) where
  expected := "var"
  read := readValue fun
    | .var cell => some cell
    | _ => none

instance : Readable (Ref .space) where
  expected := "namespace"
  read := readValue fun
    | .space cell => some cell
    | _ => none

instance : Readable (Ref .multimethod) where
  expected := "multimethod"
  read := readValue fun
    | .multimethod cell => some cell
    | _ => none

/-- A hierarchy, shared or not. -/
instance : Readable (Ref .hierarchy) where
  expected := "hierarchy"
  read
    | .value (.hierarchy cell) => some cell
    | .hierarchy cell => some cell
    | _ => none

instance : Readable (Ref .registry) where
  expected := "runtime"
  read
    | .registry cell => some cell
    | _ => none

/-- An array map that can be written to. -/
structure Block where
  handle : Nat

instance : Readable Block where
  expected := "array map"
  read
    | .block handle => some ⟨handle⟩
    | _ => none

/-- A captured stack of bindings. -/
structure Frame where
  stack : Stack

instance : Readable Frame where
  expected := "frame"
  read
    | .frame stack => some ⟨stack⟩
    | _ => none

/-! ## Writing results -/

class Writable (α : Type) where
  write : α → Run Operand

def writeValue {α : Type} (write : α → Run Value) (result : α) : Run Operand := do
  return .value (← write result)

/-- One element for a result, nothing for none. -/
def ofOption : Option Value → Run Value
  | some value => Value.newVector [value] none
  | none => return .nil

/-- The result itself, nil for none. -/
def orNil : Option Value → Value
  | some value => value
  | none => .nil

def integerOf (number : Nat) : Value := .integer (UInt64.ofNat number).toInt64

def symbolValue (name : Symbol) : Value := .symbol name none

instance : Writable Operand where
  write := pure

instance : Writable Value where
  write := writeValue pure

instance : Writable Unit where
  write := writeValue fun _ => return .nil

instance : Writable Bool where
  write := writeValue fun result => return .boolean result

instance : Writable Int64 where
  write := writeValue fun result => return .integer result

instance : Writable UInt32 where
  write := writeValue fun result => return integerOf result.toNat

instance : Writable Nat where
  write := writeValue fun result => return integerOf result

instance : Writable String where
  write := writeValue Value.newString

/-- A text, nil for none. -/
instance : Writable (Option String) where
  write := writeValue fun
    | some text => Value.newString text
    | none => return .nil

instance : Writable Ordering where
  write := writeValue fun
    | .lt => return .integer (-1)
    | .eq => return .integer 0
    | .gt => return .integer 1

instance : Writable Symbol where
  write := writeValue fun name => return symbolValue name

instance : Writable Keyword where
  write := writeValue fun name => return .keyword name

instance : Writable (Option Value) where
  write := writeValue ofOption

instance : Writable (Option Symbol) where
  write := writeValue fun result => ofOption (result.map symbolValue)

instance : Writable (Option Keyword) where
  write := writeValue fun result => ofOption (result.map .keyword)

/-- A sequence of values is a vector. -/
instance : Writable (List Value) where
  write := writeValue fun result => Value.newVector result none

/-- Two values are a vector of two. -/
instance : Writable (Value × Value) where
  write := writeValue fun result => Value.newVector [result.1, result.2] none

instance : Writable (Ref .transient) where
  write := writeValue fun cell => return .transient cell

instance : Writable (Ref .var) where
  write := writeValue fun cell => return .var cell

instance : Writable (Option (Ref .var)) where
  write := writeValue fun result => ofOption (result.map .var)

instance : Writable (Ref .space) where
  write := writeValue fun cell => return .space cell

instance : Writable (Option (Ref .space)) where
  write := writeValue fun result => ofOption (result.map .space)

/-- What is mapped from symbols is a sorted map. -/
instance : Writable (List (Symbol × Ref .var)) where
  write := writeValue fun result =>
    Value.sortedMapOf (result.map fun entry => (symbolValue entry.1, .var entry.2))

instance : Writable (List (Symbol × Ref .space)) where
  write := writeValue fun result =>
    Value.sortedMapOf (result.map fun entry => (symbolValue entry.1, .space entry.2))

instance : Writable (Ref .registry) where
  write cell := return .registry cell

instance : Writable Block where
  write block := return .block block.handle

instance : Writable Frame where
  write frame := return .frame frame.stack

/-! ## Functions as operations -/

/-- What a function does with the operands from a position on. -/
class Applicable (α : Type) where
  applyFrom : Nat → α → Operation

/-- Takes one operand more. -/
instance {α β : Type} [Readable α] [Applicable β] : Applicable (α → β) where
  applyFrom position function
    | operand :: rest =>
        match Readable.read operand with
        | some argument => Applicable.applyFrom (position + 1) (function argument) rest
        | none => misuse position (Readable.expected α)
    | [] => misuse position "value"

/-- Takes all operands that are left, which must be values. -/
instance (priority := high) {β : Type} [Applicable β] : Applicable (List Value → β) where
  applyFrom position function operands :=
    match operands.mapM Operand.value? with
    | some values => Applicable.applyFrom (position + operands.length) (function values) []
    | none => misuse position "value"

instance {α : Type} [Writable α] : Applicable (Attempt α) where
  applyFrom _ result _ := do Writable.write (← result)

instance {α : Type} [Writable α] : Applicable (Run α) where
  applyFrom _ result _ := do Attempt.ofRun (Writable.write (← Attempt.ofRun result))

/-- The result of a function without effects. -/
def plain {α : Type} (result : α) : Run α := pure result

/-- An operation under its name. -/
def named {α : Type} [Applicable α] (name : String) (function : α) :
    String × Operation :=
  (name, Applicable.applyFrom 0 function)

end Operation

end LispRuntime.Script
