import LispRuntime.Cell.Binding
import LispRuntime.Script.Operation

/-! Operations that scripts need to be scripts: arithmetic, failing, a log,
calling in a loop and calling on another thread. -/

namespace LispRuntime.Script.Library

open Operation

namespace Control

/-- The sum of all operands, wrapped. -/
def add (values : List Value) : Attempt Value := do
  let sum ← values.foldlM
    (fun (sum : Int64) value =>
      match value with
      | .integer number => return sum + number
      | other => throw (.wrongType "+" "integer" other.typeName))
    0
  return .integer sum

def increment (values : List Value) : Attempt Value :=
  match values with
  | [.integer number] => return .integer (number + 1)
  | _ => throw (.wrongArity "inc" 1 values.length)

def fail (message : String) : Attempt Value := throw (.evaluation message)

/-- Logs what can be seen of an operand now. -/
def log (operand : Operand) : Run Operand := do
  let view ← operand.view
  Run.update fun world => { world with log := world.log ++ [view] }
  return operand

def integersFrom (start : Int64) : Nat → List Value
  | 0 => []
  | count + 1 => .integer start :: integersFrom (start + 1) count

/-- The integers from the first one up to, but not including, the last one. -/
def range (first last : Int64) : Run (List Value) :=
  return integersFrom first (last.toInt - first.toInt).toNat

/-- Calls a function on a value, then on the answer, and so on. -/
def iterate : Nat → Value → Value → Attempt Value
  | 0, _, value => return value
  | count + 1, function, value => do
      iterate count function (← Attempt.call function [value])

def onNewThread (function : Value) (arguments : List Value) : Attempt Value :=
  ExceptT.mk (Binding.onNewThread (Attempt.call function arguments).run)

/-- The new thread starts with a captured stack of bindings. -/
def onNewThreadWith (frame : Frame) (function : Value) (arguments : List Value) :
    Attempt Value :=
  ExceptT.mk (Binding.onNewThread do
    let _ ← Binding.install frame.stack
    (Attempt.call function arguments).run)

end Control

def control : Table :=
  [ named "id" fun (operand : Operand) => plain operand,
    named "+" Control.add,
    named "inc" Control.increment,
    named "fail" Control.fail,
    named "log" Control.log,
    named "range" Control.range,
    named "iterate" Control.iterate,
    named "call" Attempt.call,
    named "thread" Control.onNewThread,
    named "thread_with_frame" Control.onNewThreadWith ]

end LispRuntime.Script.Library
