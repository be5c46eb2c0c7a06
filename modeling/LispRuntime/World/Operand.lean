import LispRuntime.Bindings.Basic
import LispRuntime.Value.Basic

/-! What an operation works on. Most operands are values; a few things that
operations make and take can never be part of a value. -/

namespace LispRuntime

inductive Operand where
  | value (value : Value)
  | registry (cell : Ref .registry)
  /-- A captured stack of bindings. -/
  | frame (stack : Stack)
  /-- An array map that can still be written to. -/
  | block (handle : Nat)
  /-- A hierarchy that is not a value yet. -/
  | hierarchy (cell : Ref .hierarchy)
deriving Repr, Inhabited

namespace Operand

/-- Do both stand for one registry? -/
def isRegistry (cell : Ref .registry) : Operand → Bool
  | registry other => other == cell
  | _ => false

def value? : Operand → Option Value
  | value inner => some inner
  | _ => none

end Operand

end LispRuntime
