import LispRuntime.Cell.Deref
import LispRuntime.Multimethod.Basic

/-! What it means to call a value. Functions do what the machine makes of them;
multimethods dispatch, vars stand for their current values, keywords look
themselves up, and maps and sets look up what they are called with. -/

namespace LispRuntime.Value

def apply (runFunction : Ref .function → List Value → Attempt Value)
    (value : Value) (arguments : List Value) : Attempt Value :=
  match value with
  | function cell _ => runFunction cell arguments
  | multimethod cell => Multimethod.invoke cell arguments
  | var cell => do Attempt.call (← Var.deref cell) arguments
  | keyword name =>
      match arguments with
      | [collection] => collection.getKey value
      | [collection, default] => collection.getOr value default
      | _ => throw (.wrongArity name.text 1 arguments.length)
  | _ =>
      if value.isMap then
        match arguments with
        | [key] => value.getKey key
        | [key, default] => value.getOr key default
        | _ => throw (.wrongArity "map lookup" 1 arguments.length)
      else if value.isSet then
        match arguments with
        | [key] => value.getKey key
        | _ => throw (.wrongArity "set lookup" 1 arguments.length)
      else do throw (.notCallable (← value.display))

end LispRuntime.Value
