import LispRuntime.Call
import LispRuntime.Script.Library.All

/-! What expressions stand for. Evaluation is strict and goes from left to
right; what has been evaluated is held while the rest is. A body is evaluated
in the scope in which it was written, with the arguments of its call in front.

The rules are structural. Only calls go beyond the expression at hand, and they
are made through the machine. -/

namespace LispRuntime.Script

/-- What a name can refer to: the results of earlier steps, and the arguments
of the bodies around an expression, innermost first. -/
structure Scope where
  slots : List (Option Operand)
  arguments : List (List Value)
deriving Inhabited

namespace Scope

def slot? (scope : Scope) (index : Nat) : Option Operand :=
  (scope.slots[index]?).join

/-- A missing argument is nil. -/
def argument (scope : Scope) (position up : Nat) : Value :=
  ((scope.arguments[up]?).bind fun arguments => arguments[position]?).getD .nil

/-- The arguments of the innermost body. -/
def innermost (scope : Scope) : List Value := scope.arguments.head?.getD []

end Scope

/-! ## Operations -/

/-- A registry that was made only to be an operand is gone after the operation,
unless it is also the answer. -/
def discardTemporaries (answer : Option Operand) : List Operand → Run Unit
  | [] => return ()
  | .registry cell :: rest => do
      let held := (← read).held
      if !(answer.toList ++ held).any (Operand.isRegistry cell) then
        Registry.discard cell
      discardTemporaries answer rest
  | _ :: rest => discardTemporaries answer rest

/-- Applies the operation of a name. -/
def perform (name : String) (operands : List Operand) : Attempt Operand := do
  let operation ← Attempt.found (Library.find? name)
  let outcome ← Attempt.outcome (Attempt.holding operands (operation operands))
  discardTemporaries outcome.toOption operands
  Attempt.ofExcept outcome

/-! ## Making values -/

def requireValue (operand : Operand) : Attempt Value := Attempt.found operand.value?

def pairUp : List Operand → Attempt (List (Value × Value))
  | [] => return []
  | key :: value :: rest => do
      let key ← requireValue key
      let value ← requireValue value
      return (key, value) :: (← pairUp rest)
  | [_] => Attempt.ofRun Run.stuck

/-- A function that closes over a scope. -/
def closure (scope : Scope) (name : String) (code : Code) : Run Value :=
  Value.newFunction name ⟨code, scope.arguments⟩

/-- The vector that stands for an error. -/
def errorValue (error : Error) : Run Value := do
  let kind ← Value.newString error.kind
  Value.newVector [.keyword (Keyword.named "error"), kind] none

def valueOperand (value : Run Value) : Attempt Operand := do
  return .value (← Attempt.ofRun value)

/-- Makes a collection out of elements that are held meanwhile. -/
def collect (make : List Value → Attempt Value) (operands : List Operand) :
    Attempt Operand := do
  let items ← operands.mapM requireValue
  return .value (← Attempt.holding operands (make items))

def collectPairs (make : List (Value × Value) → Attempt Value)
    (operands : List Operand) : Attempt Operand := do
  let pairs ← pairUp operands
  return .value (← Attempt.holding operands (make pairs))

/-! ## The rules -/

mutual
def evaluate (scope : Scope) : Expr → Attempt Operand
  | .nil => return .value .nil
  | .boolean value => return .value (.boolean value)
  | .integer value => return .value (.integer value)
  | .real value => return .value (.real value)
  | .character value => return .value (.character value)
  | .string text => valueOperand (Value.newString text)
  | .keyword name => return .value (.keyword name)
  | .symbol name => return .value (.symbol name none)
  | .list items => do
      collect (fun items => Value.newList items none) (← evaluateAll scope items)
  | .vector items => do
      collect (fun items => Value.newVector items none) (← evaluateAll scope items)
  | .hashSet items => do
      collect (fun items => Value.hashSetOf items) (← evaluateAll scope items)
  | .sortedSet items => do
      collect (fun items => Value.sortedSetOf items) (← evaluateAll scope items)
  | .map entries => do
      collectPairs Value.ofPairs (← evaluatePairs scope entries)
  | .hashMap entries => do
      collectPairs (fun pairs => Value.hashMapOf pairs) (← evaluatePairs scope entries)
  | .sortedMap entries => do
      collectPairs (fun pairs => Value.sortedMapOf pairs) (← evaluatePairs scope entries)
  | .function name body => valueOperand (closure scope name (.body body))
  | .operation name => valueOperand (closure scope name (.operation name))
  | .lazySeq body =>
      valueOperand do Value.newLazySeq (← closure scope "" (.body body))
  | .delay body =>
      valueOperand do Value.newDelay (← closure scope "" (.body body))
  | .lazyCall function => do
      let function ← requireValue (← evaluate scope function)
      return .value (← Value.newLazySeq function)
  | .lazyRealized value => do
      let value ← requireValue (← evaluate scope value)
      return .value (← Value.newRealized value)
  | .slot index => Attempt.found (scope.slot? index)
  | .argument position up => return .value (scope.argument position up)
  | .arguments => valueOperand (Value.newVector scope.innermost none)
  | .apply operation operands => do
      perform operation (← evaluateAll scope operands)
  | .choose condition consequent alternative => do
      let condition ← requireValue (← evaluate scope condition)
      if condition.isTruthy then evaluate scope consequent
      else evaluate scope alternative
  | .attempt body => do
      match ← Attempt.outcome (evaluate scope body) with
      | .ok operand => return operand
      | .error error => valueOperand (errorValue error)
  | .annotate body metadata => do
      let operand ← evaluate scope body
      let metadata ← Attempt.holding [operand] (evaluate scope metadata)
      let value ← requireValue operand
      return .value (← value.withMetadata (← requireValue metadata))

/-- From left to right. -/
def evaluateAll (scope : Scope) : List Expr → Attempt (List Operand)
  | [] => return []
  | expression :: rest => do
      let operand ← evaluate scope expression
      return operand :: (← Attempt.holding [operand] (evaluateAll scope rest))

/-- Each key before its value; the answer has them in turn. -/
def evaluatePairs (scope : Scope) : List (Expr × Expr) → Attempt (List Operand)
  | [] => return []
  | (key, value) :: rest => do
      let key ← evaluate scope key
      let value ← Attempt.holding [key] (evaluate scope value)
      let more ← Attempt.holding [key, value] (evaluatePairs scope rest)
      return key :: value :: more
end

/-- Evaluates the expressions of a body in order and answers with the last
result, which is given up only when there is a new one. -/
def evaluateBody (scope : Scope) : Operand → List Expr → Attempt Operand
  | last, [] => return last
  | last, expression :: rest => do
      let next ← Attempt.holding [last] (evaluate scope expression)
      discardTemporaries (some next) [last]
      evaluateBody scope next rest

/-! ## Calls -/

def runFunction (slots : List (Option Operand)) (cell : Ref .function)
    (arguments : List Value) : Attempt Value := do
  let function ← Attempt.found ((← get).functions.get? cell.index)
  let answer ←
    match function.code with
    | .body expressions =>
        evaluateBody ⟨slots, arguments :: function.scope⟩ (.value .nil) expressions
    | .operation name => perform name (arguments.map .value)
  requireValue answer

/-- Calls may be nested so deep, and a walk may take so many steps. A call holds
the function and its arguments. -/
def machine (slots : List (Option Operand)) (limit : Nat) : Nat → List Operand → Machine
  | 0, held => ⟨fun _ _ _ _ => none, held, limit⟩
  | depth + 1, held =>
      { call := fun holders function arguments world =>
          let machine := machine slots limit depth
            (.value function :: arguments.map .value ++ holders)
          (function.apply (runFunction slots) arguments).run machine world
        held := held
        limit := limit }

end LispRuntime.Script
