import LispRuntime.Sequence.Cursor

/-! Reduction with early stop. A function stops the reduction by answering with
a reduced value, and the value inside is the result. -/

namespace LispRuntime.Value

def reduceStep (function accumulated item : Value) : Attempt (Value ⊕ Value) := do
  let answer ← Attempt.call function [accumulated, item]
  return if answer.isReduced then .inr answer.unreduced else .inl answer

def reduceCursor (function start : Value) (cursor : Cursor) : Attempt Value := do
  Cursor.foldUntil (reduceStep function) (← Run.limit) start cursor

def reduce (collection function start : Value) : Attempt Value :=
  reduceCursor function start (.pending collection)

/-- Without a start, the first element is the start; without any element, the
function is called with nothing. -/
def reduceOwn (collection function : Value) : Attempt Value := do
  match ← Cursor.next (.pending collection) with
  | (none, _) => Attempt.call function []
  | (some (.error error), _) => throw error
  | (some (.ok item), rest) => reduceCursor function item rest

end LispRuntime.Value
