import LispRuntime.World.Run

/-! A seq is nil, a list that is not empty, or a cons cell. Everything seqable
has one; that of a lazy seq comes from its body, which runs the first time it
is asked for and never again once it has answered. -/

namespace LispRuntime

namespace Run

def deferredAt (cell : Ref .deferred) : Run Deferred := do
  found ((← get).deferred.get? cell.index)

def setDeferred (cell : Ref .deferred) (state : Deferred) : Run Unit :=
  update fun world =>
    { world with deferred := world.deferred.set cell.index state }

def isRealized (cell : Ref .deferred) : Run Bool := do
  match ← deferredAt cell with
  | .realized _ => return true
  | _ => return false

end Run

/-- The value of a deferred cell. The first time, its body is called and what
it answers is finished off; if either fails, the cell is as it was before. -/
def force (cell : Ref .deferred) (complete : Value → Attempt Value) : Attempt Value := do
  match ← Run.deferredAt cell with
  | .realized value => return value
  | .running _ => Run.stuck
  | .pending body =>
      Run.setDeferred cell (.running body)
      match ← Attempt.outcome (do complete (← Attempt.call body [])) with
      | .ok value =>
          Run.setDeferred cell (.realized value)
          return value
      | .error error =>
          Run.setDeferred cell (.pending body)
          throw error

namespace Value

/-- Nil for no elements, and a list otherwise. -/
def listSeq (items : List Value) : Run Value :=
  if items.isEmpty then return nil else newList items none

/-- An entry of a map as a vector. -/
def entryVector (entry : Value × Value) : Run Value :=
  newVector [entry.1, entry.2] none

def entrySeq (entries : List (Value × Value)) : Run Value := do
  listSeq (← entries.mapM entryVector)

/-- A lazy seq may answer with another one, so asking for a seq may go down
through several of them. -/
def seqWithin : Nat → Value → Attempt Value
  | 0, _ => Run.stuck
  | fuel + 1, value =>
      match value with
      | nil => return nil
      | list _ [] _ => return nil
      | list .. | cons .. => return value
      | vector _ items _ => listSeq items
      | string _ text => listSeq (text.toList.map character)
      | lazySeq cell => force cell (seqWithin fuel)
      | _ =>
          match value.mapEntries?, value.setItems? with
          | some entries, _ => entrySeq entries
          | none, some items => listSeq items
          | none, none => throw (.wrongType "seq" "seqable" value.typeName)

def seq (value : Value) : Attempt Value := do
  value.seqWithin (← Run.limit)

/-- The first element, or nil. -/
def first (value : Value) : Attempt Value := do
  match ← value.seq with
  | list _ (item :: _) _ => return item
  | cons _ item _ => return item
  | _ => return nil

/-- What follows the first element. Nothing of it is realized. -/
def rest (value : Value) : Attempt Value := do
  match ← value.seq with
  | list _ items _ => newList items.tail none
  | cons _ _ nil => newList [] none
  | cons _ _ tail => return tail
  | _ => newList [] none

/-- What follows the first element, as a seq. -/
def next (value : Value) : Attempt Value := do
  (← value.rest).seq

end Value

end LispRuntime
