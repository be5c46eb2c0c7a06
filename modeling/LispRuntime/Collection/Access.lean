import LispRuntime.Collection.Transient

/-! Reading collections. -/

namespace LispRuntime.Value

/-- Walks to the end and counts. -/
def countSteps (value : Value) : Attempt Nat := do
  Cursor.foldUntil (fun count _ => return .inl (count + 1)) (← Run.limit) 0
    (.pending value)

/-- The number of elements. Cons chains and lazy seqs are walked for it. -/
def count (value : Value) : Attempt Nat :=
  match value with
  | nil => return 0
  | string _ text => return text.length
  | list _ items _ | vector _ items _ => return items.length
  | cons .. | lazySeq .. => countSteps value
  | transient cell => Transient.count cell
  | _ =>
      match value.mapEntries?, value.setItems? with
      | some entries, _ => return entries.length
      | none, some items => return items.length
      | none, none => throw (.wrongType "count" "collection" value.typeName)

/-- The value of a key in a map. -/
def mapLookup (map key : Value) : Run (Option Value) := do
  lookupWith equal (← Run.limit) map key

/-- Is this an element of a set? -/
def setMember (set item : Value) : Run Bool := do
  memberWith equal (← Run.limit) set item

/-- The element at an index that is given as a value. -/
def elementAt? (items : List Value) (key : Value) : Option Value :=
  match key with
  | integer index => if index < 0 then none else items[index.toInt.toNat]?
  | _ => none

/-- What a collection has for a key. A set has the key itself for it. -/
def getOr (collection key default : Value) : Run Value :=
  match collection with
  | vector _ items _ => return (elementAt? items key).getD default
  | transient cell => do
      match ← Run.outcome (Transient.get? cell key) with
      | .ok (some value) => return value
      | _ => return default
  | _ => do
      if collection.isMap then return (← mapLookup collection key).getD default
      else if collection.isSet then
        return if ← setMember collection key then key else default
      else return default

def getKey (collection key : Value) : Run Value := collection.getOr key nil

def containsKey (collection key : Value) : Run Bool :=
  match collection with
  | vector _ items _ => return (elementAt? items key).isSome
  | _ => do
      if collection.isMap then return (← mapLookup collection key).isSome
      else setMember collection key

def peek (value : Value) : Attempt Value :=
  match value with
  | nil => return nil
  | list _ items _ => return items.head?.getD nil
  | vector _ items _ => return items.getLast?.getD nil
  | other => throw (.wrongType "peek" "list or vector" other.typeName)

/-- The element so many steps ahead. If the walk ends before that, the number
of all elements, given how many were passed already. -/
def elementAhead : Nat → Nat → Nat → Cursor → Attempt (Value ⊕ Nat)
  | 0, _, _, _ => Run.stuck
  | fuel + 1, ahead, passed, cursor => do
      match ← cursor.next with
      | (none, _) => return .inr passed
      | (some (.error error), _) => throw error
      | (some (.ok item), rest) =>
          if ahead = 0 then return .inl item
          else elementAhead fuel (ahead - 1) (passed + 1) rest

def nth (value : Value) (index : UInt64) : Attempt Value :=
  let outOfBounds (length : Nat) : Error := .indexOutOfBounds index.toInt64 length
  match value with
  | list _ items _ | vector _ items _ =>
      match items[index.toNat]? with
      | some item => return item
      | none => throw (outOfBounds items.length)
  | cons .. | lazySeq .. => do
      match ← elementAhead (← Run.limit) index.toNat 0 (.pending value) with
      | .inl item => return item
      | .inr length => throw (outOfBounds length)
  | other => throw (.wrongType "nth" "sequential" other.typeName)

end LispRuntime.Value
