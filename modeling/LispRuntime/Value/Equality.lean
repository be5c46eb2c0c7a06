import LispRuntime.Value.Lookup

/-! Equality. Identical values are equal. Beyond that sequences are equal
element by element, maps when each has what the other has, sets likewise; a
sequence that cannot be realized equals nothing. Values that are known by
their identity equal only themselves. -/

namespace LispRuntime.Value

/-- Both walks go on together; they are equal when both end at once. -/
def equalCursors (equal : Value → Value → Run Bool) :
    Nat → Cursor → Cursor → Run Bool
  | 0, _, _ => Run.stuck
  | fuel + 1, left, right => do
      let (leftStep, leftRest) ← left.next
      let (rightStep, rightRest) ← right.next
      match leftStep, rightStep with
      | none, none => return true
      | some (.ok leftItem), some (.ok rightItem) =>
          if ← equal leftItem rightItem then
            equalCursors equal fuel leftRest rightRest
          else return false
      | _, _ => return false

def equalItems (equal : Value → Value → Run Bool) : List Value → List Value → Run Bool
  | left :: leftRest, right :: rightRest => do
      if ← equal left right then equalItems equal leftRest rightRest
      else return false
  | _, _ => return true

/-- The elements that are at hand without a walk. -/
def indexed? : Value → Option (List Value)
  | list _ items _ => some items
  | vector _ items _ => some items
  | _ => none

def equalSequences (equal : Value → Value → Run Bool) (fuel : Nat)
    (left right : Value) : Run Bool :=
  match left.indexed?, right.indexed? with
  | some leftItems, some rightItems =>
      if leftItems.length = rightItems.length then
        equalItems equal leftItems rightItems
      else return false
  | _, _ => equalCursors equal fuel (.pending left) (.pending right)

/-- Does the test hold for every element? The first one for which it does not
is the last one looked at. -/
def forAll {α : Type} (test : α → Run Bool) : List α → Run Bool
  | [] => return true
  | element :: rest => do
      if ← test element then forAll test rest
      else return false

def equalMaps (equal : Value → Value → Run Bool) (fuel : Nat)
    (leftEntries rightEntries : List (Value × Value)) (right : Value) : Run Bool :=
  if leftEntries.length = rightEntries.length then
    forAll
      (fun entry => do
        match ← lookupWith equal fuel right entry.1 with
        | some value => equal value entry.2
        | none => return false)
      leftEntries
  else return false

def equalSets (equal : Value → Value → Run Bool) (fuel : Nat)
    (leftItems rightItems : List Value) (right : Value) : Run Bool :=
  if leftItems.length = rightItems.length then
    forAll (memberWith equal fuel right) leftItems
  else return false

def equalWithin : Nat → Value → Value → Run Bool
  | 0, _, _ => Run.stuck
  | fuel + 1, left, right =>
      if left.identical right then return true
      else
        match left, right with
        | string _ left, string _ right => return left == right
        | _, _ =>
            match left.mapEntries?, right.mapEntries? with
            | some leftEntries, some rightEntries =>
                equalMaps (equalWithin fuel) fuel leftEntries rightEntries right
            | _, _ =>
                match left.setItems?, right.setItems? with
                | some leftItems, some rightItems =>
                    equalSets (equalWithin fuel) fuel leftItems rightItems right
                | _, _ =>
                    if left.isSequential && right.isSequential then
                      equalSequences (equalWithin fuel) fuel left right
                    else return false

def equal (left right : Value) : Run Bool := do
  equalWithin (← Run.limit) left right

end LispRuntime.Value
