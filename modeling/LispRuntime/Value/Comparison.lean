import LispRuntime.Sequence.Cursor

/-! An order on all values. Values of different types are ordered by type;
integers and reals are one type here, and so are all sequences, all maps and
all sets. Sequences are compared element by element, maps and sets by size and
then by their sorted contents. -/

namespace LispRuntime

/-! ## Sorting with a comparison that may have effects -/

section Sorting

variable {m : Type → Type} [Monad m] {α : Type}

/-- Puts an element behind all that are not greater. -/
def insertOrdered (compare : α → α → m Ordering) (element : α) : List α → m (List α)
  | [] => return [element]
  | head :: tail => do
      match ← compare head element with
      | .gt => return element :: head :: tail
      | _ => return head :: (← insertOrdered compare element tail)

/-- Equal elements stay in the order in which they came. -/
def sortOrdered (compare : α → α → m Ordering) (elements : List α) : m (List α) :=
  elements.foldlM (fun sorted element => insertOrdered compare element sorted) []

/-- The first difference decides, and then the length. -/
def compareLists (compare : α → α → m Ordering) : List α → List α → m Ordering
  | [], [] => return .eq
  | [], _ :: _ => return .lt
  | _ :: _, [] => return .gt
  | left :: leftRest, right :: rightRest => do
      match ← compare left right with
      | .eq => compareLists compare leftRest rightRest
      | other => return other

def comparePairs (compare : α → α → m Ordering) (left right : α × α) : m Ordering := do
  match ← compare left.1 right.1 with
  | .eq => compare left.2 right.2
  | other => return other

/-- Sorts both sides before anything else. -/
def compareSorted (compare : α → α → m Ordering) (left right : List α) : m Ordering := do
  let left ← sortOrdered compare left
  let right ← sortOrdered compare right
  match Ord.compare left.length right.length with
  | .eq => compareLists compare left right
  | other => return other

end Sorting

namespace Value

def typeRank : Value → Nat
  | nil => 0
  | boolean .. => 1
  | integer .. | real .. => 2
  | character .. => 3
  | string .. => 4
  | symbol .. => 5
  | keyword .. => 6
  | list .. | vector .. | cons .. | lazySeq .. => 7
  | arrayMap .. | hashMap .. | sortedMap .. => 8
  | hashSet .. | sortedSet .. => 9
  | transient .. => 10
  | var .. => 11
  | space .. => 12
  | atom .. => 13
  | volatile .. => 14
  | multimethod .. => 15
  | hierarchy .. => 16
  | delay .. => 17
  | function .. => 18
  | reduced .. => 19

def compareBooleans : Bool → Bool → Ordering
  | false, true => .lt
  | true, false => .gt
  | _, _ => .eq

/-- Pulls from the left first. The end of the left walk ends the comparison
with one more look at the right one. -/
def compareCursors (compare : Value → Value → Run Ordering) :
    Nat → Cursor → Cursor → Run Ordering
  | 0, _, _ => Run.stuck
  | fuel + 1, left, right => do
      match ← left.nextElement with
      | (none, _) =>
          match ← right.nextElement with
          | (none, _) => return .eq
          | (some _, _) => return .lt
      | (some leftItem, leftRest) =>
          match ← right.nextElement with
          | (none, _) => return .gt
          | (some rightItem, rightRest) =>
              match ← compare leftItem rightItem with
              | .eq => compareCursors compare fuel leftRest rightRest
              | other => return other

/-- An integer and a real are compared as reals; on a tie the integer is first. -/
def compareWithin : Nat → Value → Value → Run Ordering
  | 0, _, _ => Run.stuck
  | fuel + 1, left, right =>
      if left.typeRank ≠ right.typeRank then
        return Ord.compare left.typeRank right.typeRank
      else
        match left, right with
        | nil, nil => return .eq
        | boolean left, boolean right => return compareBooleans left right
        | integer left, integer right => return Ord.compare left.toInt right.toInt
        | real left, real right => return left.compare right
        | integer left, real right =>
            return ((Real64.ofInteger left).compare right).then .lt
        | real left, integer right =>
            return (left.compare (Real64.ofInteger right)).then .gt
        | character left, character right => return Ord.compare left.toNat right.toNat
        | string _ left, string _ right => return compareText left right
        | symbol left _, symbol right _ => return left.compare right
        | keyword left, keyword right => return left.compare right
        | _, _ =>
            if left.isSequential then
              compareCursors (compareWithin fuel) fuel (.pending left) (.pending right)
            else
              match left.mapEntries?, right.mapEntries? with
              | some leftEntries, some rightEntries =>
                  compareSorted (comparePairs (compareWithin fuel)) leftEntries rightEntries
              | _, _ =>
                  match left.setItems?, right.setItems? with
                  | some leftItems, some rightItems =>
                      compareSorted (compareWithin fuel) leftItems rightItems
                  | _, _ => return Ord.compare left.position right.position

def compare (left right : Value) : Run Ordering := do
  compareWithin (← Run.limit) left right

end Value

end LispRuntime
