import LispRuntime.Collection.Tables
import LispRuntime.Value.Printing

/-! Transients build a collection in place. All aliases of a transient see the
same collection, and once it has been taken out of one of them no alias can
be used any more. An array map is built in a block of its own with room for
as many pairs as an array map can have. -/

namespace LispRuntime

namespace Editable

/-- The collection as it would be if it were taken out now. -/
def contents (editable : Editable) : Run Value :=
  match editable with
  | arrayMap handle => do return .arrayMap handle ((← get).maps.entries handle) none
  | hashMap entries => return .hashMap 0 entries none
  | sortedMap entries => return .sortedMap 0 entries none
  | vector items => return .vector 0 items none
  | hashSet items => return .hashSet 0 items none
  | sortedSet items => return .sortedSet 0 items none

def count (editable : Editable) : Run Nat :=
  match editable with
  | arrayMap handle => HandleTable.size handle
  | hashMap entries => return entries.length
  | sortedMap entries => return entries.length
  | vector items => return items.length
  | hashSet items => return items.length
  | sortedSet items => return items.length

/-- The value of a key, the element at an index, or the element itself. -/
def get? (editable : Editable) (key : Value) : Run (Option Value) := do
  match ← editable.contents with
  | .vector _ items _ =>
      match key with
      | .integer index => return if index < 0 then none else items[index.toInt.toNat]?
      | _ => return none
  | contents =>
      if contents.isSet then
        if ← Value.memberWith Value.equal (← Run.limit) contents key then
          return some key
        else return none
      else Value.lookupWith Value.equal (← Run.limit) contents key

def ofMapTable : MapTable → Editable
  | .small handle => arrayMap handle
  | .hashed entries => hashMap entries

def assocVector (items : List Value) (key value : Value) : Attempt Editable :=
  match key with
  | .integer index =>
      if 0 ≤ index ∧ index.toInt.toNat < items.length then
        return vector (items.set index.toInt.toNat value)
      else if 0 ≤ index ∧ index.toInt.toNat = items.length then
        return vector (items ++ [value])
      else throw (.indexOutOfBounds index items.length)
  | other => throw (.wrongType "assoc!" "integer" other.typeName)

/-- The key is looked for once more before the array map is given up for a hash
map. -/
def assocPairs (handle : Nat) (key value : Value) : Attempt Editable := do
  if ← HandleTable.fits handle key then
    HandleTable.assign handle key value
    return arrayMap handle
  else return ofMapTable (← MapTable.assocSmall handle key value)

def assoc (editable : Editable) (key value : Value) : Attempt Editable :=
  match editable with
  | arrayMap handle => assocPairs handle key value
  | hashMap entries => do return hashMap (← HashTable.assoc entries key value)
  | sortedMap entries => do return sortedMap (← SortedTable.assoc entries key value)
  | vector items => assocVector items key value
  | other => throw (.wrongType "assoc!" "map or vector" other.kindName)

/-- A map takes an entry as a vector of two, or all entries of another map. -/
def conjEntry (editable : Editable) (item : Value) : Attempt Editable :=
  match item with
  | .vector _ [key, value] _ => editable.assoc key value
  | _ =>
      match item.mapEntries? with
      | some entries =>
          entries.foldlM (fun editable entry => editable.assoc entry.1 entry.2) editable
      | none => throw (.wrongType "conj!" "map entry vector" item.typeName)

def conj (editable : Editable) (item : Value) : Attempt Editable :=
  match editable with
  | vector items => return vector (items ++ [item])
  | hashSet items => do return hashSet (← HashTable.addItem items item)
  | sortedSet items => do return sortedSet (← SortedTable.addItem items item)
  | map => map.conjEntry item

def dissoc (editable : Editable) (key : Value) : Attempt Editable :=
  match editable with
  | arrayMap handle => do
      HandleTable.erase handle key
      return arrayMap handle
  | hashMap entries => do return hashMap (← HashTable.dissoc entries key)
  | sortedMap entries => do return sortedMap (← SortedTable.dissoc entries key)
  | other => throw (.wrongType "dissoc!" "map" other.kindName)

def disj (editable : Editable) (item : Value) : Attempt Editable :=
  match editable with
  | hashSet items => do return hashSet (← HashTable.removeItem items item)
  | sortedSet items => do return sortedSet (← SortedTable.removeItem items item)
  | other => throw (.wrongType "disj!" "set" other.kindName)

def pop (editable : Editable) : Attempt Editable :=
  match editable with
  | vector items =>
      if items.isEmpty then throw (.evaluation "Can't pop empty vector")
      else return vector items.dropLast
  | other => throw (.wrongType "pop!" "vector" other.kindName)

def toValue (editable : Editable) : Run Value :=
  match editable with
  | arrayMap handle => Value.ofHandle handle none
  | hashMap entries => Value.newHashMap entries none
  | sortedMap entries => Value.newSortedMap entries none
  | vector items => Value.newVector items none
  | hashSet items => Value.newHashSet items none
  | sortedSet items => Value.newSortedSet items none

/-- A copy of a collection to build on. -/
def ofValue (value : Value) : Attempt Editable :=
  match value with
  | .arrayMap handle _ _ => do
      let copy ← Value.openHandle (·.copyExact handle)
      HandleTable.reserve copy ArrayMap.maxPairs
      return arrayMap copy
  | .hashMap _ entries _ => return hashMap entries
  | .sortedMap _ entries _ => return sortedMap entries
  | .vector _ items _ => return vector items
  | .hashSet _ items _ => return hashSet items
  | .sortedSet _ items _ => return sortedSet items
  | other => throw (.wrongType "transient" "map, set or vector" other.typeName)

end Editable

namespace Transient

abbrev Cell := Ref .transient

def setCell (cell : Cell) (state : TransientCell) : Run Unit :=
  Run.update fun world =>
    { world with transients := world.transients.set cell.index state }

def ofValue (value : Value) : Attempt Cell := do
  let editable ← Editable.ofValue value
  let world ← get
  set { world with transients := world.transients.push (some editable) }
  return ⟨world.transients.next⟩

/-- The collection that is being built, while there is one. -/
def editable (cell : Cell) : Attempt Editable := do
  match ← Run.transientAt cell with
  | some editable => return editable
  | none => throw .transientSealed

/-- A change that fails leaves the collection as it was. -/
def change (cell : Cell) (step : Editable → Attempt Editable) : Attempt Unit := do
  let changed ← step (← editable cell)
  setCell cell (some changed)

def conj (cell : Cell) (item : Value) : Attempt Unit :=
  change cell fun editable => editable.conj item

def assoc (cell : Cell) (key value : Value) : Attempt Unit :=
  change cell fun editable => editable.assoc key value

def dissoc (cell : Cell) (key : Value) : Attempt Unit :=
  change cell fun editable => editable.dissoc key

def disj (cell : Cell) (item : Value) : Attempt Unit :=
  change cell fun editable => editable.disj item

def pop (cell : Cell) : Attempt Unit :=
  change cell Editable.pop

def get? (cell : Cell) (key : Value) : Attempt (Option Value) := do
  (← editable cell).get? key

def count (cell : Cell) : Attempt Nat := do
  (← editable cell).count

/-- Takes the collection out and seals the transient. -/
def persistent (cell : Cell) : Attempt Value := do
  let editable ← editable cell
  setCell cell none
  editable.toValue

def isSealed (cell : Cell) : Run Bool := do
  return (← Run.transientAt cell).isNone

end Transient

end LispRuntime
