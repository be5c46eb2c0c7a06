import LispRuntime.Collection.Access

/-! Updates make new collections and leave the old ones alone. A new collection
has the metadata of the one it was made from. -/

namespace LispRuntime.Value

/-- An index that may be one past the end. -/
def updateIndex (key : Value) (length : Nat) : Attempt Nat :=
  match key with
  | integer index =>
      if 0 ≤ index ∧ index.toInt.toNat ≤ length then return index.toInt.toNat
      else throw (.indexOutOfBounds index length)
  | other => throw (.wrongType "assoc" "integer" other.typeName)

def setOrPush (items : List Value) (index : Nat) (value : Value) : List Value :=
  if index = items.length then items ++ [value] else items.set index value

def assoc (collection key value : Value) : Attempt Value :=
  match collection with
  | nil => ofPairs [(key, value)]
  | arrayMap handle _ metadata => do
      let copy ← openHandle (·.share handle)
      (← MapTable.assocSmall copy key value).toValue metadata
  | hashMap _ entries metadata => do
      newHashMap (← HashTable.assoc entries key value) metadata
  | sortedMap _ entries metadata => do
      newSortedMap (← SortedTable.assoc entries key value) metadata
  | vector _ items metadata => do
      let index ← updateIndex key items.length
      newVector (setOrPush items index value) metadata
  | other => throw (.wrongType "assoc" "map or vector" other.typeName)

/-- An array map without the key is not copied. -/
def dissoc (collection key : Value) : Attempt Value :=
  match collection with
  | nil => return nil
  | arrayMap handle _ metadata => do
      if ← collection.containsKey key then
        let copy ← openHandle (·.share handle)
        HandleTable.erase copy key
        ofHandle copy metadata
      else return collection
  | hashMap _ entries metadata => do
      newHashMap (← HashTable.dissoc entries key) metadata
  | sortedMap _ entries metadata => do
      newSortedMap (← SortedTable.dissoc entries key) metadata
  | other => throw (.wrongType "dissoc" "map" other.typeName)

/-- A map takes an entry as a vector of two, or all entries of another map. -/
def conjEntry (map item : Value) : Attempt Value :=
  match item with
  | vector _ [key, value] _ => map.assoc key value
  | _ =>
      match item.mapEntries? with
      | some entries => entries.foldlM (fun map entry => map.assoc entry.1 entry.2) map
      | none => throw (.wrongType "conj" "map entry vector" item.typeName)

/-- Adds where the collection adds naturally: lists and seqs at the front,
vectors at the end. -/
def conj (collection item : Value) : Attempt Value :=
  match collection with
  | nil => newList [item] none
  | list _ items metadata => newList (item :: items) metadata
  | vector _ items metadata => newVector (items ++ [item]) metadata
  | cons .. | lazySeq .. => newCons item collection
  | arrayMap .. | hashMap .. | sortedMap .. => conjEntry collection item
  | hashSet _ items metadata => do newHashSet (← HashTable.addItem items item) metadata
  | sortedSet _ items metadata => do
      newSortedSet (← SortedTable.addItem items item) metadata
  | other => throw (.wrongType "conj" "collection" other.typeName)

def disj (collection item : Value) : Attempt Value :=
  match collection with
  | nil => return nil
  | hashSet _ items metadata => do newHashSet (← HashTable.removeItem items item) metadata
  | sortedSet _ items metadata => do
      newSortedSet (← SortedTable.removeItem items item) metadata
  | other => throw (.wrongType "disj" "set" other.typeName)

/-- Removes the element that `peek` shows. -/
def pop (collection : Value) : Attempt Value :=
  match collection with
  | nil => return nil
  | list _ [] _ => throw (.evaluation "Can't pop empty list")
  | list _ items metadata => newList items.tail metadata
  | vector _ [] _ => throw (.evaluation "Can't pop empty vector")
  | vector _ items metadata => newVector items.dropLast metadata
  | other => throw (.wrongType "pop" "list or vector" other.typeName)

/-- A collection of the same kind without elements. -/
def emptied (collection : Value) : Run Value :=
  match collection with
  | list _ _ metadata => newList [] metadata
  | cons .. | lazySeq .. => newList [] none
  | vector _ _ metadata => newVector [] metadata
  | arrayMap _ _ metadata => do ofHandle (← openHandle ArrayMap.Pool.create) metadata
  | hashMap _ _ metadata => newHashMap [] metadata
  | sortedMap _ _ metadata => newSortedMap [] metadata
  | hashSet _ _ metadata => newHashSet [] metadata
  | sortedSet _ _ metadata => newSortedSet [] metadata
  | _ => return nil

end LispRuntime.Value
