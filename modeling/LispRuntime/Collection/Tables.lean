import LispRuntime.Value.Equality

/-! Writing to the tables that maps and sets are made of, with the equality,
the hash and the order of values. -/

namespace LispRuntime

namespace HandleTable

def entries (handle : Nat) : Run (List (Value × Value)) := do
  return (← get).maps.entries handle

def size (handle : Nat) : Run Nat := do
  return (← entries handle).length

def isSought (key stored : Value) : Run Bool := Value.isSoughtKey Value.equal key stored

def placeOf (handle : Nat) (key : Value) : Run (Option Nat) :=
  Run.pool.placeOf (isSought key) handle

def has (handle : Nat) (key : Value) : Run Bool := do
  return (← placeOf handle key).isSome

def find? (handle : Nat) (key : Value) : Run (Option Value) := do
  match ← placeOf handle key with
  | some place => return ((← entries handle)[place]?).map Prod.snd
  | none => return none

/-- Is there room for one more pair, or a pair of this key? -/
def fits (handle : Nat) (key : Value) : Run Bool := do
  if (← size handle) < ArrayMap.maxPairs then return true
  has handle key

def append (handle : Nat) (key value : Value) : Attempt Unit :=
  ExceptT.mk (Run.pool.append handle key value)

def assign (handle : Nat) (key value : Value) : Attempt Unit :=
  ExceptT.mk (Run.pool.assign (isSought key) handle key value)

def erase (handle : Nat) (key : Value) : Run Unit :=
  Run.pool.erase (isSought key) handle

def reserve (handle pairs : Nat) : Attempt Unit :=
  ExceptT.mk (Run.pool.reserve handle pairs)

def retire (handle : Nat) : Run Unit :=
  Run.update fun world => { world with maps := world.maps.retire handle }

def hash (handle : Nat) : Run UInt32 := do
  Run.pool.hash (Value.hashEntries (Value.hashWithin (← Run.limit))) handle

end HandleTable

namespace HashTable

def assoc (entries : List Value.HashedEntry) (key value : Value) :
    Run (List Value.HashedEntry) := do
  let hash ← key.hash
  insert Value.hashedKey Value.equal (hash, key, value) entries

def dissoc (entries : List Value.HashedEntry) (key : Value) :
    Run (List Value.HashedEntry) := do
  let hash ← key.hash
  erase Value.hashedKey Value.equal hash key entries

def ofEntries (entries : List (Value × Value)) : Run (List Value.HashedEntry) :=
  entries.foldlM (fun table entry => assoc table entry.1 entry.2) []

def addItem (items : List Value.HashedItem) (item : Value) :
    Run (List Value.HashedItem) := do
  let hash ← item.hash
  insert id Value.equal (hash, item) items

def removeItem (items : List Value.HashedItem) (item : Value) :
    Run (List Value.HashedItem) := do
  let hash ← item.hash
  erase id Value.equal hash item items

def ofItems (items : List Value) : Run (List Value.HashedItem) :=
  items.foldlM addItem []

end HashTable

namespace SortedTable

def assoc (entries : List (Value × Value)) (key value : Value) :
    Run (List (Value × Value)) :=
  insert Prod.fst Value.compare (key, value) entries

def dissoc (entries : List (Value × Value)) (key : Value) : Run (List (Value × Value)) :=
  erase Prod.fst Value.compare key entries

def ofEntries (entries : List (Value × Value)) : Run (List (Value × Value)) :=
  entries.foldlM (fun table entry => assoc table entry.1 entry.2) []

def addItem (items : List Value) (item : Value) : Run (List Value) :=
  insert id Value.compare item items

def removeItem (items : List Value) (item : Value) : Run (List Value) :=
  erase id Value.compare item items

def ofItems (items : List Value) : Run (List Value) :=
  items.foldlM addItem []

end SortedTable

/-! ## Maps that grow -/

/-- A map is small as long as an array map can hold it. -/
inductive MapTable where
  | small (handle : Nat)
  | hashed (entries : List Value.HashedEntry)

namespace MapTable

/-- Goes on with a hash map of what an array map has. -/
def promote (handle : Nat) (key value : Value) : Run MapTable := do
  let promoted ← HashTable.ofEntries (← HandleTable.entries handle)
  HandleTable.retire handle
  return hashed (← HashTable.assoc promoted key value)

/-- A new key for an array map that is full makes a hash map of it, and so does
a key that was found there and is not found again when it comes to writing. -/
def assocSmall (handle : Nat) (key value : Value) : Attempt MapTable := do
  if ← HandleTable.fits handle key then
    match ← Attempt.outcome (HandleTable.assign handle key value) with
    | .ok () => return small handle
    | .error _ => promote handle key value
  else promote handle key value

def assoc (table : MapTable) (key value : Value) : Attempt MapTable :=
  match table with
  | small handle => assocSmall handle key value
  | hashed entries => do return hashed (← HashTable.assoc entries key value)

def toValue (table : MapTable) (metadata : Option Value) : Run Value :=
  match table with
  | small handle => Value.ofHandle handle metadata
  | hashed entries => Value.newHashMap entries metadata

end MapTable

namespace Value

/-! ## Making collections

The last of several equal keys or elements counts. -/

def ofPairs (pairs : List (Value × Value)) : Attempt Value := do
  let handle ← openHandle ArrayMap.Pool.create
  let table ←
    pairs.foldlM (fun table pair => MapTable.assoc table pair.1 pair.2)
      (.small handle)
  table.toValue none

def hashMapOf (pairs : List (Value × Value)) : Run Value := do
  newHashMap (← HashTable.ofEntries pairs) none

def sortedMapOf (pairs : List (Value × Value)) : Run Value := do
  newSortedMap (← SortedTable.ofEntries pairs) none

def hashSetOf (items : List Value) : Run Value := do
  newHashSet (← HashTable.ofItems items) none

def sortedSetOf (items : List Value) : Run Value := do
  newSortedSet (← SortedTable.ofItems items) none

end Value

end LispRuntime
