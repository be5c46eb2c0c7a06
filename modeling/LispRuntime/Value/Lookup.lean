import LispRuntime.Value.Comparison
import LispRuntime.Value.Hashing

/-! Finding, adding and removing by key. Array maps are scanned, hash maps and
sets compare only keys whose hashes agree, and sorted maps and sets compare in
order. Each kind of table is written for elements of any shape from which a
key can be read; the test for equality is given, so that equality itself can
be defined on top of looking up. -/

namespace LispRuntime

/-! ## Hashed tables -/

namespace HashTable

variable {ε : Type}

/-- Looks for a key that has this hash, and compares the sought key with it. -/
def find? (keyOf : ε → UInt32 × Value) (equal : Value → Value → Run Bool)
    (hash : UInt32) (sought : Value) : List ε → Run (Option ε)
  | [] => return none
  | element :: rest => do
      let (stored, key) := keyOf element
      if stored == hash then
        if ← equal sought key then return some element
      HashTable.find? keyOf equal hash sought rest

/-- Takes the place of an element with an equal key, key and all. -/
def insert (keyOf : ε → UInt32 × Value) (equal : Value → Value → Run Bool)
    (new : ε) : List ε → Run (List ε)
  | [] => return [new]
  | element :: rest => do
      let (stored, key) := keyOf element
      let (hash, added) := keyOf new
      if stored == hash then
        if ← equal key added then return new :: rest
      return element :: (← HashTable.insert keyOf equal new rest)

def erase (keyOf : ε → UInt32 × Value) (equal : Value → Value → Run Bool)
    (hash : UInt32) (sought : Value) : List ε → Run (List ε)
  | [] => return []
  | element :: rest => do
      let (stored, key) := keyOf element
      if stored == hash then
        if ← equal sought key then return rest
      return element :: (← HashTable.erase keyOf equal hash sought rest)

end HashTable

/-! ## Sorted tables -/

namespace SortedTable

variable {ε : Type}

def find? (keyOf : ε → Value) (compare : Value → Value → Run Ordering)
    (sought : Value) : List ε → Run (Option ε)
  | [] => return none
  | element :: rest => do
      match ← compare (keyOf element) sought with
      | .eq => return some element
      | .gt => return none
      | .lt => SortedTable.find? keyOf compare sought rest

/-- Takes the place of an element with an equal key, key and all. -/
def insert (keyOf : ε → Value) (compare : Value → Value → Run Ordering)
    (new : ε) : List ε → Run (List ε)
  | [] => return [new]
  | element :: rest => do
      match ← compare (keyOf element) (keyOf new) with
      | .eq => return new :: rest
      | .gt => return new :: element :: rest
      | .lt => return element :: (← SortedTable.insert keyOf compare new rest)

def erase (keyOf : ε → Value) (compare : Value → Value → Run Ordering)
    (sought : Value) : List ε → Run (List ε)
  | [] => return []
  | element :: rest => do
      match ← compare (keyOf element) sought with
      | .eq => return rest
      | .gt => return element :: rest
      | .lt => return element :: (← SortedTable.erase keyOf compare sought rest)

end SortedTable

namespace Value

abbrev HashedEntry := UInt32 × Value × Value
abbrev HashedItem := UInt32 × Value

def hashedKey (entry : HashedEntry) : UInt32 × Value := (entry.1, entry.2.1)

/-- A keyword is sought by what it is, any other key by equality. -/
def isSoughtKey (equal : Value → Value → Run Bool) (sought stored : Value) : Run Bool :=
  match sought with
  | keyword name =>
      match stored with
      | keyword other => return name == other
      | _ => return false
  | _ => equal stored sought

/-- The value of a key in a map, with a given test for equality. -/
def lookupWith (equal : Value → Value → Run Bool) (fuel : Nat) (map sought : Value) :
    Run (Option Value) :=
  match map with
  | arrayMap _ entries _ => do
      match ← ArrayMap.PoolAccess.placeIn (isSoughtKey equal sought) entries with
      | some place => return (entries[place]?).map Prod.snd
      | none => return none
  | hashMap _ entries _ => do
      let hash ← hashWithin fuel sought
      return (← HashTable.find? hashedKey equal hash sought entries).map (·.2.2)
  | sortedMap _ entries _ => do
      return (← SortedTable.find? Prod.fst (compareWithin fuel) sought entries).map Prod.snd
  | _ => return none

/-- Is there such an element in a set? -/
def memberWith (equal : Value → Value → Run Bool) (fuel : Nat) (set sought : Value) :
    Run Bool :=
  match set with
  | hashSet _ items _ => do
      let hash ← hashWithin fuel sought
      return (← HashTable.find? id equal hash sought items).isSome
  | sortedSet _ items _ => do
      return (← SortedTable.find? id (compareWithin fuel) sought items).isSome
  | _ => return false

end Value

end LispRuntime
