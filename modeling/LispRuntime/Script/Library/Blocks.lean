import LispRuntime.Collection.Tables
import LispRuntime.Script.Operation
import LispRuntime.World.Reach

/-! Operations on array maps that can still be written to. Before a write, maps
that nobody can reach any more give their blocks up. -/

namespace LispRuntime.Script.Library

open Operation

namespace Blocks

def create : Run Block := do
  return ⟨← Value.openHandle ArrayMap.Pool.create⟩

/-- A new map that reads the same block. -/
def share (block : Block) : Run Block := do
  return ⟨← Value.openHandle (·.share block.handle)⟩

def copyExact (block : Block) : Run Block := do
  return ⟨← Value.openHandle (·.copyExact block.handle)⟩

def append (block : Block) (key value : Value) : Attempt Block := do
  Run.retireUnreached
  HandleTable.append block.handle key value
  return block

def assign (block : Block) (key value : Value) : Attempt Block := do
  Run.retireUnreached
  HandleTable.assign block.handle key value
  return block

def erase (block : Block) (key : Value) : Run Block := do
  Run.retireUnreached
  HandleTable.erase block.handle key
  return block

def reserve (block : Block) (pairs : Nat) : Attempt Block := do
  HandleTable.reserve block.handle pairs
  return block

def find? (block : Block) (key : Value) : Run (Option Value) :=
  HandleTable.find? block.handle key

def has (block : Block) (key : Value) : Run Bool :=
  HandleTable.has block.handle key

def hash (block : Block) : Run UInt32 := HandleTable.hash block.handle

def isEmpty (block : Block) : Run Bool := do
  return (← HandleTable.entries block.handle).isEmpty

def keys (block : Block) : Run (List Value) := do
  return (← HandleTable.entries block.handle).map Prod.fst

/-- The map as it is now, as a value with a handle. -/
def contents (block : Block) : Run Value := do
  return .arrayMap block.handle (← HandleTable.entries block.handle) none

def equal (left right : Block) : Run Bool := do
  let leftEntries ← HandleTable.entries left.handle
  let rightEntries ← HandleTable.entries right.handle
  Value.equalMaps Value.equal (← Run.limit) leftEntries rightEntries (← contents right)

def sharesBlock (left right : Block) : Run Bool := do
  return (← get).maps.sharesBlock left.handle right.handle

/-- Publishes a map that reads the same block. -/
def toValue (block : Block) : Run Value := do
  Value.ofHandle (← Value.openHandle (·.share block.handle)) none

def ofValue (value : Value) : Attempt Block :=
  match value.handle? with
  | some handle => do share ⟨handle⟩
  | none => misuse 0 "array map"

end Blocks

def blocks : Table :=
  [ named "am_new" Blocks.create,
    named "am_clone" Blocks.share,
    named "am_clone_exact" Blocks.copyExact,
    named "am_insert_unique" Blocks.append,
    named "am_assign" Blocks.assign,
    named "am_erase" Blocks.erase,
    named "am_reserve" Blocks.reserve,
    named "am_find" Blocks.find?,
    named "am_contains" Blocks.has,
    named "am_hash" Blocks.hash,
    named "am_is_empty" Blocks.isEmpty,
    named "am_keys" Blocks.keys,
    named "am_eq" Blocks.equal,
    named "am_shares" Blocks.sharesBlock,
    named "am_value" Blocks.toValue,
    named "am_of" Blocks.ofValue ]

end LispRuntime.Script.Library
