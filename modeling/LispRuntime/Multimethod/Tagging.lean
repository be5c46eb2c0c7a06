import LispRuntime.Value.Equality

/-! Values become tags by looking them up among the values that have served as
tags before. -/

namespace LispRuntime.Value

/-- The label of a value in a list of labelled values, whose positions start
from a number. -/
def labelIn (hash : UInt32) (sought : Value) (position : Nat) :
    List (UInt32 × Value) → Run (Option Nat)
  | [] => return none
  | (stored, value) :: rest => do
      if stored == hash then
        if ← equal sought value then return some position
      labelIn hash sought (position + 1) rest

def label (value : Value) : Run Nat := do
  let hash ← value.hash
  match ← labelIn hash value 0 (← get).tags with
  | some label => return label
  | none =>
      let world ← get
      set { world with tags := world.tags ++ [(hash, value)] }
      return world.tags.length

def toTagWithin : Nat → Value → Run (Tag Value)
  | 0, _ => Run.stuck
  | fuel + 1, value => do
      let label ← value.label
      match value with
      | vector _ items _ => return .vector label value (← items.mapM (toTagWithin fuel))
      | _ => return .plain label value

def toTag (value : Value) : Run (Tag Value) := do
  toTagWithin (← Run.limit) value

end LispRuntime.Value
