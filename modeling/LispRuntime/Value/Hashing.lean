import LispRuntime.Hash.Mix
import LispRuntime.Sequence.Cursor

/-! Hashes of values. Values that are equal hash alike, whatever kind of
sequence, map or set they are. A walk that fails ends the sequence for the
hash. -/

namespace LispRuntime.Value

/-- A hash of a value that is known by its identity. -/
def identityHash (value : Value) : UInt32 :=
  Hash.ofBits (UInt64.ofNat value.position)

/-- The hash of a map with these pairs. -/
def hashEntries (hashOf : Value → Run UInt32) (entries : List (Value × Value)) :
    Run UInt32 := do
  let hashes ← entries.mapM fun entry => do
    let key ← hashOf entry.1
    let value ← hashOf entry.2
    return Hash.entry key value
  return Hash.unordered hashes

def hashWithin : Nat → Value → Run UInt32
  | 0, _ => Run.stuck
  | fuel + 1, value =>
      match value with
      | nil => return 0
      | boolean true => return 1231
      | boolean false => return 1237
      | integer number => return Hash.ofInteger number
      | real number => return Hash.ofBits number.bits
      | character char => return Hash.ofWord (UInt32.ofNat char.toNat)
      | string _ text => return Hash.ofString text
      | symbol name _ => return name.hash
      | keyword name => return name.hash
      | list _ items _ | vector _ items _ => do
          return Hash.ordered (← items.mapM (hashWithin fuel))
      | cons .. | lazySeq .. => do
          let tally ←
            Cursor.foldElements
              (fun tally item => return Hash.Tally.pushOrdered tally (← hashWithin fuel item))
              fuel Hash.Tally.startOrdered (.pending value)
          return tally.close
      | arrayMap handle entries _ =>
          Run.pool.hash (fun _ => hashEntries (hashWithin fuel) entries) handle
      | hashMap _ entries _ => hashEntries (hashWithin fuel) (entries.map Prod.snd)
      | sortedMap _ entries _ => hashEntries (hashWithin fuel) entries
      | hashSet _ items _ => do
          return Hash.unordered (← (items.map Prod.snd).mapM (hashWithin fuel))
      | sortedSet _ items _ => do
          return Hash.unordered (← items.mapM (hashWithin fuel))
      | _ => return identityHash value

def hash (value : Value) : Run UInt32 := do
  value.hashWithin (← Run.limit)

end LispRuntime.Value
