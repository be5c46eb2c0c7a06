import LispRuntime.Error
import LispRuntime.Ref

/-! Array maps keep their pairs side by side in one block and are searched from
the front. Several maps may read from one block: a copy of a map is a new
handle on the block of the old one. A write goes in place when the writing
handle is the only one on its block, and otherwise to a block of its own, so
that what one handle denotes never changes through another. -/

namespace LispRuntime.ArrayMap

/-- Most pairs that an array map holds. -/
def maxPairs : Nat := 8

/-- Room for as many pairs as there are places; places that no pair has taken
yet, or that a pair has left, are empty. -/
abbrev Block (α : Type) := List (Option (α × α))

structure Handle where
  block : Nat
  /-- How many places, from the front, belong to this map. -/
  pairs : Nat
  /-- A memoized hash; zero when none is known. -/
  hash : UInt32
  /-- Nobody holds this handle any more. -/
  isRetired : Bool
deriving DecidableEq, Repr

/-- Blocks, and the handles on them. -/
structure Pool (α : Type) where
  blocks : Store (Block α)
  handles : Store Handle

instance {α : Type} : Inhabited (Pool α) := ⟨⟨.empty, .empty⟩⟩

namespace Pool

variable {α : Type}

def empty : Pool α := ⟨.empty, .empty⟩

def handle? (pool : Pool α) (id : Nat) : Option Handle :=
  pool.handles.get? id

def blockOf (pool : Pool α) (handle : Handle) : Block α :=
  (pool.blocks.get? handle.block).getD []

/-- What a handle denotes: its pairs in the order of their first insertion. -/
def entries (pool : Pool α) (id : Nat) : List (α × α) :=
  match pool.handle? id with
  | some handle => ((pool.blockOf handle).take handle.pairs).filterMap fun place => place
  | none => []

/-- Room of the block, in pairs. -/
def capacity (pool : Pool α) (id : Nat) : Nat :=
  match pool.handle? id with
  | some handle => (pool.blockOf handle).length
  | none => 0

def sharesBlock (pool : Pool α) (left right : Nat) : Bool :=
  match pool.handle? left, pool.handle? right with
  | some left, some right => left.block == right.block
  | _, _ => false

/-- Does a handle, with its position, read a block beside the handle at `id`? -/
def isOtherReader (id block : Nat) (entry : Handle × Nat) : Bool :=
  entry.2 != id && !entry.1.isRetired && entry.1.block == block

/-- Does nobody else read the block of this handle? -/
def isExclusive (pool : Pool α) (id : Nat) (handle : Handle) : Bool :=
  !(pool.handles.toList.zipIdx.any (isOtherReader id handle.block))

/-! Handles come from nothing, from a shared block, or from an exact copy. -/

def addHandle (pool : Pool α) (handle : Handle) : Nat × Pool α :=
  (pool.handles.next, { pool with handles := pool.handles.push handle })

def addBlock (pool : Pool α) (block : Block α) : Nat × Pool α :=
  (pool.blocks.next, { pool with blocks := pool.blocks.push block })

def setHandle (pool : Pool α) (id : Nat) (handle : Handle) : Pool α :=
  { pool with handles := pool.handles.set id handle }

def create (pool : Pool α) : Nat × Pool α :=
  let (block, pool) := pool.addBlock []
  pool.addHandle ⟨block, 0, 0, false⟩

/-- A new handle on the same block. -/
def share (pool : Pool α) (id : Nat) : Nat × Pool α :=
  match pool.handle? id with
  | some handle => pool.addHandle { handle with isRetired := false }
  | none => pool.create

/-- A new handle on a new block that has exactly the live pairs. -/
def copyExact (pool : Pool α) (id : Nat) : Nat × Pool α :=
  match pool.handle? id with
  | some handle =>
      let (block, pool) := pool.addBlock ((pool.blockOf handle).take handle.pairs)
      pool.addHandle { handle with block := block, isRetired := false }
  | none => pool.create

def retire (pool : Pool α) (id : Nat) : Pool α :=
  match pool.handle? id with
  | some handle => pool.setHandle id { handle with isRetired := true }
  | none => pool

/-- Retires every handle that is not held. -/
def retireExcept (pool : Pool α) (held : List Nat) : Pool α :=
  (List.range pool.handles.next).foldl
    (fun pool id => if held.contains id then pool else pool.retire id) pool

def memoize (pool : Pool α) (id : Nat) (hash : UInt32) : Pool α :=
  match pool.handle? id with
  | some handle => pool.setHandle id { handle with hash := hash }
  | none => pool

/-! Every write forgets the memoized hash. -/

/-- Gives the handle a block of its own. -/
def moveTo (pool : Pool α) (id : Nat) (block : Block α) (pairs : Nat) : Pool α :=
  let (index, pool) := pool.addBlock block
  pool.setHandle id ⟨index, pairs, 0, false⟩

/-- Writes the block in place if no other handle reads it. -/
def write (pool : Pool α) (id : Nat) (handle : Handle) (block : Block α)
    (pairs : Nat) : Pool α :=
  if pool.isExclusive id handle then
    { pool with blocks := pool.blocks.set handle.block block }.setHandle id
      ⟨handle.block, pairs, 0, false⟩
  else pool.moveTo id block pairs

/-- Adds a pair at the end. A spare place is taken only in a block of one's own;
otherwise the pairs move to a block with room for one more. -/
def append (pool : Pool α) (id : Nat) (key value : α) : Except Error (Pool α) :=
  match pool.handle? id with
  | none => .ok pool
  | some handle =>
      let block := pool.blockOf handle
      if handle.pairs + 1 ≤ block.length ∧ pool.isExclusive id handle then
        .ok (pool.write id handle (block.set handle.pairs (some (key, value)))
          (handle.pairs + 1))
      else if maxPairs < handle.pairs + 1 then
        .error (.mapOverflow (handle.pairs + 1))
      else
        .ok (pool.moveTo id (block.take handle.pairs ++ [some (key, value)])
          (handle.pairs + 1))

/-- Replaces the value of the pair at a place; its key stays. -/
def assignAt (pool : Pool α) (id place : Nat) (value : α) : Pool α :=
  match pool.handle? id with
  | none => pool
  | some handle =>
      let block := pool.blockOf handle
      pool.write id handle
        (block.modify place fun pair => pair.map fun pair => (pair.1, value))
        handle.pairs

/-- Takes the pair at a place out. Later pairs move up and the last place of the
map becomes empty; the block keeps its room. -/
def removeAt (pool : Pool α) (id place : Nat) : Pool α :=
  match pool.handle? id with
  | none => pool
  | some handle =>
      let block := pool.blockOf handle
      pool.write id handle
        (block.take place ++ (block.take handle.pairs).drop (place + 1) ++
          [none] ++ block.drop handle.pairs)
        (handle.pairs - 1)

/-- Makes room for a number of pairs. -/
def reserve (pool : Pool α) (id pairs : Nat) : Except Error (Pool α) :=
  if maxPairs < pairs then .error (.mapReserve pairs)
  else
    match pool.handle? id with
    | none => .ok pool
    | some handle =>
        let block := pool.blockOf handle
        if pairs ≤ block.length then .ok pool
        else
          let live := block.take handle.pairs
          let (index, pool) :=
            pool.addBlock (live ++ List.replicate (pairs - live.length) none)
          .ok (pool.setHandle id { handle with block := index })

end Pool

/-! Searching compares the keys from the front with a test that may have effects
of its own. So whatever searches is written for any monad in which there is a
pool to read and to write, and reads it anew after the search. -/

structure PoolAccess (m : Type → Type) (α : Type) where
  read : m (Pool α)
  write : Pool α → m Unit

namespace PoolAccess

variable {m : Type → Type} [Monad m] {α : Type}

/-- The first place whose key passes the test. -/
def placeIn (isSought : α → m Bool) : List (α × α) → m (Option Nat)
  | [] => pure none
  | (key, _) :: rest => do
      if ← isSought key then return some 0
      return (← placeIn isSought rest).map (· + 1)

def placeOf (access : PoolAccess m α) (isSought : α → m Bool) (id : Nat) :
    m (Option Nat) := do
  placeIn isSought ((← access.read).entries id)

/-- A refused write leaves the pool alone. -/
def install (access : PoolAccess m α) : Except Error (Pool α) → m (Except Error Unit)
  | .ok pool => do
      access.write pool
      return .ok ()
  | .error error => return .error error

/-- Appends a pair without looking for its key. -/
def append (access : PoolAccess m α) (id : Nat) (key value : α) :
    m (Except Error Unit) := do
  access.install ((← access.read).append id key value)

/-- Overwrites the value of a key that is there, and adds one that is not. -/
def assign (access : PoolAccess m α) (isSought : α → m Bool) (id : Nat)
    (key value : α) : m (Except Error Unit) := do
  match ← access.placeOf isSought id with
  | some place =>
      access.write ((← access.read).assignAt id place value)
      return .ok ()
  | none => access.append id key value

def erase (access : PoolAccess m α) (isSought : α → m Bool) (id : Nat) : m Unit := do
  match ← access.placeOf isSought id with
  | some place => access.write ((← access.read).removeAt id place)
  | none => return ()

def reserve (access : PoolAccess m α) (id pairs : Nat) : m (Except Error Unit) := do
  access.install ((← access.read).reserve id pairs)

/-- The hash of what a handle denotes, worked out once. A hash of zero cannot
be told from one that is not known. -/
def hash (access : PoolAccess m α) (hashEntries : List (α × α) → m UInt32)
    (id : Nat) : m UInt32 := do
  let pool ← access.read
  let known := ((pool.handle? id).map Handle.hash).getD 0
  if known != 0 then return known
  let computed ← hashEntries (pool.entries id)
  access.write ((← access.read).memoize id computed)
  return computed

end PoolAccess

end LispRuntime.ArrayMap
