import LispRuntime.World.Cells
import LispRuntime.World.Operand

/-! Computations over the world. A computation may call functions; what a call
does is up to the machine that it runs on. It may also never come to an end:
every walk through cells counts its steps, and a walk that takes more of them
than the machine allows has no answer. -/

namespace LispRuntime

structure Machine where
  /-- Calls a function on behalf of those who hold some operands. -/
  call : List Operand → Value → List Value → World →
    Option (Except Error Value × World)
  /-- What is in use around the computation. -/
  held : List Operand
  /-- How many steps a walk may take. -/
  limit : Nat

namespace Machine

def hold (operands : List Operand) (machine : Machine) : Machine :=
  { machine with held := operands ++ machine.held }

end Machine

/-- A computation that cannot fail. -/
abbrev Run := ReaderT Machine (StateT World Option)

/-- A computation that can fail. What it did before it failed remains done. -/
abbrev Attempt := ExceptT Error Run

namespace Run

variable {α : Type}

/-- Never answers. -/
def stuck : Run α := fun _ _ => none

/-- A cell that a reference refers to is always there. -/
def found : Option α → Run α
  | some cell => pure cell
  | none => stuck

def limit : Run Nat := do return (← read).limit

def update (change : World → World) : Run Unit := modify change

/-- The array maps of the world. -/
def pool : ArrayMap.PoolAccess Run Value where
  read := return (← get).maps
  write maps := update fun world => { world with maps := maps }

/-- The outcome of an attempt, error or not. -/
def outcome (attempt : Attempt α) : Run (Except Error α) := attempt.run

end Run

namespace Attempt

variable {α : Type}

def ofExcept : Except Error α → Attempt α
  | .ok value => pure value
  | .error error => throw error

/-- Something that cannot fail. -/
def ofRun (run : Run α) : Attempt α := ExceptT.lift run

def found (cell : Option α) : Attempt α := ofRun (Run.found cell)

/-- The outcome of an attempt, error or not, within another one. -/
def outcome (attempt : Attempt α) : Attempt (Except Error α) := ofRun attempt.run

/-- Calls a function value. -/
def call (function : Value) (arguments : List Value) : Attempt Value :=
  ExceptT.mk fun machine world => machine.call machine.held function arguments world

/-- Holds some operands while something else goes on. -/
def holding (operands : List Operand) (attempt : Attempt α) : Attempt α :=
  ExceptT.mk fun machine => attempt.run (machine.hold operands)

/-- Calls a function value for its truth. -/
def callTruthy (function : Value) (arguments : List Value) : Attempt Bool := do
  return (← call function arguments).isTruthy

end Attempt

/-! ## Allocation -/

namespace Run

def freshAddress : Run Nat := do
  let world ← get
  set { world with addresses := world.addresses + 1 }
  return world.addresses

end Run

namespace Value

def newString (text : String) : Run Value :=
  return string (← Run.freshAddress) text

def newList (items : List Value) (metadata : Option Value) : Run Value :=
  return list (← Run.freshAddress) items metadata

def newVector (items : List Value) (metadata : Option Value) : Run Value :=
  return vector (← Run.freshAddress) items metadata

def newCons (first rest : Value) : Run Value :=
  return cons (← Run.freshAddress) first rest

def newReduced (value : Value) : Run Value :=
  return reduced (← Run.freshAddress) value

def newHashMap (entries : List (UInt32 × Value × Value)) (metadata : Option Value) :
    Run Value :=
  return hashMap (← Run.freshAddress) entries metadata

def newSortedMap (entries : List (Value × Value)) (metadata : Option Value) :
    Run Value :=
  return sortedMap (← Run.freshAddress) entries metadata

def newHashSet (items : List (UInt32 × Value)) (metadata : Option Value) : Run Value :=
  return hashSet (← Run.freshAddress) items metadata

def newSortedSet (items : List Value) (metadata : Option Value) : Run Value :=
  return sortedSet (← Run.freshAddress) items metadata

/-- Publishes an array map. Nothing is written through its handle from now on,
so that its pairs stay what they are. -/
def ofHandle (handle : Nat) (metadata : Option Value) : Run Value :=
  return arrayMap handle ((← get).maps.entries handle) metadata

/-- A new handle on a part of the pool. -/
def openHandle (make : ArrayMap.Pool Value → Nat × ArrayMap.Pool Value) : Run Nat := do
  let world ← get
  let (handle, maps) := make world.maps
  set { world with maps := maps }
  return handle

def newDeferred (body : Value) : Run (Ref .deferred) := do
  let world ← get
  set { world with deferred := world.deferred.push (.pending body) }
  return ⟨world.deferred.next⟩

def newDelay (body : Value) : Run Value := return delay (← newDeferred body)

def newLazySeq (body : Value) : Run Value := return lazySeq (← newDeferred body)

/-- A lazy seq with nothing left to run. -/
def newRealized (value : Value) : Run Value := do
  let world ← get
  set { world with deferred := world.deferred.push (.realized value) }
  return lazySeq ⟨world.deferred.next⟩

def newFunction (name : String) (cell : FunctionCell) : Run Value := do
  let world ← get
  set { world with functions := world.functions.push cell }
  return function ⟨world.functions.next⟩ name

end Value

end LispRuntime
