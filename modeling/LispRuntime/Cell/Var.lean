import LispRuntime.Collection.Access

/-! Vars. A var has a root value that every thread sees, unless the thread has
a binding of its own for it. -/

namespace LispRuntime

namespace Run

/-- The thread that is running. -/
def thread : Run ThreadId := do return (← get).thread

end Run

namespace Var

abbrev Cell := Ref .var

def change (cell : Cell) (change : VarCell → VarCell) : Run Unit :=
  Run.update fun world => { world with vars := world.vars.modify cell.index change }

/-- Named by its namespace and its name. -/
def symbol (cell : Cell) : Run Symbol := do
  let var ← Run.varAt cell
  return Symbol.qualifiedName var.homeName.name var.name.name

/-! ## Roots -/

def root (cell : Cell) : Run (Option Value) := do
  return (← Run.varAt cell).root

def bindRoot (cell : Cell) (value : Value) : Run Unit :=
  change cell fun var => { var with root := some value }

def unbindRoot (cell : Cell) : Run Unit :=
  change cell fun var => { var with root := none }

/-- The new root is what a function makes of the old one, nil if there was
none. -/
def alterRoot (cell : Cell) (function : Value) (arguments : List Value) :
    Attempt Value := do
  let old := (← root cell).getD .nil
  let new ← Attempt.call function (old :: arguments)
  bindRoot cell new
  return new

/-! ## Bindings of the running thread -/

def binding (cell : Cell) : Run (Option Value) := do
  return (← get).bindings.value? (← Run.thread) cell

def isThreadBound (cell : Cell) : Run Bool := do
  return (← get).bindings.isBound (← Run.thread) cell

def isBound (cell : Cell) : Run Bool := do
  if (← root cell).isSome then return true
  isThreadBound cell

/-- The binding of this thread, or else the root. -/
def deref (cell : Cell) : Attempt Value := do
  match ← binding cell with
  | some value => return value
  | none =>
      match ← root cell with
      | some value => return value
      | none => throw (.unboundVar (← Run.varAt cell).qualifiedName)

/-- Assigns the binding of this thread; a root is never assigned. -/
def assign (cell : Cell) (value : Value) : Attempt Value := do
  let world ← get
  match world.bindings.assign world.thread cell value with
  | .ok bindings =>
      set { world with bindings := bindings }
      return value
  | .error .unbound => throw (.varNotThreadBound (← Run.varAt cell).qualifiedName)
  | .error .foreign => throw (.setFromForeignThread (← Run.varAt cell).qualifiedName)

def isDynamic (cell : Cell) : Run Bool := do
  return (← Run.varAt cell).isDynamic

def setDynamic (cell : Cell) (isDynamic : Bool) : Run Unit :=
  change cell fun var => { var with isDynamic := isDynamic }

/-! ## Metadata -/

def metadata (cell : Cell) : Run (Option Value) := do
  return (← Run.varAt cell).metadata

def setMetadata (cell : Cell) (metadata : Option Value) : Run Unit :=
  change cell fun var => { var with metadata := metadata }

/-- Public unless the metadata says private. -/
def isPublic (cell : Cell) : Run Bool := do
  match ← metadata cell with
  | none => return true
  | some metadata =>
      return !(← metadata.getKey (.keyword (Keyword.named "private"))).isTruthy

end Var

end LispRuntime
