import LispRuntime.Cell.Var
import LispRuntime.Collection.Tables

/-! Binding frames of the running thread, and work on other threads. -/

namespace LispRuntime.Binding

def setBindings (bindings : Bindings Value) : Run Unit :=
  Run.update fun world => { world with bindings := bindings }

/-- The first var that must not be bound. -/
def firstStatic : List (Ref .var × Value) → Run (Option (Ref .var))
  | [] => return none
  | (var, _) :: rest => do
      if ← Var.isDynamic var then firstStatic rest else return some var

/-- Every var has to be dynamic; otherwise nothing is pushed. -/
def push (added : List (Ref .var × Value)) : Attempt Unit := do
  match ← firstStatic added with
  | some var => throw (.nonDynamicBinding (← Run.varAt var).qualifiedName)
  | none => setBindings ((← get).bindings.push (← Run.thread) added)

def varPairs : List (Value × Value) → Except Error (List (Ref .var × Value))
  | [] => .ok []
  | (.var cell, value) :: rest => do return (cell, value) :: (← varPairs rest)
  | (other, _) :: _ => .error (.wrongType "push-thread-bindings" "var" other.typeName)

/-- Bindings may come as a map from vars to values. -/
def pushMap (map : Value) : Attempt Unit :=
  match map.mapEntries? with
  | none => throw (.wrongType "push-thread-bindings" "map" map.typeName)
  | some entries => do push (← Attempt.ofExcept (varPairs entries))

def pop : Attempt Unit := do
  match (← get).bindings.pop (← Run.thread) with
  | some bindings => setBindings bindings
  | none => throw .bindingStackUnderflow

/-- Runs a body with bindings, and pops a frame whatever comes of it. -/
def within {α : Type} (added : List (Ref .var × Value)) (body : Attempt α) : Attempt α := do
  push added
  let outcome ← Attempt.outcome body
  let _ ← Attempt.outcome pop
  Attempt.ofExcept outcome

/-- The visible bindings as a map. -/
def asMap : Attempt Value := do
  let current := (← get).bindings.current (← Run.thread)
  Value.ofPairs (current.map fun entry => (.var entry.1, entry.2))

def depth : Run Nat := do
  return (← get).bindings.depth (← Run.thread)

/-! ## Conveyance -/

def capture : Run Stack := do
  return (← get).bindings.stackOf (← Run.thread)

/-- Puts a stack in the place of the one that is there, and answers with that. -/
def install (stack : Stack) : Run Stack := do
  let old ← capture
  setBindings ((← get).bindings.setStack (← Run.thread) stack)
  return old

/-! ## Threads -/

/-- A new thread, with no bindings and no limit to what is printed. -/
def spawn : Run ThreadId := do
  let world ← get
  let (thread, bindings) := world.bindings.fork
  set { world with
    bindings := bindings
    printLengths := world.printLengths.push none }
  return thread

/-- It is the turn of a thread. -/
def switchTo (thread : ThreadId) : Run Unit :=
  Run.update fun world => { world with thread := thread }

/-- Runs a body to its end on a new thread. What is bound there in the end is
given up with the thread. -/
def onNewThread {α : Type} (body : Run α) : Run α := do
  let caller ← Run.thread
  let thread ← spawn
  switchTo thread
  let answer ← body
  switchTo caller
  setBindings ((← get).bindings.setStack thread none)
  return answer

end LispRuntime.Binding
