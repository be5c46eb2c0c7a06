import LispRuntime.Script.Evaluation

/-! Sessions. A script is run step by step in one world. The result of a step
goes into a slot of its own, where later steps find it; the slot of a step that
failed stays empty. What a step did before it failed remains done. -/

namespace LispRuntime.Script

structure Session where
  world : World
  slots : List (Option Operand)
deriving Inhabited

/-- What can be seen of a step: its result or its error, and what it logged. -/
structure Answer where
  result : Except Error View
  log : List View
deriving Inhabited

namespace Session

def start : Session := ⟨.initial, []⟩

/-- How many steps a walk may take, and how many calls may be nested. -/
def limit : Nat := 1000000

/-- Runs an attempt from the world of the session. What is in the slots is held
all the time. -/
def run {α : Type} (session : Session) (attempt : Run α) : Option (α × World) :=
  let held := session.slots.filterMap id
  attempt (machine session.slots limit limit held) { session.world with log := [] }

/-- Evaluates one expression and takes a view of the result. -/
def observe (session : Session) (expression : Expr) :
    Run (Except Error (Operand × View)) := do
  match ← Run.outcome (evaluate ⟨session.slots, []⟩ expression) with
  | .error error => return .error error.settled
  | .ok operand => return .ok (operand, ← operand.view)

def addSlot (session : Session) (world : World) (slot : Option Operand) : Session :=
  ⟨world, session.slots ++ [slot]⟩

/-- A step that has no answer leaves the world as it was. -/
def step (session : Session) (expression : Expr) : Option Answer × Session :=
  match session.run (session.observe expression) with
  | none => (none, session.addSlot session.world none)
  | some (.ok (operand, view), world) =>
      (some ⟨.ok view, world.log⟩, session.addSlot world (some operand))
  | some (.error error, world) =>
      (some ⟨.error error, world.log⟩, session.addSlot world none)

/-- A step that cannot be read. -/
def skip (session : Session) : Session := session.addSlot session.world none

end Session

end LispRuntime.Script
