import LispRuntime.Cell.Atom
import LispRuntime.Proofs.World.Running

/-! What functions do with an atom while they run. A function goes by its conduct: it makes
requests of the atom, calls other functions and does something elsewhere, one after the other,
and how it goes on may depend on all that it has seen. An update function, a validator or a watch
may do any of this, while the very request is under way that has called it. -/

namespace LispRuntime

namespace Atom

/-- What the requests of an atom are about. (Two states may hold the same value.) -/
structure State where
  value : Value
  revision : Nat
  validator : Option Value

def stateOf (atom : AtomCell) : State := ⟨atom.value, atom.revision, atom.validator⟩

def stateIn (cell : Cell) (world : World) : Option State :=
  (world.atoms.get? cell.index).map stateOf

/-- A world with one atom, as new. -/
def newIn (value : Value) : World :=
  { World.initial with atoms := Store.empty.push ⟨value, 0, none, []⟩ }

/-- An update takes effect at once, or not at all. -/
inductive Update where
  | swap (function : Value) (arguments : List Value)
  | swapValues (function : Value) (arguments : List Value)
  | reset (new : Value)
  | resetValues (new : Value)
  | compareAndSet (expected new : Value)

inductive Request (admissible : Value → Prop) where
  | update (made : Update)
  | setValidator (validator : Option (Subtype admissible))

inductive Answer where
  | state (new : Value)
  | states (old new : Value)
  | verdict (isTaken : Bool)
  | done

def Update.perform (cell : Cell) : Update → Attempt Answer
  | swap function arguments => return .state (← Atom.swap cell function arguments)
  | swapValues function arguments => do
      let states ← Atom.swapValues cell function arguments
      return .states states.1 states.2
  | reset new => return .state (← Atom.reset cell new)
  | resetValues new => do
      let states ← Atom.resetValues cell new
      return .states states.1 states.2
  | compareAndSet expected new => return .verdict (← Atom.compareAndSet cell expected new)

section

variable {cell : Cell} {admissible : Value → Prop}

def Request.perform (cell : Cell) : Request admissible → Attempt Answer
  | update made => made.perform cell
  | setValidator validator => do
      Atom.setValidator cell (validator.map Subtype.val)
      return .done

/-- What is done elsewhere: other cells may change, and so may the watches. -/
structure Elsewhere (cell : Cell) where
  change : World → World
  keeps : ∀ world, stateIn cell (change world) = stateIn cell world

inductive Conduct (cell : Cell) (admissible : Value → Prop) where
  | exit (outcome : Except Error Value)
  | ask (request : Request admissible) (goOn : Except Error Answer → Conduct cell admissible)
  | call (function : Value) (arguments : List Value)
      (goOn : Except Error Value → Conduct cell admissible)
  | elsewhere (other : Elsewhere cell) (goOn : World → Conduct cell admissible)

def Conduct.run : Conduct cell admissible → Attempt Value
  | exit outcome => Attempt.ofExcept outcome
  | ask request goOn => do (goOn (← Attempt.outcome (request.perform cell))).run
  | call function arguments goOn => do
      (goOn (← Attempt.outcome (Attempt.call function arguments))).run
  | elsewhere other goOn => do
      Attempt.ofRun (Run.update other.change)
      (goOn (← Attempt.ofRun get)).run

/-- All functions, by their conduct. -/
abbrev Library (cell : Cell) (admissible : Value → Prop) :=
  Value → List Value → Conduct cell admissible

/-- Calls functions of a library that call one another to some depth; a call that goes deeper
does not answer. -/
def Library.machine (library : Library cell admissible) (held : List Operand) (limit : Nat) :
    Nat → Machine
  | 0 => ⟨fun _ _ _ _ => none, held, limit⟩
  | depth + 1 =>
      ⟨fun _ function arguments world =>
        (library function arguments).run.run (library.machine held limit depth) world, held, limit⟩

end

/-! ## States after a change -/

variable {cell : Cell} {machine : Machine} {world after : World} {state : State}

def State.installing (state : State) (value : Value) : State :=
  { state with value := value, revision := state.revision + 1 }

def State.guarding (state : State) (validator : Option Value) : State :=
  { state with validator := validator }

theorem stateIn_modify {change : AtomCell → AtomCell} (changed : State → State)
    (same : ∀ atom, stateOf (change atom) = changed (stateOf atom)) :
    stateIn cell { world with atoms := world.atoms.modify cell.index change } =
      (stateIn cell world).map changed := by
  rw [stateIn, Store.get?_modify, if_pos rfl, stateIn, Option.map_map, Option.map_map]
  exact Option.map_congr fun atom _ => same atom

/-- The world with a new state of the atom. -/
def installedIn (cell : Cell) (world : World) (value : Value) : World :=
  { world with atoms := world.atoms.modify cell.index fun atom =>
      { atom with value := value, revision := atom.revision + 1 } }

def guardedIn (cell : Cell) (world : World) (validator : Option Value) : World :=
  { world with atoms := world.atoms.modify cell.index fun atom =>
      { atom with validator := validator } }

theorem stateIn_installedIn (here : stateIn cell world = some state) (value : Value) :
    stateIn cell (installedIn cell world value) = some (state.installing value) := by
  rw [installedIn, stateIn_modify (·.installing value) fun _ => rfl, here]
  rfl

theorem stateIn_guardedIn (here : stateIn cell world = some state) (validator : Option Value) :
    stateIn cell (guardedIn cell world validator) = some (state.guarding validator) := by
  rw [guardedIn, stateIn_modify (·.guarding validator) fun _ => rfl, here]
  rfl

/-- A look at an atom. -/
theorem atomAt_run {atom : AtomCell} (ran : Run.atomAt cell machine world = some (atom, after)) :
    world = after ∧ world.atoms.get? cell.index = some atom ∧
      stateIn cell world = some (stateOf atom) := by
  rcases Run.exists_of_bind ran with ⟨_, _, seen, found⟩
  cases seen
  rcases Run.eq_some_of_found found with ⟨here, same⟩
  refine ⟨same, here, ?_⟩
  rw [stateIn, here, Option.map_some]

end Atom

end LispRuntime
