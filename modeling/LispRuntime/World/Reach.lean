import LispRuntime.World.Run

/-! What can still be reached. An array map is written in place when nobody else
reads its block, so before such a write the handles that nobody can reach any
more are retired. The walk starts from what is held and from the stacks of
bindings, and looks into every cell once. -/

namespace LispRuntime

/-- A cell of any kind. -/
structure Place where
  kind : CellKind
  index : Nat
deriving DecidableEq, Repr

namespace Value

def entryParts (entries : List (Value × Value)) : List Value :=
  entries.flatMap fun entry => [entry.1, entry.2]

/-- The values that a value is made of, its metadata included. -/
def parts : Value → List Value
  | symbol _ metadata => metadata.toList
  | list _ items metadata => items ++ metadata.toList
  | cons _ first rest => [first, rest]
  | vector _ items metadata => items ++ metadata.toList
  | arrayMap _ entries metadata => entryParts entries ++ metadata.toList
  | hashMap _ entries metadata =>
      entryParts (entries.map Prod.snd) ++ metadata.toList
  | sortedMap _ entries metadata => entryParts entries ++ metadata.toList
  | hashSet _ items metadata => items.map Prod.snd ++ metadata.toList
  | sortedSet _ items metadata => items ++ metadata.toList
  | reduced _ value => [value]
  | _ => []

/-- The cell that a value refers to. -/
def place? : Value → Option Place
  | transient cell => some ⟨.transient, cell.index⟩
  | var cell => some ⟨.var, cell.index⟩
  | space cell => some ⟨.space, cell.index⟩
  | atom cell => some ⟨.atom, cell.index⟩
  | volatile cell => some ⟨.volatile, cell.index⟩
  | multimethod cell => some ⟨.multimethod, cell.index⟩
  | hierarchy cell => some ⟨.hierarchy, cell.index⟩
  | delay cell => some ⟨.deferred, cell.index⟩
  | lazySeq cell => some ⟨.deferred, cell.index⟩
  | function cell _ => some ⟨.function, cell.index⟩
  | _ => none

/-- The handle that an array map was published under. -/
def handle? : Value → Option Nat
  | arrayMap handle .. => some handle
  | _ => none

end Value

/-! ## What cells keep -/

namespace Deferred

def kept : Deferred → List Value
  | pending body => [body]
  | running body => [body]
  | realized value => [value]

end Deferred

namespace AtomCell

def kept (cell : AtomCell) : List Value :=
  cell.value :: cell.validator.toList ++ Value.entryParts cell.watches

end AtomCell

namespace VarCell

def kept (cell : VarCell) : List Value := cell.root.toList ++ cell.metadata.toList

end VarCell

namespace SpaceCell

def kept (cell : SpaceCell) : List Value :=
  (cell.mappings.map fun mapping => Value.var mapping.2) ++
    cell.aliases.map fun target => Value.space target.2

end SpaceCell

namespace HierarchyCell

def kept (cell : HierarchyCell) : List Value :=
  let tables :=
    [cell.hierarchy.parents, cell.hierarchy.ancestors, cell.hierarchy.descendants]
  tables.flatMap fun table =>
    table.flatMap fun entry => entry.1.value :: entry.2.map Tag.value

end HierarchyCell

namespace MultimethodCell

def kept (cell : MultimethodCell) : List Value :=
  let methods := cell.tables.methods ++ cell.tables.cache
  [cell.dispatch, cell.default, .hierarchy cell.hierarchy] ++
    (methods.flatMap fun entry => [entry.1.value, entry.2]) ++
    cell.tables.preferences.flatMap fun entry =>
      entry.1.value :: entry.2.map Tag.value

end MultimethodCell

namespace Editable

def kept : Editable → List Operand
  | arrayMap handle => [.block handle]
  | hashMap entries => (Value.entryParts (entries.map Prod.snd)).map .value
  | sortedMap entries => (Value.entryParts entries).map .value
  | vector items => items.map .value
  | hashSet items => items.map fun item => .value item.2
  | sortedSet items => items.map .value

end Editable

namespace RegistryCell

def kept (cell : RegistryCell) : List Value :=
  [.space cell.core, .var cell.currentSpace, .var cell.printLength,
    .hierarchy cell.hierarchy] ++ cell.spaces.map fun space => .space space.2

end RegistryCell

namespace World

/-- What the cell at a place keeps. -/
def keptAt (world : World) (place : Place) : List Operand :=
  let keptIn {α : Type} (store : Store α) (kept : α → List Value) : List Operand :=
    ((store.get? place.index).elim [] kept).map .value
  match place.kind with
  | .deferred => keptIn world.deferred Deferred.kept
  | .atom => keptIn world.atoms AtomCell.kept
  | .volatile => keptIn world.volatiles fun value => [value]
  | .var => keptIn world.vars VarCell.kept
  | .space => keptIn world.spaces SpaceCell.kept
  | .multimethod => keptIn world.multimethods MultimethodCell.kept
  | .hierarchy => keptIn world.hierarchies HierarchyCell.kept
  | .transient => ((world.transients.get? place.index).join).elim [] Editable.kept
  | .function => keptIn world.functions fun cell => cell.scope.flatten
  | .registry => keptIn world.registries RegistryCell.kept

/-- What an operand keeps without a look into a cell. -/
def keptBy (world : World) : Operand → List Operand
  | .value value => value.parts.map .value
  | .registry _ => []
  | .frame stack => (world.bindings.kept stack).map .value
  | .block handle => (Value.entryParts (world.maps.entries handle)).map .value
  | .hierarchy _ => []

end World

namespace Operand

def place? : Operand → Option Place
  | value inner => inner.place?
  | registry cell => some ⟨.registry, cell.index⟩
  | frame _ => none
  | block _ => none
  | hierarchy cell => some ⟨.hierarchy, cell.index⟩

def handle? : Operand → Option Nat
  | value inner => inner.handle?
  | block handle => some handle
  | _ => none

end Operand

/-! ## The walk -/

structure Reached where
  places : List Place
  /-- Handles on array maps. -/
  handles : List Nat
deriving Repr, Inhabited

namespace Reached

def nothing : Reached := ⟨[], []⟩

def addHandle (reached : Reached) : Option Nat → Reached
  | some handle => { reached with handles := handle :: reached.handles }
  | none => reached

def addPlace (reached : Reached) (place : Place) : Reached :=
  { reached with places := place :: reached.places }

end Reached

namespace World

def reachWithin (world : World) : Nat → List Operand → Reached → Option Reached
  | 0, _, _ => none
  | _ + 1, [], reached => some reached
  | fuel + 1, operand :: rest, reached =>
      let reached := reached.addHandle operand.handle?
      let rest := world.keptBy operand ++ rest
      match operand.place? with
      | none => reachWithin world fuel rest reached
      | some place =>
          if reached.places.contains place then reachWithin world fuel rest reached
          else
            reachWithin world fuel (world.keptAt place ++ rest) (reached.addPlace place)

def boundFrames (world : World) : List Operand :=
  world.bindings.threads.toList.map .frame

end World

namespace Run

/-- Retires every array map that nobody can reach. -/
def retireUnreached : Run Unit := do
  let machine ← read
  let world ← get
  let reached ←
    found (world.reachWithin machine.limit (machine.held ++ world.boundFrames) .nothing)
  set { world with maps := world.maps.retireExcept reached.handles }

end Run

end LispRuntime
