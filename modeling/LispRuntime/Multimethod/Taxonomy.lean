import LispRuntime.Multimethod.Tagging
import LispRuntime.Value.Printing

/-! Hierarchies as cells. Every change counts as a new version, by which others
know that what they remember of the hierarchy is out of date. -/

namespace LispRuntime.Taxonomy

abbrev Cell := Ref .hierarchy

def create (hierarchy : Hierarchy Value) : Run Cell := do
  let world ← get
  set { world with hierarchies := world.hierarchies.push ⟨hierarchy, 0⟩ }
  return ⟨world.hierarchies.next⟩

def snapshot (cell : Cell) : Run (Hierarchy Value) := do
  return (← Run.hierarchyAt cell).hierarchy

def version (cell : Cell) : Run Nat := do
  return (← Run.hierarchyAt cell).version

/-- Installs a changed hierarchy as the next version. -/
def install (cell : Cell) (hierarchy : Hierarchy Value) : Run Unit :=
  Run.update fun world =>
    { world with
      hierarchies := world.hierarchies.modify cell.index fun old =>
        ⟨hierarchy, old.version + 1⟩ }

def refusalText (refusal : Hierarchy.Refusal) (child parent : Value) : Run String := do
  let childText ← child.display
  match refusal with
  | .ownParent => return "can't derive " ++ childText ++ " from itself"
  | .alreadyAncestor =>
      return childText ++ " already has " ++ (← parent.display) ++ " as ancestor"
  | .cyclic =>
      let parentText ← parent.display
      return "cyclic derivation: " ++ parentText ++ " has " ++ childText ++ " as ancestor"

/-- Makes one tag a direct child of another. Even a link that was there already
counts as a change. -/
def link (cell : Cell) (child parent : Tag Value) :
    Run (Except Hierarchy.Refusal Unit) := do
  match ← Run.found ((← snapshot cell).derive child parent) with
  | .ok hierarchy =>
      install cell hierarchy
      return .ok ()
  | .error refusal => return .error refusal

/-- Removes a direct link, and says whether there was one. -/
def unlink (cell : Cell) (child parent : Tag Value) : Run Bool := do
  let (isRemoved, hierarchy) ← Run.found ((← snapshot cell).underive child parent)
  if isRemoved then install cell hierarchy
  return isRemoved

def derive (cell : Cell) (child parent : Value) : Attempt Unit := do
  let childTag ← child.toTag
  let parentTag ← parent.toTag
  match ← Attempt.ofRun (link cell childTag parentTag) with
  | .ok () => return ()
  | .error refusal => throw (.invalidDerivation (← refusalText refusal child parent))

def underive (cell : Cell) (child parent : Value) : Run Bool := do
  let childTag ← child.toTag
  let parentTag ← parent.toTag
  unlink cell childTag parentTag

def isa (cell : Cell) (child parent : Value) : Run Bool := do
  let childTag ← child.toTag
  let parentTag ← parent.toTag
  return (← snapshot cell).isa childTag parentTag

def parents (cell : Cell) (value : Value) : Run (List Value) := do
  return ((← snapshot cell).parentsOf (← value.toTag)).map Tag.value

def ancestors (cell : Cell) (value : Value) : Run (List Value) := do
  return ((← snapshot cell).ancestorsOf (← value.toTag)).map Tag.value

def descendants (cell : Cell) (value : Value) : Run (List Value) := do
  return ((← snapshot cell).descendantsOf (← value.toTag)).map Tag.value

end LispRuntime.Taxonomy
