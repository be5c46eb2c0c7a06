import LispRuntime.Collection.Tables
import LispRuntime.Multimethod.Taxonomy

/-! Multimethods. A multimethod calls its dispatch function and applies the
method that its tables have for the answer. -/

namespace LispRuntime.Multimethod

abbrev Cell := Ref .multimethod

def create (name : Symbol) (dispatch default : Value) (hierarchy : Ref .hierarchy) :
    Run Value := do
  let world ← get
  set { world with
    multimethods :=
      world.multimethods.push ⟨name, dispatch, default, hierarchy, .empty⟩ }
  return .multimethod ⟨world.multimethods.next⟩

/-- The default dispatch value, unless another one is given. -/
def defaultTag : Value := .keyword (Keyword.named "default")

def setTables (cell : Cell) (tables : Dispatch.Tables Value Value) : Run Unit :=
  Run.update fun world =>
    { world with
      multimethods := world.multimethods.modify cell.index fun multimethod =>
        { multimethod with tables := tables } }

/-! ## Tags

A dispatch value becomes a tag before the tables are looked at. -/

/-- Empties a cache that belongs to another version of the hierarchy. -/
def refresh (cell : Cell) (version : Nat) : Run Unit := do
  setTables cell ((← Run.multimethodAt cell).tables.sync version)

/-- The method for a tag, by the hierarchy as it is now. Its version has been
read before. -/
def answer (cell : Cell) (version : Nat) (default sought : Tag Value) :
    Run (Except (Dispatch.Tables.Tie Value) (Option Value)) := do
  let multimethod ← Run.multimethodAt cell
  let hierarchy ← Taxonomy.snapshot multimethod.hierarchy
  let (answer, tables) ←
    Run.found (multimethod.tables.resolve hierarchy version default sought)
  setTables cell tables
  return answer

def addFor (cell : Cell) (tag : Tag Value) (method : Value) : Run Unit := do
  setTables cell ((← Run.multimethodAt cell).tables.addMethod tag method)

/-- Whether there was a method to remove. -/
def removeFor (cell : Cell) (tag : Tag Value) : Run Bool := do
  let (isRemoved, tables) := (← Run.multimethodAt cell).tables.removeMethod tag
  setTables cell tables
  return isRemoved

def removeAll (cell : Cell) : Run Unit := do
  setTables cell (← Run.multimethodAt cell).tables.removeAll

/-- Whether the preference could be taken in. -/
def preferOver (cell : Cell) (preferred other : Tag Value) : Run Bool := do
  let multimethod ← Run.multimethodAt cell
  let hierarchy ← Taxonomy.snapshot multimethod.hierarchy
  match ← Run.found (multimethod.tables.prefer hierarchy preferred other) with
  | some tables =>
      setTables cell tables
      return true
  | none => return false

/-! ## Dispatch -/

def tieError (name : Symbol) (dispatchValue : Value) (tie : Dispatch.Tables.Tie Value) :
    Run Error := do
  let dispatchText ← dispatchValue.display
  let firstText ← tie.first.value.display
  let secondText ← tie.second.value.display
  return .ambiguousDispatch name.text dispatchText firstText secondText

/-- The method for a dispatch value, the default one included. Without any method
there is nothing to look for, and the dispatch value is not looked at. -/
def methodFor (cell : Cell) (dispatchValue : Value) : Attempt (Option Value) := do
  let multimethod ← Run.multimethodAt cell
  let version ← Taxonomy.version multimethod.hierarchy
  refresh cell version
  if multimethod.tables.methods.isEmpty then return none
  else
    let sought ← dispatchValue.toTag
    let default ← multimethod.default.toTag
    match ← Attempt.ofRun (answer cell version default sought) with
    | .ok method => return method
    | .error tie => throw (← tieError multimethod.name dispatchValue tie)

def invoke (cell : Cell) (arguments : List Value) : Attempt Value := do
  let multimethod ← Run.multimethodAt cell
  let dispatchValue ← Attempt.call multimethod.dispatch arguments
  match ← methodFor cell dispatchValue with
  | some method => Attempt.call method arguments
  | none => throw (.noMethod multimethod.name.text (← dispatchValue.display))

/-! ## Changes -/

def addMethod (cell : Cell) (dispatchValue method : Value) : Run Unit := do
  addFor cell (← dispatchValue.toTag) method

def removeMethod (cell : Cell) (dispatchValue : Value) : Run Bool := do
  removeFor cell (← dispatchValue.toTag)

def prefer (cell : Cell) (preferred other : Value) : Attempt Unit := do
  let preferredTag ← preferred.toTag
  let otherTag ← other.toTag
  if ← Attempt.ofRun (preferOver cell preferredTag otherTag) then return ()
  else
    let otherText ← other.display
    let preferredText ← preferred.display
    let multimethod ← Run.multimethodAt cell
    throw (.preferenceConflict multimethod.name.text otherText preferredText)

/-- The method table as a map. -/
def methods (cell : Cell) : Attempt Value := do
  let tables := (← Run.multimethodAt cell).tables
  Value.ofPairs (tables.methods.map fun entry => (entry.1.value, entry.2))

def preferenceEntry (entry : Tag Value × TagSet Value) : Run (Value × Value) := do
  return (entry.1.value, ← Value.hashSetOf (entry.2.map Tag.value))

/-- The preferences as a map from a value to the set of those that it is
preferred over. -/
def preferences (cell : Cell) : Attempt Value := do
  let tables := (← Run.multimethodAt cell).tables
  let entries ← (tables.preferences.mapM preferenceEntry : Run (List (Value × Value)))
  Value.ofPairs entries

end LispRuntime.Multimethod
