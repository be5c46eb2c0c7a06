import LispRuntime.Real64.Decimal
import LispRuntime.Sequence.Cursor

/-! The printed text of values. Strings and characters are written so that they
can be read back; cells show what they hold or what they are called. A thread
may limit how many elements of a collection are written; the limit holds anew
for each collection inside. -/

namespace LispRuntime

namespace Text

/-- Characters without a clear shape of their own have names. -/
def characterName (char : Char) : String :=
  if char = '\n' then "newline"
  else if char = ' ' then "space"
  else if char = '\t' then "tab"
  else if char = '\r' then "return"
  else if char.toNat = 8 then "backspace"
  else if char.toNat = 12 then "formfeed"
  else String.singleton char

def escapeCharacter (char : Char) : List Char :=
  if char = '\n' then ['\\', 'n']
  else if char = '\t' then ['\\', 't']
  else if char = '\r' then ['\\', 'r']
  else if char = '\\' then ['\\', '\\']
  else if char = '"' then ['\\', '"']
  else [char]

def quote (text : String) : String :=
  "\"" ++ String.ofList (text.toList.flatMap escapeCharacter) ++ "\""

end Text

namespace Run

def varAt (cell : Ref .var) : Run VarCell := do
  found ((← get).vars.get? cell.index)

def spaceAt (cell : Ref .space) : Run SpaceCell := do
  found ((← get).spaces.get? cell.index)

def atomAt (cell : Ref .atom) : Run AtomCell := do
  found ((← get).atoms.get? cell.index)

def volatileAt (cell : Ref .volatile) : Run Value := do
  found ((← get).volatiles.get? cell.index)

def hierarchyAt (cell : Ref .hierarchy) : Run HierarchyCell := do
  found ((← get).hierarchies.get? cell.index)

def multimethodAt (cell : Ref .multimethod) : Run MultimethodCell := do
  found ((← get).multimethods.get? cell.index)

def transientAt (cell : Ref .transient) : Run TransientCell := do
  found ((← get).transients.get? cell.index)

/-- How many elements of a collection this thread writes. -/
def printLength : Run (Option Nat) := do
  let world ← get
  return (world.printLengths.get? world.thread).join

/-- Sets the limit of this thread, and answers with the old one. -/
def setPrintLength (length : Option Nat) : Run (Option Nat) := do
  let old ← printLength
  update fun world =>
    { world with printLengths := world.printLengths.set world.thread length }
  return old

end Run

namespace VarCell

def qualifiedName (cell : VarCell) : String :=
  cell.homeName.text ++ "/" ++ cell.name.text

def text (cell : VarCell) : String := "#'" ++ cell.qualifiedName

end VarCell

namespace Hierarchy

def text (hierarchy : Hierarchy Value) : String :=
  "#<Hierarchy: " ++ toString hierarchy.size ++ " relationships>"

end Hierarchy

namespace Editable

/-- The kind of collection that is being built. -/
def kindName : Editable → String
  | arrayMap .. => "array-map"
  | hashMap .. => "hash-map"
  | sortedMap .. => "sorted-map"
  | vector .. => "vector"
  | hashSet .. => "hash-set"
  | sortedSet .. => "sorted-set"

end Editable

namespace TransientCell

def text : TransientCell → String
  | some editable => "#<Transient " ++ editable.kindName ++ ">"
  | none => "#<Transient sealed>"

end TransientCell

namespace Printing

/-- Has the limit been reached at this index? -/
def isFull (limit : Option Nat) (index : Nat) : Bool :=
  match limit with
  | some count => count ≤ index
  | none => false

def gap (separator : String) (index : Nat) : String :=
  if index = 0 then "" else separator

/-- Elements with a separator between them. One that is over the limit is
written as dots, and so are all that follow it. -/
def items {α : Type} (display : α → Run String) (separator : String)
    (limit : Option Nat) : Nat → List α → Run String
  | _, [] => return ""
  | index, item :: rest => do
      if isFull limit index then return " ..."
      let text ← display item
      let more ← items display separator limit (index + 1) rest
      return gap separator index ++ text ++ more

/-- The elements of a walk, as far as they are wanted. In the place of an
element that cannot be realized stand dots. -/
def steps (display : Value → Run String) (limit : Option Nat) :
    Nat → Nat → Cursor → Run String
  | 0, _, _ => Run.stuck
  | fuel + 1, index, cursor => do
      match ← cursor.next with
      | (none, _) => return ""
      | (some step, rest) =>
          if isFull limit index then return " ..."
          match step with
          | .error _ => return gap " " index ++ "..."
          | .ok item =>
              let text ← display item
              let more ← steps display limit fuel (index + 1) rest
              return gap " " index ++ text ++ more

def entry (display : Value → Run String) (entry : Value × Value) : Run String := do
  let key ← display entry.1
  let value ← display entry.2
  return key ++ " " ++ value

end Printing

namespace Value

def displayItems (display : Value → Run String) (opening closing : String)
    (elements : List Value) : Run String := do
  let text ← Printing.items display " " (← Run.printLength) 0 elements
  return opening ++ text ++ closing

def displayEntries (display : Value → Run String) (entries : List (Value × Value)) :
    Run String := do
  let text ← Printing.items (Printing.entry display) ", " (← Run.printLength) 0 entries
  return "\x7b" ++ text ++ "\x7d"

def displaySteps (display : Value → Run String) (fuel : Nat) (value : Value) :
    Run String := do
  let text ← Printing.steps display (← Run.printLength) fuel 0 (.pending value)
  return "(" ++ text ++ ")"

/-- Something held, with a word for what holds it. -/
def displayHeld (display : Value → Run String) (holder : String) (value : Value) :
    Run String := do
  return "#<" ++ holder ++ ": " ++ (← display value) ++ ">"

def displayWithin : Nat → Value → Run String
  | 0, _ => Run.stuck
  | fuel + 1, value =>
      match value with
      | nil => return "nil"
      | boolean true => return "true"
      | boolean false => return "false"
      | integer number => return toString number.toInt
      | real number => return number.text
      | character char => return "\\" ++ Text.characterName char
      | string _ text => return Text.quote text
      | symbol name _ => return name.text
      | keyword name => return name.text
      | list _ items _ => displayItems (displayWithin fuel) "(" ")" items
      | vector _ items _ => displayItems (displayWithin fuel) "[" "]" items
      | cons .. | lazySeq .. => displaySteps (displayWithin fuel) fuel value
      | arrayMap _ entries _ => displayEntries (displayWithin fuel) entries
      | hashMap _ entries _ =>
          displayEntries (displayWithin fuel) (entries.map Prod.snd)
      | sortedMap _ entries _ => displayEntries (displayWithin fuel) entries
      | hashSet _ items _ =>
          displayItems (displayWithin fuel) "#\x7b" "\x7d" (items.map Prod.snd)
      | sortedSet _ items _ => displayItems (displayWithin fuel) "#\x7b" "\x7d" items
      | transient cell => do return (← Run.transientAt cell).text
      | var cell => do return (← Run.varAt cell).text
      | space cell => do return "#namespace[" ++ (← Run.spaceAt cell).name.text ++ "]"
      | atom cell => do
          displayHeld (displayWithin fuel) "Atom" (← Run.atomAt cell).value
      | volatile cell => do
          displayHeld (displayWithin fuel) "Volatile" (← Run.volatileAt cell)
      | multimethod cell => do
          return "#<Multimethod " ++ (← Run.multimethodAt cell).name.text ++ ">"
      | hierarchy cell => do return (← Run.hierarchyAt cell).hierarchy.text
      | delay cell => do
          match ← Run.deferredAt cell with
          | .realized value => displayHeld (displayWithin fuel) "Delay" value
          | _ => return "#<Delay: pending>"
      | reduced _ value => displayHeld (displayWithin fuel) "Reduced" value
      | function _ name => return "#<fn " ++ name ++ ">"

def display (value : Value) : Run String := do
  value.displayWithin (← Run.limit)

/-! ## A closer look -/

/-- Pairs with colons, whatever the limit. -/
def inspectEntries (entries : List (Value × Value)) : Run String := do
  let texts ← entries.mapM fun entry => do
    let key ← entry.1.display
    let value ← entry.2.display
    return key ++ ": " ++ value
  return "\x7b" ++ String.intercalate ", " texts ++ "\x7d"

/-- Names say what they are, a cons cell and an array map show how they are
built, and a lazy seq is not realized for it. -/
def inspect (value : Value) : Run String :=
  match value with
  | symbol name _ => return "Symbol(" ++ name.text ++ ")"
  | keyword name => return "Keyword(" ++ name.text ++ ")"
  | cons _ first rest => do
      let firstText ← first.display
      let restText ← rest.display
      return "(" ++ firstText ++ " . " ++ restText ++ ")"
  | arrayMap _ entries _ => inspectEntries entries
  | lazySeq cell => do
      match ← Run.deferredAt cell with
      | .realized seq => seq.display
      | _ => return "#<LazySeq: pending>"
  | _ => value.display

end Value

end LispRuntime
