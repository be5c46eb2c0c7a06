import LispRuntime.Cell.Var
import LispRuntime.Script.View
import LispRuntime.Value.Comparison
import LispRuntime.World.Operand

/-! Taking views of what there is. Names of cells are looked up, and nothing
else is looked at behind a reference. Only a sorted collection is touched: a
walk over it compares each key with the last one, which it is to end with. -/

namespace LispRuntime

namespace Value

open Script (View)

/-- The first elements of the cells that are linked directly, and what follows
the last of them. -/
def chain : Value → List Value × Value
  | cons _ first rest =>
      let (firsts, tail) := chain rest
      (first :: firsts, tail)
  | other => ([], other)

def viewEntry (view : Value → Run View) (entry : Value × Value) : Run (View × View) := do
  let key ← view entry.1
  let value ← view entry.2
  return (key, value)

def viewMetadata (view : Value → Run View) : Option Value → Run (Option View)
  | none => return none
  | some metadata => return some (← view metadata)

/-- Views of what stands in order of its keys. -/
def viewSorted {ε β : Type} (keyOf : ε → Value) (view : ε → Run β)
    (elements : List ε) : Run (List β) :=
  match elements.getLast? with
  | none => return []
  | some last =>
      elements.mapM fun element => do
        let _ ← (keyOf element).compare (keyOf last)
        view element

def viewWithin : Nat → Value → Run View
  | 0, _ => Run.stuck
  | fuel + 1, value => do
      let view := viewWithin fuel
      let metadata ← viewMetadata view value.metadata?
      match value with
      | nil => return .nil
      | boolean value => return .boolean value
      | integer value => return .integer value
      | real value => return .real value
      | character value => return .character value
      | string _ text => return .string text
      | symbol name _ => return .symbol name metadata
      | keyword name => return .keyword name
      | list _ items _ => return .list (← items.mapM view) metadata
      | vector _ items _ => return .vector (← items.mapM view) metadata
      | cons .. =>
          let (firsts, tail) := value.chain
          return .cons (← firsts.mapM view) (← view tail)
      | arrayMap _ entries _ =>
          return .arrayMap (← entries.mapM (viewEntry view)) metadata
      | hashMap _ entries _ =>
          return .hashMap (← (entries.map Prod.snd).mapM (viewEntry view)) metadata
      | sortedMap _ entries _ =>
          return .sortedMap (← viewSorted Prod.fst (viewEntry view) entries) metadata
      | hashSet _ items _ =>
          return .hashSet (← (items.map Prod.snd).mapM view) metadata
      | sortedSet _ items _ => return .sortedSet (← viewSorted id view items) metadata
      | lazySeq cell => return .lazySeq (← Run.isRealized cell)
      | delay cell => return .delay (← Run.isRealized cell)
      | reduced _ inner => return .reduced (← view inner)
      | function _ name => return .function name
      | transient cell => return .transient (← Run.transientAt cell).text
      | var cell => return .var (← Run.varAt cell).qualifiedName
      | space cell => return .space (← Run.spaceAt cell).name.text
      | multimethod cell => return .multimethod (← Run.multimethodAt cell).name.text
      | hierarchy cell => return .hierarchy (← Run.hierarchyAt cell).hierarchy.text
      | atom _ => return .atom
      | volatile _ => return .volatile

def view (value : Value) : Run View := do
  value.viewWithin (← Run.limit)

end Value

namespace Operand

open Script (View)

/-- A place holds a key or a value, so a pair takes two places. -/
def viewBlock (handle : Nat) : Run View := do
  let maps := (← get).maps
  let entries := maps.entries handle
  let views ← entries.mapM (Value.viewEntry Value.view)
  return .block views entries.length (2 * maps.capacity handle)

def view (operand : Operand) : Run View :=
  match operand with
  | value inner => inner.view
  | registry _ => return .registry
  | frame stack => return .frame stack.isNone
  | block handle => viewBlock handle
  | hierarchy cell => do
      return .hierarchy (← Run.hierarchyAt cell).hierarchy.text

end Operand

end LispRuntime
