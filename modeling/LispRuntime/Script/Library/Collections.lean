import LispRuntime.Cell.Deref
import LispRuntime.Collection.Update
import LispRuntime.Script.Operation
import LispRuntime.Sequence.Reduce

/-! Operations on collections, transients and sequences. -/

namespace LispRuntime.Script.Library

open Operation

namespace Collections

/-- The size of a map, whether it is empty, and what it has for a key. -/
def viewMap (map key : Value) : Run Value :=
  match map.mapEntries? with
  | none => return .nil
  | some entries => do
      let found ← ofOption (← map.mapLookup key)
      Value.newVector [integerOf entries.length, .boolean entries.isEmpty, found] none

/-- The size of a set, whether it is empty, and whether it has an element. -/
def viewSet (set item : Value) : Run Value :=
  match set.setItems? with
  | none => return .nil
  | some items => do
      let found ← set.setMember item
      Value.newVector [integerOf items.length, .boolean items.isEmpty, .boolean found] none

end Collections

def collections : Table :=
  [ named "count" Value.count,
    named "get" Value.getKey,
    named "get_or" Value.getOr,
    named "contains" Value.containsKey,
    named "assoc" Value.assoc,
    named "dissoc" Value.dissoc,
    named "conj" Value.conj,
    named "disj" Value.disj,
    named "peek" Value.peek,
    named "pop" Value.pop,
    named "empty" Value.emptied,
    named "nth" Value.nth,
    named "map_view" Collections.viewMap,
    named "set_view" Collections.viewSet ]

namespace Transients

/-- A transient that was changed is its own answer. -/
def changed (cell : Transient.Cell) (change : Transient.Cell → Attempt Unit) :
    Attempt (Ref .transient) := do
  change cell
  return cell

def conj (cell : Ref .transient) (item : Value) : Attempt (Ref .transient) :=
  changed cell fun cell => Transient.conj cell item

def assoc (cell : Ref .transient) (key value : Value) : Attempt (Ref .transient) :=
  changed cell fun cell => Transient.assoc cell key value

def dissoc (cell : Ref .transient) (key : Value) : Attempt (Ref .transient) :=
  changed cell fun cell => Transient.dissoc cell key

def disj (cell : Ref .transient) (item : Value) : Attempt (Ref .transient) :=
  changed cell fun cell => Transient.disj cell item

def pop (cell : Ref .transient) : Attempt (Ref .transient) :=
  changed cell Transient.pop

end Transients

def transients : Table :=
  [ named "transient" Transient.ofValue,
    named "conj!" Transients.conj,
    named "assoc!" Transients.assoc,
    named "dissoc!" Transients.dissoc,
    named "disj!" Transients.disj,
    named "pop!" Transients.pop,
    named "t_get" Transient.get?,
    named "t_count" Transient.count,
    named "persistent!" Transient.persistent,
    named "t_sealed" Transient.isSealed ]

namespace Sequences

/-- An element in a vector of its own, an error by its kind and text in a
list. -/
def ofStep (step : Except Error Value) : Run Value :=
  match step with
  | .ok value => Value.newVector [value] none
  | .error error => do
      let kind ← Value.newString error.kind
      let message ← Value.newString error.message
      Value.newList [kind, message] none

def walk (value : Value) (count : Nat) : Run (List Value) := do
  let steps ← Value.takeSteps count (.pending value)
  steps.mapM ofStep

end Sequences

def sequences : Table :=
  [ named "cons" Value.newCons,
    named "seq" Value.seq,
    named "first" Value.first,
    named "rest" Value.rest,
    named "next" Value.next,
    named "to_vec" Value.toItems,
    named "iter" Sequences.walk,
    named "deref" Value.deref,
    named "is_realized" Value.isRealized,
    named "reduced" Value.newReduced,
    named "is_reduced" fun (value : Value) => plain value.isReduced,
    named "unreduced" fun (value : Value) => plain value.unreduced,
    named "reduce" Value.reduce,
    named "reduce1" Value.reduceOwn ]

end LispRuntime.Script.Library
