import LispRuntime.Cell.Atom
import LispRuntime.Cell.Binding
import LispRuntime.Script.Operation

/-! Operations on atoms, volatiles and vars, and on the bindings of vars. -/

namespace LispRuntime.Script.Library

open Operation

namespace Atoms

/-- The watches, sorted by their keys. -/
def watches (cell : Ref .atom) : Run Value := do
  Value.newSortedMap (← Atom.watches cell) none

end Atoms

def atoms : Table :=
  [ named "atom" Atom.create,
    named "swap" Atom.swap,
    named "swap_vals" Atom.swapValues,
    named "reset" Atom.reset,
    named "reset_vals" Atom.resetValues,
    named "cas" Atom.compareAndSet,
    named "set_validator" Atom.setValidator,
    named "get_validator" Atom.validator,
    named "add_watch" Atom.addWatch,
    named "remove_watch" Atom.removeWatch,
    named "watches" Atoms.watches,
    named "volatile" Volatile.create,
    named "vset" Volatile.assign,
    named "vswap" Volatile.swap ]

namespace Vars

def hasRoot (cell : Ref .var) : Run Bool := do
  return (← Var.root cell).isSome

def setDynamic (cell : Ref .var) (isDynamic : Bool) : Run Bool := do
  Var.setDynamic cell isDynamic
  return isDynamic

def space (cell : Ref .var) : Run (Option (Ref .space)) := do
  return some (← Run.varAt cell).home

def spaceName (cell : Ref .var) : Run Symbol := do
  return (← Run.varAt cell).homeName

def name (cell : Ref .var) : Run Symbol := do
  return (← Run.varAt cell).name

def qualifiedName (cell : Ref .var) : Run String := do
  return (← Run.varAt cell).qualifiedName

end Vars

def vars : Table :=
  [ named "var_get_root" Var.root,
    named "var_has_root" Vars.hasRoot,
    named "var_is_bound" Var.isBound,
    named "var_bind_root" Var.bindRoot,
    named "var_unbind_root" Var.unbindRoot,
    named "var_alter_root" Var.alterRoot,
    named "var_is_dynamic" Var.isDynamic,
    named "var_set_dynamic" Vars.setDynamic,
    named "var_is_thread_bound" Var.isThreadBound,
    named "var_set" Var.assign,
    named "var_meta" Var.metadata,
    named "var_set_meta" Var.setMetadata,
    named "var_is_public" Var.isPublic,
    named "var_namespace" Vars.space,
    named "var_ns_name" Vars.spaceName,
    named "var_name" Vars.name,
    named "var_qualified" Vars.qualifiedName,
    named "var_symbol" Var.symbol ]

namespace Bindings

/-- The type of a map of any size, and its entries. -/
def entriesWithType (map : Value) : Run Value := do
  let entries ← Value.hashMapOf (map.mapEntries?.getD [])
  let typeName ← Value.newString map.typeName
  Value.newVector [typeName, entries] none

def push (added : List (Ref .var × Value)) : Attempt Nat := do
  Binding.push added
  Binding.depth

def pushMap (map : Value) : Attempt Nat := do
  Binding.pushMap map
  Binding.depth

def pop : Attempt Nat := do
  Binding.pop
  Binding.depth

def within (added : List (Ref .var × Value)) (function : Value)
    (arguments : List Value) : Attempt Value :=
  Binding.within added (Attempt.call function arguments)

def assign (cell : Ref .var) (value : Value) : Attempt Unit := do
  let _ ← Var.assign cell value

def current : Attempt Value := do
  entriesWithType (← Binding.asMap)

def capture : Run Frame := do return ⟨← Binding.capture⟩

def install (frame : Frame) : Run Frame := do return ⟨← Binding.install frame.stack⟩

def emptyFrame : Run Frame := return ⟨none⟩

end Bindings

def bindings : Table :=
  [ named "push_bindings" Bindings.push,
    named "push_bindings_map" Bindings.pushMap,
    named "pop_bindings" Bindings.pop,
    named "with_bindings" Bindings.within,
    named "get_binding" Var.binding,
    named "has_binding" Var.isThreadBound,
    named "set_binding" Bindings.assign,
    named "get_bindings" Bindings.current,
    named "binding_depth" Binding.depth,
    named "clone_frame" Bindings.capture,
    named "reset_frame" Bindings.install,
    named "empty_frame" Bindings.emptyFrame ]

end LispRuntime.Script.Library
