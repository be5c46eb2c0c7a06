import LispRuntime.Multimethod.Basic
import LispRuntime.Script.Library.References
import LispRuntime.Script.Operation

/-! Operations on hierarchies and multimethods, and names of functions. -/

namespace LispRuntime.Script.Library

open Operation

namespace Hierarchies

def createShared : Run Value := do
  return .hierarchy (← Taxonomy.create .empty)

def createPlain : Run Operand := do
  return .hierarchy (← Taxonomy.create .empty)

/-- A copy that is shared from now on. -/
def toShared (cell : Ref .hierarchy) : Run Value := do
  return .hierarchy (← Taxonomy.create (← Taxonomy.snapshot cell))

/-- A copy of the present state. -/
def toPlain (cell : Ref .hierarchy) : Run Operand := do
  return .hierarchy (← Taxonomy.create (← Taxonomy.snapshot cell))

def sameLinks (left right : Ref .hierarchy) : Run Bool := do
  return (← Taxonomy.snapshot left).sameLinks (← Taxonomy.snapshot right)

def isEmpty (cell : Ref .hierarchy) : Run Bool := do
  return (← Taxonomy.snapshot cell).isEmpty

def parents (cell : Ref .hierarchy) (value : Value) : Run Value := do
  Value.hashSetOf (← Taxonomy.parents cell value)

def ancestors (cell : Ref .hierarchy) (value : Value) : Run Value := do
  Value.hashSetOf (← Taxonomy.ancestors cell value)

def descendants (cell : Ref .hierarchy) (value : Value) : Run Value := do
  Value.hashSetOf (← Taxonomy.descendants cell value)

end Hierarchies

def hierarchies : Table :=
  [ named "hierarchy" Hierarchies.createShared,
    named "plain_hierarchy" Hierarchies.createPlain,
    named "hierarchy_of" Hierarchies.toShared,
    named "snapshot" Hierarchies.toPlain,
    named "plain_eq" Hierarchies.sameLinks,
    named "plain_is_empty" Hierarchies.isEmpty,
    named "h_version" Taxonomy.version,
    named "derive" Taxonomy.derive,
    named "underive" Taxonomy.underive,
    named "isa" Taxonomy.isa,
    named "parents" Hierarchies.parents,
    named "ancestors" Hierarchies.ancestors,
    named "descendants" Hierarchies.descendants ]

namespace Multimethods

def create (name : String) (dispatch : Value) (hierarchy : Ref .hierarchy) : Run Value :=
  Multimethod.create (Symbol.parse name) dispatch Multimethod.defaultTag hierarchy

def createWithDefault (name : Symbol) (dispatch : Value) (hierarchy : Ref .hierarchy)
    (default : Value) : Run Value :=
  Multimethod.create name dispatch default hierarchy

def name (cell : Ref .multimethod) : Run Symbol := do
  return (← Run.multimethodAt cell).name

def dispatch (cell : Ref .multimethod) : Run Value := do
  return (← Run.multimethodAt cell).dispatch

def default (cell : Ref .multimethod) : Run Value := do
  return (← Run.multimethodAt cell).default

def hierarchy (cell : Ref .multimethod) : Run Value := do
  return .hierarchy (← Run.multimethodAt cell).hierarchy

def methods (cell : Ref .multimethod) : Attempt Value := do
  Bindings.entriesWithType (← Multimethod.methods cell)

def preferences (cell : Ref .multimethod) : Attempt Value := do
  Bindings.entriesWithType (← Multimethod.preferences cell)

def functionName : Value → Option String
  | .function _ name => some name
  | _ => none

end Multimethods

def multimethods : Table :=
  [ named "multi" Multimethods.create,
    named "multi_default" Multimethods.createWithDefault,
    named "mm_name" Multimethods.name,
    named "mm_dispatch_fn" Multimethods.dispatch,
    named "mm_default" Multimethods.default,
    named "mm_hierarchy" Multimethods.hierarchy,
    named "mm_invoke" Multimethod.invoke,
    named "mm_get" Multimethod.methodFor,
    named "mm_add" Multimethod.addMethod,
    named "mm_remove" Multimethod.removeMethod,
    named "mm_remove_all" Multimethod.removeAll,
    named "mm_reset" Multimethod.removeAll,
    named "mm_prefer" Multimethod.prefer,
    named "mm_methods" Multimethods.methods,
    named "mm_prefers" Multimethods.preferences,
    named "fn_name" fun (value : Value) => plain (Multimethods.functionName value) ]

end LispRuntime.Script.Library
