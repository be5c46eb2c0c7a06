import LispRuntime.Cell.Atom
import LispRuntime.Cell.Var

/-! The current value of a reference, and metadata, which a var keeps in its
cell and any other value with itself. -/

namespace LispRuntime.Value

def deref (value : Value) : Attempt Value :=
  match value with
  | reduced _ inner => return inner
  | var cell => Var.deref cell
  | atom cell => Atom.deref cell
  | volatile cell => Run.volatileAt cell
  | delay cell => force cell pure
  | other => throw (.wrongType "deref" "reference" other.typeName)

/-- Has the body of a delay or lazy seq answered? Everything else is there. -/
def isRealized (value : Value) : Run Bool :=
  match value with
  | delay cell | lazySeq cell => Run.isRealized cell
  | _ => return true

def metadata (value : Value) : Run Value :=
  match value with
  | var cell => do return (← Var.metadata cell).getD nil
  | other => return other.metadata?.getD nil

/-- Metadata is a map, or nil for none. -/
def checkMetadata (context : String) (metadata : Value) : Except Error (Option Value) :=
  if metadata.isNil then .ok none
  else if metadata.isMap then .ok (some metadata)
  else .error (.wrongType context "map or nil" metadata.typeName)

/-- A copy with other metadata. It equals the original; a collection is a new
one, and a symbol stays the symbol that it is. -/
def withMetadata (value metadata : Value) : Attempt Value := do
  let metadata ← Attempt.ofExcept (checkMetadata "with-meta" metadata)
  match value with
  | symbol name _ => return symbol name metadata
  | list _ items _ => newList items metadata
  | vector _ items _ => newVector items metadata
  | arrayMap handle _ _ => do ofHandle (← openHandle (·.copyExact handle)) metadata
  | hashMap _ entries _ => newHashMap entries metadata
  | sortedMap _ entries _ => newSortedMap entries metadata
  | hashSet _ items _ => newHashSet items metadata
  | sortedSet _ items _ => newSortedSet items metadata
  | other => throw (.wrongType "with-meta" "symbol or collection" other.typeName)

/-- Replaces the metadata of a var. -/
def resetMetadata (value metadata : Value) : Attempt Value :=
  match value with
  | var cell => do
      Var.setMetadata cell (← Attempt.ofExcept (checkMetadata "reset-meta!" metadata))
      return metadata
  | other => throw (.wrongType "reset-meta!" "var" other.typeName)

end LispRuntime.Value
