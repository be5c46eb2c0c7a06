import LispRuntime.Namespace.Registry
import LispRuntime.Script.Operation

/-! Operations on namespaces and on registries of them. -/

namespace LispRuntime.Script.Library

open Operation

def namespaces : Table :=
  [ named "ns" Space.create,
    named "ns_name" Space.name,
    named "ns_intern" Space.intern,
    named "ns_intern_value" Space.internValue,
    named "ns_intern_dynamic" Space.internDynamic,
    named "ns_refer" Space.refer,
    named "ns_refer_all" Space.referAll,
    named "ns_unmap" Space.unmap,
    named "ns_find_var" Space.findVar,
    named "ns_lookup" Space.lookup,
    named "ns_resolve" Space.resolve,
    named "ns_mappings" Space.mappings,
    named "ns_interns" Space.interns,
    named "ns_publics" Space.publics,
    named "ns_refers" Space.refers,
    named "ns_aliases" Space.aliases,
    named "ns_add_alias" Space.addAlias,
    named "ns_remove_alias" Space.removeAlias,
    named "ns_lookup_alias" Space.findAlias ]

namespace Registries

/-- What is not given is as it is without configuration. -/
def configure (core user : Option String) (printLength : Option Nat) :
    Configuration :=
  ⟨core.getD Registry.defaultCore, user.getD Registry.defaultUser, printLength⟩

def create (operands : List Value) : Attempt (Ref .registry) :=
  match operands with
  | [] => Registry.create Registry.defaultConfiguration
  | [core, user, printLength] =>
      match Readable.read (.value core), Readable.read (.value user),
        Readable.read (.value printLength) with
      | some core, some user, some printLength =>
          Registry.create (configure core user printLength)
      | _, _, _ => misuse 0 "configuration"
  | _ => misuse 0 "configuration"

def configuration (cell : Ref .registry) : Run Value := do
  let configuration := (← Registry.registryAt cell).configuration
  let core ← Value.newString configuration.core
  let user ← Value.newString configuration.user
  Value.newVector [core, user, Registry.lengthValue configuration.printLength] none

def core (cell : Ref .registry) : Run (Ref .space) := do
  return (← Registry.registryAt cell).core

def currentSpace (cell : Ref .registry) : Run (Ref .var) := do
  return (← Registry.registryAt cell).currentSpace

def printLength (cell : Ref .registry) : Run (Ref .var) := do
  return (← Registry.registryAt cell).printLength

def hierarchy (cell : Ref .registry) : Run Value := do
  return .hierarchy (← Registry.registryAt cell).hierarchy

/-- The names of all namespaces, in order. -/
def spaceNames (cell : Ref .registry) : Run Value := do
  let names ← (← Registry.allSpaces cell).mapM Space.name
  Value.sortedSetOf (names.map symbolValue)

end Registries

def registries : Table :=
  [ named "runtime" Registries.create,
    named "rt_config" Registries.configuration,
    named "rt_core" Registries.core,
    named "rt_ns_var" Registries.currentSpace,
    named "rt_print_length_var" Registries.printLength,
    named "rt_hierarchy" Registries.hierarchy,
    named "rt_intern_ns" Registry.internSpace,
    named "rt_find_ns" Registry.findSpace,
    named "rt_remove_ns" Registry.removeSpace,
    named "rt_all_ns" Registries.spaceNames,
    named "rt_current_ns" Registry.current,
    named "rt_in_ns" Registry.enter,
    named "rt_intern_var" Registry.internVar,
    named "rt_find_var" Registry.findVar,
    named "rt_resolve" Registry.resolve,
    named "rt_lookup" Registry.lookup,
    named "rt_defmulti" Registry.defineMultimethod ]

end LispRuntime.Script.Library
