import LispRuntime.ArrayMap.Pool
import LispRuntime.Bindings.Basic
import LispRuntime.Dispatch.Tables
import LispRuntime.Script.Expr
import LispRuntime.Script.View
import LispRuntime.Value.Basic

/-! What the cells hold that values refer to, and the world that holds the cells. -/

namespace LispRuntime

/-- A delay or a lazy seq. Its body is a function of no arguments. While the
body runs nobody else can have the value. -/
inductive Deferred where
  | pending (body : Value)
  | running (body : Value)
  | realized (value : Value)
deriving Inhabited

/-- The revision tells one state of an atom from another even when both hold
the same value. Watches are ordered by their keys. -/
structure AtomCell where
  value : Value
  revision : Nat
  validator : Option Value
  watches : List (Value × Value)
deriving Inhabited

structure VarCell where
  home : Ref .space
  homeName : Symbol
  name : Symbol
  root : Option Value
  isDynamic : Bool
  metadata : Option Value
deriving Inhabited

/-- A namespace. Its mappings lead to vars of its own and to vars of others. -/
structure SpaceCell where
  name : Symbol
  mappings : List (Symbol × Ref .var)
  aliases : List (Symbol × Ref .space)
deriving Inhabited

structure HierarchyCell where
  hierarchy : Hierarchy Value
  /-- Counts the changes. -/
  version : Nat
deriving Inhabited

structure MultimethodCell where
  name : Symbol
  dispatch : Value
  default : Value
  hierarchy : Ref .hierarchy
  tables : Dispatch.Tables Value Value
deriving Inhabited

/-- A collection that is being built. An array map is built in its block. -/
inductive Editable where
  | arrayMap (handle : Nat)
  | hashMap (entries : List (UInt32 × Value × Value))
  | sortedMap (entries : List (Value × Value))
  | vector (items : List Value)
  | hashSet (items : List (UInt32 × Value))
  | sortedSet (items : List Value)
deriving Inhabited

/-- A transient is sealed once its collection has been taken out. -/
abbrev TransientCell := Option Editable

/-- A function together with the arguments of the bodies around it, innermost
first. -/
structure FunctionCell where
  code : Script.Code
  scope : List (List Value)
deriving Inhabited

structure Configuration where
  core : String
  user : String
  /-- How many elements of a collection are printed; all of them without one. -/
  printLength : Option Nat
deriving DecidableEq, Repr, Inhabited

/-- A registry of namespaces, with the namespace and the vars of its own. -/
structure RegistryCell where
  configuration : Configuration
  core : Ref .space
  currentSpace : Ref .var
  printLength : Ref .var
  hierarchy : Ref .hierarchy
  spaces : List (Symbol × Ref .space)
deriving Inhabited

structure World where
  /-- Addresses below this one are taken. -/
  addresses : Nat
  maps : ArrayMap.Pool Value
  deferred : Store Deferred
  atoms : Store AtomCell
  volatiles : Store Value
  vars : Store VarCell
  spaces : Store SpaceCell
  hierarchies : Store HierarchyCell
  multimethods : Store MultimethodCell
  transients : Store TransientCell
  functions : Store FunctionCell
  registries : Store RegistryCell
  bindings : Bindings Value
  /-- The thread that is running. -/
  thread : ThreadId
  /-- How much each thread prints of a collection. -/
  printLengths : Store (Option Nat)
  /-- Values that have served as tags, with their hashes. The position of a
  value is its label. -/
  tags : List (UInt32 × Value)
  log : List Script.View
deriving Inhabited

namespace World

/-- Nothing has been made yet, and one thread is running. -/
def initial : World where
  addresses := 0
  maps := .empty
  deferred := .empty
  atoms := .empty
  volatiles := .empty
  vars := .empty
  spaces := .empty
  hierarchies := .empty
  multimethods := .empty
  transients := .empty
  functions := .empty
  registries := .empty
  bindings := .empty
  thread := 0
  printLengths := Store.empty.push none
  tags := []
  log := []

end World

end LispRuntime
