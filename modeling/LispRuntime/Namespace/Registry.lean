import LispRuntime.Multimethod.Basic
import LispRuntime.Namespace.Basic

/-! A registry knows namespaces by name. It has a core namespace with two vars,
one for the current namespace and one for the print length, and a hierarchy
that the multimethods defined through it share. -/

namespace LispRuntime.Registry

abbrev Cell := Ref .registry

def defaultCore : String := "lumen.core"

def defaultUser : String := "user"

def defaultConfiguration : Configuration := ⟨defaultCore, defaultUser, none⟩

def registryAt (cell : Cell) : Run RegistryCell := do
  Run.found ((← get).registries.get? cell.index)

def setSpaces (cell : Cell) (spaces : List (Symbol × Ref .space)) : Run Unit :=
  Run.update fun world =>
    { world with
      registries := world.registries.modify cell.index fun registry =>
        { registry with spaces := spaces } }

/-! ## Namespaces by name -/

def findSpace (cell : Cell) (name : Symbol) : Run (Option (Ref .space)) := do
  return Space.findSymbol name (← registryAt cell).spaces

/-- The namespace of a name, made if there is none. A new one refers to every
public var of the core namespace. -/
def internSpace (cell : Cell) (name : Symbol) : Run (Ref .space) := do
  match ← findSpace cell name with
  | some space => return space
  | none =>
      let space ← Space.create name
      let _ ← Run.outcome (Space.referAll space (← registryAt cell).core)
      setSpaces cell (Space.insertSymbol name space (← registryAt cell).spaces)
      return space

def allSpaces (cell : Cell) : Run (List (Ref .space)) := do
  return (← registryAt cell).spaces.map Prod.snd

/-- The number of a print length as a value. -/
def lengthValue (length : Option Nat) : Value :=
  match length with
  | some count => .integer (UInt64.ofNat count).toInt64
  | none => .nil

/-- The print length also holds for the thread that makes the registry. -/
def create (configuration : Configuration) : Attempt Cell := do
  let coreName := Symbol.unqualifiedName configuration.core
  let core ← Space.create coreName
  let currentSpace ← Space.internDynamic core (Symbol.unqualifiedName "*ns*") .nil
  let printLength ←
    Space.internDynamic core (Symbol.unqualifiedName "*print-length*")
      (lengthValue configuration.printLength)
  let _ ← Run.setPrintLength configuration.printLength
  let hierarchy ← Taxonomy.create .empty
  let world ← get
  let cell : Cell := ⟨world.registries.next⟩
  set { world with
    registries := world.registries.push
      ⟨configuration, core, currentSpace, printLength, hierarchy, [(coreName, core)]⟩ }
  let user ← internSpace cell (Symbol.unqualifiedName configuration.user)
  Var.bindRoot currentSpace (.space user)
  return cell

/-- What becomes of a registry that nobody holds any more: its current namespace
is unbound, and with it the circle of references is open. -/
def discard (cell : Cell) : Run Unit := do
  Var.unbindRoot (← registryAt cell).currentSpace

/-! ## The current namespace -/

def current (cell : Cell) : Attempt (Ref .space) := do
  match ← Var.deref (← registryAt cell).currentSpace with
  | .space space => return space
  | other => throw (.wrongType "*ns*" "namespace" other.typeName)

/-- Switches to a namespace, made if there is none. Where the current namespace
has a thread binding, the binding changes and not the root. -/
def enter (cell : Cell) (name : Symbol) : Attempt (Ref .space) := do
  let space ← internSpace cell name
  let var := (← registryAt cell).currentSpace
  if ← Var.isThreadBound var then
    let _ ← Var.assign var (.space space)
  else
    Var.bindRoot var (.space space)
  return space

/-- Removes a namespace, if it is there. The core namespace and the current one
stay. -/
def removeSpace (cell : Cell) (name : Symbol) : Attempt (Option (Ref .space)) := do
  if name = (← Space.name (← registryAt cell).core) then
    throw (.evaluation ("Cannot remove namespace " ++ name.text))
  if (← Space.name (← current cell)) = name then
    throw (.evaluation ("Cannot remove current namespace " ++ name.text))
  let removed ← findSpace cell name
  setSpaces cell (Space.eraseSymbol name (← registryAt cell).spaces)
  return removed

/-! ## Vars by symbol -/

/-- The namespace that a symbol names, or the current one. -/
def spaceFor (cell : Cell) (symbol : Symbol) : Attempt (Ref .space) := do
  match symbol.qualifierSymbol with
  | none => current cell
  | some name =>
      match ← findSpace cell name with
      | some space => return space
      | none => throw (.noNamespace name)

def internVar (cell : Cell) (symbol : Symbol) : Attempt (Ref .var) := do
  Space.intern (← spaceFor cell symbol) symbol.unqualified

def findVar (cell : Cell) (symbol : Symbol) : Attempt (Option (Ref .var)) := do
  if !symbol.isQualified then
    throw (.evaluation ("Symbol must be namespace-qualified: " ++ symbol.text))
  Space.findVar (← spaceFor cell symbol) symbol.unqualified

/-- The var that a symbol stands for. A qualifier is the name of a registered
namespace, or else an alias of the current one. -/
def resolve (cell : Cell) (symbol : Symbol) : Attempt (Ref .var) := do
  let current ← current cell
  let registered ←
    match symbol.qualifierSymbol with
    | some name => findSpace cell name
    | none => pure none
  let found ←
    match registered with
    | some space => Space.findVar space symbol.unqualified
    | none => Space.resolve current symbol
  match found with
  | some var => return var
  | none => throw (.undefinedSymbol symbol)

def lookup (cell : Cell) (symbol : Symbol) : Attempt Value := do
  Var.deref (← resolve cell symbol)

/-- Defines a multimethod on the hierarchy of the registry. One that is there
already stays as it is. -/
def defineMultimethod (cell : Cell) (symbol : Symbol) (dispatch : Value) :
    Attempt (Ref .var) := do
  let var ← internVar cell symbol
  match ← Var.root var with
  | some (.multimethod _) => return var
  | _ =>
      let multimethod ←
        Multimethod.create (← Var.symbol var) dispatch Multimethod.defaultTag
          (← registryAt cell).hierarchy
      Var.bindRoot var multimethod
      return var

end LispRuntime.Registry
