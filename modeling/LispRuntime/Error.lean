import LispRuntime.Name.Symbol

/-! Everything that can go wrong, as causes. A lookup that finds nothing is not
among them: it answers with an absent value. -/

namespace LispRuntime

inductive Arity where
  | exactly (count : Nat)
  | atLeast (count : Nat)
deriving DecidableEq, Repr

namespace Arity

def text : Arity → String
  | exactly count => toString count
  | atLeast count => "at least " ++ toString count

end Arity

/-! Fields named after a thing that is only shown hold its printed text. -/

inductive Error where
  /-- An array map would grow past its largest block. -/
  | mapOverflow (pairs : Nat)
  /-- More room was asked for than an array map can have. -/
  | mapReserve (pairs : Nat)
  /-- Several methods match and none of them is above the others. -/
  | ambiguousDispatch (multimethod dispatchValue first second : String)
  | noMethod (multimethod dispatchValue : String)
  | preferenceConflict (multimethod preferred other : String)
  | bindingStackUnderflow
  | nonDynamicBinding (var : String)
  | varNotThreadBound (var : String)
  | setFromForeignThread (var : String)
  | unboundVar (var : String)
  | undefinedSymbol (symbol : Symbol)
  | noNamespace (name : Symbol)
  | aliasConflict (aliasName space existing : Symbol)
  | referConflict (symbol : Symbol) (existing : String) (space : Symbol)
  | arityMismatch (expected : Arity) (got : Nat) (name : Option String)
  | typeMismatch (context : Option String) (expected got : String)
  | notCallable (value : String)
  | indexOutOfBounds (index : Int64) (length : Nat)
  | transientSealed
  | invalidDerivation (reason : String)
  /-- A validator turned the new state of a reference down. -/
  | invalidReferenceState
  /-- Raised by a function, or by a rule that has only a text. -/
  | evaluation (message : String)
deriving DecidableEq, Repr

namespace Error

def wrongType (context expected got : String) : Error :=
  typeMismatch (some context) expected got

def wrongArity (name : String) (expected got : Nat) : Error :=
  arityMismatch (.exactly expected) got (some name)

def message : Error → String
  | mapOverflow pairs =>
      "Unable to expand array map to size " ++ toString pairs ++
        ". Be sure to check the size prior to insertion and promote to hash map if needed."
  | mapReserve pairs =>
      "Unable to reserve an array map of size " ++ toString pairs ++
        ". Be sure to check the size prior to reserving and promote to hash map if needed."
  | ambiguousDispatch multimethod dispatchValue first second =>
      "Multiple methods in multimethod '" ++ multimethod ++
        "' match dispatch value: " ++ dispatchValue ++ " -> " ++ first ++
        " and " ++ second ++ ", and neither is preferred"
  | noMethod multimethod dispatchValue =>
      "No method in multimethod '" ++ multimethod ++
        "' for dispatch value: " ++ dispatchValue
  | preferenceConflict multimethod preferred other =>
      "Preference conflict in multimethod '" ++ multimethod ++ "': " ++
        preferred ++ " is already preferred to " ++ other
  | bindingStackUnderflow => "Pop without matching push"
  | nonDynamicBinding var => "Can't dynamically bind non-dynamic var: " ++ var
  | varNotThreadBound var =>
      "Can't change/establish root binding of: " ++ var ++ " with set"
  | setFromForeignThread var => "Can't set!: " ++ var ++ " from non-binding thread"
  | unboundVar var => "Var " ++ var ++ " is unbound"
  | undefinedSymbol symbol => "Unable to resolve symbol: " ++ symbol.text
  | noNamespace name => "No namespace: " ++ name.text ++ " found"
  | aliasConflict aliasName space existing =>
      "Alias " ++ aliasName.text ++ " already exists in namespace " ++ space.text ++
        ", aliasing " ++ existing.text
  | referConflict symbol existing space =>
      symbol.text ++ " already refers to: " ++ existing ++ " in namespace: " ++
        space.text
  | arityMismatch expected got (some name) =>
      "Wrong number of arguments to '" ++ name ++ "': expected " ++
        expected.text ++ ", got " ++ toString got
  | arityMismatch expected got none =>
      "Wrong number of arguments: expected " ++ expected.text ++ ", got " ++
        toString got
  | typeMismatch (some context) expected got =>
      context ++ ": expected " ++ expected ++ ", got " ++ got
  | typeMismatch none expected got =>
      "Type error: expected " ++ expected ++ ", got " ++ got
  | notCallable value => "Cannot call value: " ++ value
  | indexOutOfBounds index length =>
      "Index " ++ toString index.toInt ++ " out of bounds for collection of length " ++
        toString length
  | transientSealed => "Transient used after persistent! call"
  | invalidDerivation reason => "Invalid derivation: " ++ reason
  | invalidReferenceState => "Invalid reference state"
  | evaluation message => message

/-- The name of the cause, for programs that tell causes apart. -/
def kind : Error → String
  | mapOverflow .. => "ArrayMapOverflow"
  | mapReserve .. => "ArrayMapReserve"
  | ambiguousDispatch .. => "AmbiguousDispatch"
  | noMethod .. => "NoMethod"
  | preferenceConflict .. => "PreferenceConflict"
  | bindingStackUnderflow => "BindingStackUnderflow"
  | nonDynamicBinding .. => "NonDynamicBinding"
  | varNotThreadBound .. => "VarNotThreadBound"
  | setFromForeignThread .. => "SetFromForeignThread"
  | unboundVar .. => "UnboundVar"
  | undefinedSymbol .. => "UndefinedSymbol"
  | noNamespace .. => "NoNamespace"
  | aliasConflict .. => "AliasConflict"
  | referConflict .. => "ReferConflict"
  | arityMismatch .. => "ArityError"
  | typeMismatch .. => "TypeError"
  | notCallable .. => "NotCallable"
  | indexOutOfBounds .. => "IndexOutOfBounds"
  | transientSealed => "TransientSealed"
  | invalidDerivation .. => "InvalidDerivation"
  | invalidReferenceState => "InvalidReferenceState"
  | evaluation .. => "Eval"

/-- Which of two tied methods was met first depends on the order of a method
table; this form does not. -/
def settled : Error → Error
  | ambiguousDispatch multimethod dispatchValue first second =>
      match compareText first second with
      | .gt => ambiguousDispatch multimethod dispatchValue second first
      | _ => ambiguousDispatch multimethod dispatchValue first second
  | error => error

end Error

end LispRuntime
