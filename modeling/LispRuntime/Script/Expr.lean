import LispRuntime.Name.Symbol
import LispRuntime.Real64.Basic

/-! The language in which the bodies of functions, lazy seqs and delays are
written. An expression builds a value, applies one of the named operations of
the runtime, or refers to an argument or to the result of an earlier step.
Bodies are lexical closures: an argument is found by how many bodies up it
belongs, and by its position there. -/

namespace LispRuntime.Script

inductive Expr where
  | nil
  | boolean (value : Bool)
  | integer (value : Int64)
  | real (value : Real64)
  | character (value : Char)
  | string (text : String)
  | keyword (name : Keyword)
  | symbol (name : Symbol)
  | list (items : List Expr)
  | vector (items : List Expr)
  | hashSet (items : List Expr)
  | sortedSet (items : List Expr)
  | map (entries : List (Expr × Expr))
  | hashMap (entries : List (Expr × Expr))
  | sortedMap (entries : List (Expr × Expr))
  | function (name : String) (body : List Expr)
  /-- A function that applies an operation to its arguments. -/
  | operation (name : String)
  | lazySeq (body : List Expr)
  | delay (body : List Expr)
  /-- A lazy seq whose body is a call of a function. -/
  | lazyCall (function : Expr)
  /-- A lazy seq that is realized already. -/
  | lazyRealized (value : Expr)
  | slot (index : Nat)
  | argument (position up : Nat)
  /-- All arguments of the innermost body. -/
  | arguments
  | apply (operation : String) (operands : List Expr)
  | choose (condition consequent alternative : Expr)
  /-- An error becomes a value that names its kind. -/
  | attempt (body : Expr)
  | annotate (body metadata : Expr)
deriving Repr, Inhabited

/-- What a function does when it is called. -/
inductive Code where
  | body (expressions : List Expr)
  | operation (name : String)
deriving Repr, Inhabited

end LispRuntime.Script
