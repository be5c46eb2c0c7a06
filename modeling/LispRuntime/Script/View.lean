import LispRuntime.Name.Symbol
import LispRuntime.Real64.Basic

/-! A view is what can be seen of a result at one moment: later changes of a cell
do not reach the views that were taken before. -/

namespace LispRuntime.Script

inductive View where
  | nil
  | boolean (value : Bool)
  | integer (value : Int64)
  | real (value : Real64)
  | character (value : Char)
  | string (text : String)
  | keyword (name : Keyword)
  | symbol (name : Symbol) (metadata : Option View)
  | list (items : List View) (metadata : Option View)
  | vector (items : List View) (metadata : Option View)
  /-- The first elements of cells that are linked directly, and what follows. -/
  | cons (firsts : List View) (tail : View)
  | arrayMap (entries : List (View × View)) (metadata : Option View)
  | hashMap (entries : List (View × View)) (metadata : Option View)
  | sortedMap (entries : List (View × View)) (metadata : Option View)
  | hashSet (items : List View) (metadata : Option View)
  | sortedSet (items : List View) (metadata : Option View)
  | lazySeq (realized : Bool)
  | delay (realized : Bool)
  | reduced (value : View)
  | function (name : String)
  | transient (text : String)
  | var (name : String)
  | space (name : String)
  | multimethod (name : String)
  | hierarchy (text : String)
  | atom
  | volatile
  | registry
  | frame (isEmpty : Bool)
  /-- An array map as it lies in its block. -/
  | block (entries : List (View × View)) (pairs places : Nat)
deriving Repr, Inhabited

end LispRuntime.Script
