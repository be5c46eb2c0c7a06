import LispRuntime.Name.Symbol
import LispRuntime.Real64.Basic
import LispRuntime.Ref

/-! Values. Immediates and names are known by what they are. Everything else is
allocated: it has an address, or refers to a cell, and two values are
identical only when they are one allocation. Symbols and collections may carry
metadata, a map that is not part of what they are equal to.

A hash map and a hash set remember for each key the hash that it had when it
came in. An array map carries its pairs and the handle that it was published
under, which is also its address. -/

namespace LispRuntime

inductive Value where
  | nil
  | boolean (value : Bool)
  | integer (value : Int64)
  | real (value : Real64)
  | character (value : Char)
  | string (address : Nat) (text : String)
  | symbol (name : Symbol) (metadata : Option Value)
  | keyword (name : Keyword)
  | list (address : Nat) (items : List Value) (metadata : Option Value)
  | cons (address : Nat) (first rest : Value)
  | vector (address : Nat) (items : List Value) (metadata : Option Value)
  | arrayMap (handle : Nat) (entries : List (Value × Value)) (metadata : Option Value)
  | hashMap (address : Nat) (entries : List (UInt32 × Value × Value))
      (metadata : Option Value)
  | sortedMap (address : Nat) (entries : List (Value × Value)) (metadata : Option Value)
  | hashSet (address : Nat) (items : List (UInt32 × Value)) (metadata : Option Value)
  | sortedSet (address : Nat) (items : List Value) (metadata : Option Value)
  | transient (cell : Ref .transient)
  | var (cell : Ref .var)
  | space (cell : Ref .space)
  | atom (cell : Ref .atom)
  | volatile (cell : Ref .volatile)
  | multimethod (cell : Ref .multimethod)
  | hierarchy (cell : Ref .hierarchy)
  | delay (cell : Ref .deferred)
  | lazySeq (cell : Ref .deferred)
  /-- Tells a reduction to stop with the value inside. -/
  | reduced (address : Nat) (value : Value)
  | function (cell : Ref .function) (name : String)
deriving Repr, Inhabited

namespace Value

def isNil : Value → Bool
  | nil => true
  | _ => false

/-- Everything but nil and false. -/
def isTruthy : Value → Bool
  | nil | boolean false => false
  | _ => true

def isMap : Value → Bool
  | arrayMap .. | hashMap .. | sortedMap .. => true
  | _ => false

def isSet : Value → Bool
  | hashSet .. | sortedSet .. => true
  | _ => false

/-- Lists, vectors, cons cells and lazy seqs are compared with each other
element by element. -/
def isSequential : Value → Bool
  | list .. | vector .. | cons .. | lazySeq .. => true
  | _ => false

def isReduced : Value → Bool
  | reduced .. => true
  | _ => false

/-- The value inside a reduced one; any other value is itself. -/
def unreduced : Value → Value
  | reduced _ value => value
  | value => value

def isCallable : Value → Bool
  | function .. | multimethod .. | var .. | keyword .. => true
  | value => value.isMap || value.isSet

/-- The type of a value as error messages name it. -/
def typeName : Value → String
  | nil => "nil"
  | boolean .. => "boolean"
  | integer .. => "integer"
  | real .. => "real"
  | character .. => "character"
  | string .. => "string"
  | symbol .. => "symbol"
  | keyword .. => "keyword"
  | list .. => "list"
  | cons .. => "cons"
  | vector .. => "vector"
  | arrayMap .. => "array-map"
  | hashMap .. => "hash-map"
  | sortedMap .. => "sorted-map"
  | hashSet .. => "hash-set"
  | sortedSet .. => "sorted-set"
  | transient .. => "transient"
  | var .. => "var"
  | space .. => "namespace"
  | atom .. => "atom"
  | volatile .. => "volatile"
  | multimethod .. => "multimethod"
  | hierarchy .. => "hierarchy"
  | delay .. => "delay"
  | lazySeq .. => "lazy-seq"
  | reduced .. => "reduced"
  | function .. => "fn"

/-- The name of the tag that a value carries. -/
def tagName : Value → String
  | nil => "Nil"
  | boolean .. => "Boolean"
  | integer .. => "Integer"
  | real .. => "Real"
  | character .. => "Character"
  | string .. => "String"
  | symbol .. => "Symbol"
  | keyword .. => "Keyword"
  | list .. => "List"
  | cons .. => "Cons"
  | vector .. => "Vector"
  | arrayMap .. => "ArrayMap"
  | hashMap .. => "HashMap"
  | sortedMap .. => "SortedMap"
  | hashSet .. => "HashSet"
  | sortedSet .. => "SortedSet"
  | transient .. => "Transient"
  | var .. => "Var"
  | space .. => "Namespace"
  | atom .. => "Atom"
  | volatile .. => "Volatile"
  | multimethod .. => "Multimethod"
  | hierarchy .. => "Hierarchy"
  | delay .. => "Delay"
  | lazySeq .. => "LazySeq"
  | reduced .. => "Reduced"
  | function .. => "Function"

/-- The same allocation, or the same immediate. Reals are the same when their
bits are, names when their parts are. -/
def identical : Value → Value → Bool
  | nil, nil => true
  | boolean left, boolean right => left == right
  | integer left, integer right => left == right
  | real left, real right => left == right
  | character left, character right => left == right
  | string left _, string right _ => left == right
  | symbol left _, symbol right _ => left == right
  | keyword left, keyword right => left == right
  | list left .., list right .. => left == right
  | cons left .., cons right .. => left == right
  | vector left .., vector right .. => left == right
  | arrayMap left .., arrayMap right .. => left == right
  | hashMap left .., hashMap right .. => left == right
  | sortedMap left .., sortedMap right .. => left == right
  | hashSet left .., hashSet right .. => left == right
  | sortedSet left .., sortedSet right .. => left == right
  | transient left, transient right => left == right
  | var left, var right => left == right
  | space left, space right => left == right
  | atom left, atom right => left == right
  | volatile left, volatile right => left == right
  | multimethod left, multimethod right => left == right
  | hierarchy left, hierarchy right => left == right
  | delay left, delay right => left == right
  | lazySeq left, lazySeq right => left == right
  | reduced left _, reduced right _ => left == right
  | function left _, function right _ => left == right
  | _, _ => false

/-- Where a value that is known by its identity alone is found. -/
def position : Value → Nat
  | transient cell => cell.index
  | var cell => cell.index
  | space cell => cell.index
  | atom cell => cell.index
  | volatile cell => cell.index
  | multimethod cell => cell.index
  | hierarchy cell => cell.index
  | delay cell => cell.index
  | lazySeq cell => cell.index
  | function cell _ => cell.index
  | reduced address _ => address
  | _ => 0

/-! ## Views -/

/-- The pairs of a map of any kind. -/
def mapEntries? : Value → Option (List (Value × Value))
  | arrayMap _ entries _ => some entries
  | hashMap _ entries _ => some (entries.map Prod.snd)
  | sortedMap _ entries _ => some entries
  | _ => none

/-- The elements of a set of any kind. -/
def setItems? : Value → Option (List Value)
  | hashSet _ items _ => some (items.map Prod.snd)
  | sortedSet _ items _ => some items
  | _ => none

/-- The metadata that a symbol or a collection carries itself. -/
def metadata? : Value → Option Value
  | symbol _ metadata
  | list _ _ metadata
  | vector _ _ metadata
  | arrayMap _ _ metadata
  | hashMap _ _ metadata
  | sortedMap _ _ metadata
  | hashSet _ _ metadata
  | sortedSet _ _ metadata => metadata
  | _ => none

end Value

end LispRuntime
