import LispRuntime.Script.Operation
import LispRuntime.Sequence.Cursor

/-! Operations on keywords and symbols, and on hashes as numbers. -/

namespace LispRuntime.Script.Library

open Operation

def names : Table :=
  [ named "kw_parse" fun (text : String) => plain (Keyword.parse text),
    named "kw_ns" fun (name : Keyword) => plain name.symbol.qualifier,
    named "kw_name" fun (name : Keyword) => plain name.symbol.name,
    named "kw_hash" fun (name : Keyword) => plain name.hash,
    named "kw_cmp" fun (left right : Keyword) => plain (left.compare right),
    named "kw_lt" fun (left right : Keyword) => plain (left.compare right == .lt),
    named "sym_parse" fun (text : String) => plain (Symbol.parse text),
    named "sym_ns" fun (name : Symbol) => plain name.qualifier,
    named "sym_name" fun (name : Symbol) => plain name.name,
    named "sym_hash" fun (name : Symbol) => plain name.hash,
    named "sym_has_ns" fun (name : Symbol) => plain name.isQualified,
    named "sym_unqualified" fun (name : Symbol) => plain name.unqualified,
    named "sym_ns_symbol" fun (name : Symbol) => plain name.qualifierSymbol,
    named "sym_cmp" fun (left right : Symbol) => plain (left.compare right),
    named "sym_lt" fun (left right : Symbol) => plain (left.compare right == .lt) ]

namespace Hashes

/-- A combination of the hashes in a sequence of integers. -/
def ofSequence (combine : List UInt32 → UInt32) (sequence : Value) : Attempt UInt32 := do
  let items ← sequence.toItems
  let hashes ← Attempt.found (items.mapM fun item => Readable.read (.value item))
  return combine hashes

end Hashes

def hashes : Table :=
  [ named "hash_int32" fun (word : UInt32) => plain (Hash.ofWord word),
    named "hash_integer" fun (number : Int64) => plain (Hash.ofInteger number),
    named "hash_address" fun (address : UInt64) => plain (Hash.ofBits address),
    named "hash_real" fun (number : Real64) => plain (Hash.ofBits number.bits),
    named "hash_string" fun (text : String) => plain (Hash.ofString text),
    named "hash_combine" fun (seed hash : UInt32) => plain (Hash.combine seed hash),
    named "hash_mix" fun (hash count : UInt32) => plain (Hash.ofCount hash count),
    named "hash_ordered" (Hashes.ofSequence Hash.ordered),
    named "hash_unordered" (Hashes.ofSequence Hash.unordered),
    named "hash_entry" fun (key value : UInt32) => plain (Hash.entry key value) ]

end LispRuntime.Script.Library
