import LispRuntime.Script.Library.Blocks
import LispRuntime.Script.Library.Collections
import LispRuntime.Script.Library.Control
import LispRuntime.Script.Library.Dispatching
import LispRuntime.Script.Library.Errors
import LispRuntime.Script.Library.Names
import LispRuntime.Script.Library.Namespaces
import LispRuntime.Script.Library.References
import LispRuntime.Script.Library.Values

/-! All operations that a script can name. -/

namespace LispRuntime.Script.Library

def all : Table :=
  control ++ values ++ collections ++ sequences ++ transients ++ names ++ hashes ++
    blocks ++ atoms ++ vars ++ bindings ++ namespaces ++ registries ++ hierarchies ++
    multimethods ++ errors

def find? (name : String) : Option Operation :=
  (all.find? fun entry => entry.1 == name).map Prod.snd

end LispRuntime.Script.Library
