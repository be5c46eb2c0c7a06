import LispRuntime.Call
import LispRuntime.Cell.Binding
import LispRuntime.Namespace.Registry
import LispRuntime.Proofs.ArrayMap.Refinement
import LispRuntime.Proofs.Atom.Updates
import LispRuntime.Proofs.Atom.Validity
import LispRuntime.Proofs.Atom.Watching
import LispRuntime.Proofs.Binding.Agreement
import LispRuntime.Proofs.Binding.Ownership
import LispRuntime.Proofs.Binding.Scope
import LispRuntime.Proofs.Collection.KeptKeys
import LispRuntime.Proofs.Collection.StaleKeys
import LispRuntime.Proofs.Deferred.Once
import LispRuntime.Proofs.Dispatch.Climbing
import LispRuntime.Proofs.Dispatch.Resolution
import LispRuntime.Proofs.Hierarchy.Kinds
import LispRuntime.Proofs.Metadata.Invisible
import LispRuntime.Proofs.Metadata.Views
import LispRuntime.Proofs.Multimethod.Conflicts
import LispRuntime.Proofs.Multimethod.Unobservable
import LispRuntime.Proofs.Name.Reading
import LispRuntime.Proofs.Namespace.Entering
import LispRuntime.Proofs.Namespace.Naming
import LispRuntime.Proofs.Namespace.Referring
import LispRuntime.Proofs.Namespace.Resolving
import LispRuntime.Proofs.Namespace.Stability
import LispRuntime.Proofs.Printing.Knots
import LispRuntime.Proofs.Printing.Laws
import LispRuntime.Proofs.Printing.Unambiguous
import LispRuntime.Proofs.Sequence.Markers
import LispRuntime.Proofs.Sequence.Realized
import LispRuntime.Proofs.Sequence.Reductions
import LispRuntime.Proofs.Sight.EqualHashes
import LispRuntime.Proofs.Transient.Agreement
import LispRuntime.Proofs.Transient.Reads
import LispRuntime.Script.Session
