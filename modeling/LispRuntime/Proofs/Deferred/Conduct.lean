import LispRuntime.Proofs.World.Forcing
import LispRuntime.Collection.Access
import LispRuntime.Sequence.Reduce

/-! What programs do with delays and lazy seqs. A program goes by its conduct: it makes cells,
asks for what may need their values, calls functions and does something elsewhere, one after the
other, and how it goes on may depend on all that it has seen. The body of a cell is a function,
so it may do any of this while its cell is being forced. -/

namespace LispRuntime.Deferred

/-- Whatever may have cells forced. -/
inductive Access where
  /-- The value of a delay. -/
  | force (delay : Ref .deferred)
  | seq (value : Value)
  | first (value : Value)
  | rest (value : Value)
  | next (value : Value)
  /-- One step of a walk. -/
  | step (cursor : Cursor)
  | count (value : Value)
  | nth (value : Value) (index : UInt64)
  | reduce (collection function start : Value)
  | reduceOwn (collection function : Value)
  | equal (left right : Value)
  | compare (left right : Value)
  | hash (value : Value)
  | display (value : Value)
  | inspect (value : Value)

namespace Access

def Answer : Access → Type
  | step _ => Cursor.Yield × Cursor
  | count _ => Except Error Nat
  | equal .. => Bool
  | compare .. => Ordering
  | hash _ => UInt32
  | display _ | inspect _ => String
  | _ => Except Error Value

def perform : (access : Access) → Run access.Answer
  | force delay => (LispRuntime.force delay pure).run
  | seq value => value.seq.run
  | first value => value.first.run
  | rest value => value.rest.run
  | next value => value.next.run
  | step cursor => cursor.next
  | count value => value.count.run
  | nth value index => (value.nth index).run
  | reduce collection function start => (collection.reduce function start).run
  | reduceOwn collection function => (collection.reduceOwn function).run
  | equal left right => left.equal right
  | compare left right => left.compare right
  | hash value => value.hash
  | display value => value.display
  | inspect value => value.inspect

end Access

/-- What is done elsewhere, and leaves cells alone. -/
structure Elsewhere where
  change : World → World
  keeps : ∀ world, (change world).deferred = world.deferred

inductive Conduct where
  | exit (outcome : Except Error Value)
  | access (made : Access) (goOn : made.Answer → Conduct)
  | call (function : Value) (arguments : List Value) (goOn : Except Error Value → Conduct)
  /-- Makes a delay or a lazy seq. -/
  | defer (body : Value) (goOn : Ref .deferred → Conduct)
  /-- Makes a lazy seq that has its value from the start. -/
  | realized (seq : Value) (goOn : Value → Conduct)
  | elsewhere (other : Elsewhere) (goOn : World → Conduct)

def Conduct.run : Conduct → Attempt Value
  | exit outcome => Attempt.ofExcept outcome
  | access made goOn => do (goOn (← Attempt.ofRun made.perform)).run
  | call function arguments goOn => do
      (goOn (← Attempt.outcome (Attempt.call function arguments))).run
  | defer body goOn => do (goOn (← Attempt.ofRun (Value.newDeferred body))).run
  | realized seq goOn => do (goOn (← Attempt.ofRun (Value.newRealized seq))).run
  | elsewhere other goOn => do
      Attempt.ofRun (Run.update other.change)
      (goOn (← Attempt.ofRun get)).run

/-- All functions, by their conduct. -/
abbrev Library := Value → List Value → Conduct

/-- Calls functions of a library that call one another to some depth; a call that goes deeper
does not answer. -/
def Library.machine (library : Library) (held : List Operand) (limit : Nat) : Nat → Machine
  | 0 => ⟨fun _ _ _ _ => none, held, limit⟩
  | depth + 1 =>
      ⟨fun _ function arguments world =>
        (library function arguments).run.run (library.machine held limit depth) world, held, limit⟩

end LispRuntime.Deferred
