import LispRuntime.Sequence.Seq

/-! A cursor walks over the elements of a seqable value and realizes no more of
it than it is asked for. When realizing fails the walk yields the error once,
and is over. -/

namespace LispRuntime

inductive Cursor where
  /-- What has not been turned into a seq yet. -/
  | pending (value : Value)
  | items (rest : List Value)
  | done

namespace Cursor

/-- What one step of a walk can see: an element, an error, or the end. -/
abbrev Yield := Option (Except Error Value)

def nextItem : List Value → Yield × Cursor
  | [] => (none, done)
  | item :: rest => (some (.ok item), items rest)

def next : Cursor → Run (Yield × Cursor)
  | done => return (none, done)
  | items rest => return nextItem rest
  | pending (.list _ elements _) => return nextItem elements
  | pending (.vector _ elements _) => return nextItem elements
  | pending value => do
      match ← Run.outcome value.seq with
      | .error error => return (some (.error error), done)
      | .ok .nil => return (none, done)
      | .ok (.cons _ first rest) => return (some (.ok first), pending rest)
      | .ok (.list _ elements _) => return nextItem elements
      | .ok other =>
          return (some (.error (.wrongType "seq" "seq" other.typeName)), done)

/-- Takes an error for the end. -/
def nextElement (cursor : Cursor) : Run (Option Value × Cursor) := do
  match ← cursor.next with
  | (some (.ok value), rest) => return (some value, rest)
  | (_, rest) => return (none, rest)

/-! Walks to the end count the elements they meet against their fuel. -/

/-- Folds the elements before the end or the first error. -/
def foldElements {σ : Type} (visit : σ → Value → Run σ) :
    Nat → σ → Cursor → Run σ
  | 0, _, _ => Run.stuck
  | fuel + 1, state, cursor => do
      match ← cursor.nextElement with
      | (some value, rest) => foldElements visit fuel (← visit state value) rest
      | (none, _) => return state

/-- Folds all elements; an error of the walk is an error of the fold. A visit
may call it a day with an answer of its own. -/
def foldUntil {σ : Type} (visit : σ → Value → Attempt (σ ⊕ σ)) :
    Nat → σ → Cursor → Attempt σ
  | 0, _, _ => Run.stuck
  | fuel + 1, state, cursor => do
      match ← cursor.next with
      | (none, _) => return state
      | (some (.error error), _) => throw error
      | (some (.ok value), rest) =>
          match ← visit state value with
          | .inl state => foldUntil visit fuel state rest
          | .inr answer => return answer

end Cursor

namespace Value

def toItems (value : Value) : Attempt (List Value) := do
  let reversed ←
    Cursor.foldUntil (fun items item => return .inl (item :: items))
      (← Run.limit) [] (.pending value)
  return reversed.reverse

/-- The first steps of a walk, as many as asked for. -/
def takeSteps : Nat → Cursor → Run (List (Except Error Value))
  | 0, _ => return []
  | count + 1, cursor => do
      match ← cursor.next with
      | (none, _) => return []
      | (some step, rest) => return step :: (← takeSteps count rest)

end Value

end LispRuntime
