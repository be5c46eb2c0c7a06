import LispRuntime.Proofs.Atom.Conduct

/-! Accounts of what has been done with an atom, in the order in which it was done. An account
tells which functions a request has called and what they have done in their turn, where a new
state took effect, and where the one that was there was not the one that was expected. Every run
has an account. -/

namespace LispRuntime.Atom

variable {cell : Cell} {admissible : Value → Prop}

inductive Deed (admissible : Value → Prop) where
  /-- A function is called; this is what it does, and its outcome. -/
  | applies (function : Value) (arguments : List Value) (inner : List (Deed admissible))
      (outcome : Except Error Value)
  /-- A state takes effect in the place of another one. -/
  | installs (old new : Value)
  | declines (current : Value)
  | guards (validator : Option Value)
  /-- A request is made; this is what it comes to. -/
  | asks (request : Request admissible) (inner : List (Deed admissible))
      (outcome : Except Error Answer)

/-- What a call may do: the world before, the deeds, the outcome and the world after. -/
abbrev Calls (admissible : Value → Prop) :=
  Value → List Value → World → List (Deed admissible) → Except Error Value → World → Prop

/-! ## Parts of a request -/

/-- What a validator says of a value, by its outcome. -/
def judgement : Except Error Value → Except Error Unit
  | .error error => .error error
  | .ok verdict => if verdict.isTruthy then .ok () else .error .invalidReferenceState

inductive Examines (calls : Calls admissible) (validator candidate : Value) :
    World → List (Deed admissible) → Except Error Unit → World → Prop where
  | intro {world after : World} {inner : List (Deed admissible)} {outcome : Except Error Value}
      (called : calls validator [candidate] world inner outcome after) :
      Examines calls validator candidate world [.applies validator [candidate] inner outcome]
        (judgement outcome) after

/-- The validator is asked that is there now. -/
inductive Validates (cell : Cell) (calls : Calls admissible) (candidate : Value) :
    World → List (Deed admissible) → Except Error Unit → World → Prop where
  | unguarded {world : World} {state : State} (here : stateIn cell world = some state)
      (free : state.validator = none) : Validates cell calls candidate world [] (.ok ()) world
  | guarded {world after : World} {state : State} {validator : Value}
      {deeds : List (Deed admissible)} {verdict : Except Error Unit}
      (here : stateIn cell world = some state) (guard : state.validator = some validator)
      (examines : Examines calls validator candidate world deeds verdict after) :
      Validates cell calls candidate world deeds verdict after

/-- Watches are told one after the other, as long as none fails. -/
inductive Notifies (cell : Cell) (calls : Calls admissible) (old new : Value) :
    List (Value × Value) → World → List (Deed admissible) → Except Error Unit → World → Prop where
  | done {world : World} : Notifies cell calls old new [] world [] (.ok ()) world
  | failed {key watch : Value} {rest : List (Value × Value)} {world after : World}
      {inner : List (Deed admissible)} {error : Error}
      (called : calls watch [key, .atom cell, old, new] world inner (.error error) after) :
      Notifies cell calls old new ((key, watch) :: rest) world
        [.applies watch [key, .atom cell, old, new] inner (.error error)] (.error error) after
  | next {key watch answer : Value} {rest : List (Value × Value)} {world between after : World}
      {inner deeds : List (Deed admissible)} {outcome : Except Error Unit}
      (called : calls watch [key, .atom cell, old, new] world inner (.ok answer) between)
      (later : Notifies cell calls old new rest between deeds outcome after) :
      Notifies cell calls old new ((key, watch) :: rest) world
        (.applies watch [key, .atom cell, old, new] inner (.ok answer) :: deeds) outcome after

/-- A new state is worked out and put to the validator. It is due if no state has been installed
since the function was called; otherwise all of this is done again. -/
inductive WorksOut (cell : Cell) (calls : Calls admissible) (function : Value)
    (arguments : List Value) :
    World → List (Deed admissible) → Except Error (Value × Value) → World → Prop where
  | failed {world after : World} {state : State} {inner : List (Deed admissible)} {error : Error}
      (here : stateIn cell world = some state)
      (called : calls function (state.value :: arguments) world inner (.error error) after) :
      WorksOut cell calls function arguments world
        [.applies function (state.value :: arguments) inner (.error error)] (.error error) after
  | rejected {world between after : World} {state : State} {candidate : Value}
      {inner check : List (Deed admissible)} {error : Error}
      (here : stateIn cell world = some state)
      (called : calls function (state.value :: arguments) world inner (.ok candidate) between)
      (rejects : Validates cell calls candidate between check (.error error) after) :
      WorksOut cell calls function arguments world
        (.applies function (state.value :: arguments) inner (.ok candidate) :: check)
        (.error error) after
  | due {world between after : World} {state found : State} {candidate : Value}
      {inner check : List (Deed admissible)}
      (here : stateIn cell world = some state)
      (called : calls function (state.value :: arguments) world inner (.ok candidate) between)
      (accepts : Validates cell calls candidate between check (.ok ()) after)
      (there : stateIn cell after = some found) (same : found.revision = state.revision) :
      WorksOut cell calls function arguments world
        (.applies function (state.value :: arguments) inner (.ok candidate) :: check)
        (.ok (state.value, candidate)) after
  | overtaken {world between again after : World} {state found : State} {candidate : Value}
      {inner check deeds : List (Deed admissible)} {outcome : Except Error (Value × Value)}
      (here : stateIn cell world = some state)
      (called : calls function (state.value :: arguments) world inner (.ok candidate) between)
      (accepts : Validates cell calls candidate between check (.ok ()) again)
      (there : stateIn cell again = some found) (different : found.revision ≠ state.revision)
      (later : WorksOut cell calls function arguments again deeds outcome after) :
      WorksOut cell calls function arguments world
        (.applies function (state.value :: arguments) inner (.ok candidate) :: check ++ deeds)
        outcome after

/-- A given state is put to the validator. It is to replace the one that is there then. -/
inductive Proposes (cell : Cell) (calls : Calls admissible) (new : Value) :
    World → List (Deed admissible) → Except Error (Value × Value) → World → Prop where
  | rejected {world after : World} {check : List (Deed admissible)} {error : Error}
      (rejects : Validates cell calls new world check (.error error) after) :
      Proposes cell calls new world check (.error error) after
  | due {world after : World} {check : List (Deed admissible)} {found : State}
      (accepts : Validates cell calls new world check (.ok ()) after)
      (there : stateIn cell after = some found) :
      Proposes cell calls new world check (.ok (found.value, new)) after

namespace Update

/-- What comes before a state takes effect. -/
def Prepares (cell : Cell) (calls : Calls admissible) :
    Update → World → List (Deed admissible) → Except Error (Value × Value) → World → Prop
  | swap function arguments | swapValues function arguments =>
      WorksOut cell calls function arguments
  | reset new | resetValues new | compareAndSet _ new => Proposes cell calls new

/-- Which states it is willing to replace. -/
def replaces : Update → Value → Bool
  | compareAndSet expected _, current => current.identical expected
  | _, _ => true

def answer : Update → Value → Value → Answer
  | swap .., _, new | reset .., _, new => .state new
  | swapValues .., old, new | resetValues .., old, new => .states old new
  | compareAndSet .., _, _ => .verdict true

end Update

/-! ## Requests and conduct -/

/-- What a request comes to. The deeds in the account that are no applications are its own. -/
inductive Fulfils (cell : Cell) (calls : Calls admissible) :
    Request admissible → World → List (Deed admissible) → Except Error Answer → World → Prop where
  | refused {update : Update} {world after : World} {deeds : List (Deed admissible)}
      {error : Error} (prepares : update.Prepares cell calls world deeds (.error error) after) :
      Fulfils cell calls (.update update) world deeds (.error error) after
  | declined {update : Update} {world after : World} {deeds : List (Deed admissible)}
      {current new : Value}
      (prepares : update.Prepares cell calls world deeds (.ok (current, new)) after)
      (other : update.replaces current = false) :
      Fulfils cell calls (.update update) world (deeds ++ [.declines current])
        (.ok (.verdict false)) after
  | effective {update : Update} {world ready after : World} {deeds told : List (Deed admissible)}
      {old new : Value} {atom : AtomCell} {outcome : Except Error Unit}
      (prepares : update.Prepares cell calls world deeds (.ok (old, new)) ready)
      (replaces : update.replaces old = true)
      (there : (installedIn cell ready new).atoms.get? cell.index = some atom)
      (notifies : Notifies cell calls old new atom.watches (installedIn cell ready new) told
        outcome after) :
      Fulfils cell calls (.update update) world (deeds ++ .installs old new :: told)
        (outcome.map fun _ => update.answer old new) after
  | cleared {world : World} :
      Fulfils cell calls (.setValidator none) world [.guards none] (.ok .done)
        (guardedIn cell world none)
  | disqualified {validator : Subtype admissible} {world after : World} {state : State}
      {deeds : List (Deed admissible)} {error : Error}
      (here : stateIn cell world = some state)
      (examines : Examines calls validator.val state.value world deeds (.error error) after) :
      Fulfils cell calls (.setValidator (some validator)) world deeds (.error error) after
  | guarded {validator : Subtype admissible} {world after : World} {state : State}
      {deeds : List (Deed admissible)}
      (here : stateIn cell world = some state)
      (examines : Examines calls validator.val state.value world deeds (.ok ()) after) :
      Fulfils cell calls (.setValidator (some validator)) world
        (deeds ++ [.guards (some validator.val)]) (.ok .done)
        (guardedIn cell after (some validator.val))

inductive Conducts (calls : Calls admissible) : Conduct cell admissible →
    World → List (Deed admissible) → Except Error Value → World → Prop where
  | exit {outcome : Except Error Value} {world : World} :
      Conducts calls (.exit outcome) world [] outcome world
  | ask {request : Request admissible} {goOn : Except Error Answer → Conduct cell admissible}
      {world between after : World} {inner deeds : List (Deed admissible)}
      {answer : Except Error Answer} {outcome : Except Error Value}
      (fulfils : Fulfils cell calls request world inner answer between)
      (later : Conducts calls (goOn answer) between deeds outcome after) :
      Conducts calls (.ask request goOn) world (.asks request inner answer :: deeds) outcome after
  | call {function : Value} {arguments : List Value}
      {goOn : Except Error Value → Conduct cell admissible} {world between after : World}
      {inner deeds : List (Deed admissible)} {answer outcome : Except Error Value}
      (called : calls function arguments world inner answer between)
      (later : Conducts calls (goOn answer) between deeds outcome after) :
      Conducts calls (.call function arguments goOn) world
        (.applies function arguments inner answer :: deeds) outcome after
  | elsewhere {other : Elsewhere cell} {goOn : World → Conduct cell admissible}
      {world after : World} {deeds : List (Deed admissible)} {outcome : Except Error Value}
      (later : Conducts calls (goOn (other.change world)) (other.change world) deeds outcome
        after) :
      Conducts calls (.elsewhere other goOn) world deeds outcome after

/-- The calls that a library answers at some depth, each with an account. -/
def Library.calls (library : Library cell admissible) (held : List Operand) (limit : Nat) :
    Nat → Calls admissible
  | 0 => fun _ _ _ _ _ _ => False
  | depth + 1 => fun function arguments world deeds outcome after =>
      (library.machine held limit (depth + 1)).call held function arguments world =
          some (outcome, after) ∧
        Conducts (library.calls held limit depth) (library function arguments) world deeds outcome
          after

/-! ## Every run has an account -/

/-- Whatever a machine answers to a call, there is an account of it. -/
def Recorded (machine : Machine) (calls : Calls admissible) : Prop :=
  ∀ function arguments world outcome after,
    machine.call machine.held function arguments world = some (outcome, after) →
      ∃ deeds, calls function arguments world deeds outcome after

namespace Recorded

variable {machine : Machine} {calls : Calls admissible} {world after : World}

theorem examines (recorded : Recorded machine calls) {validator candidate : Value}
    {truth : Except Error Bool}
    (ran : (Attempt.callTruthy validator [candidate]).run machine world = some (truth, after)) :
    ∃ deeds, Examines calls validator candidate world deeds
      (truth.bind fun isTruthy => if isTruthy then .ok () else .error .invalidReferenceState)
      after := by
  rcases Attempt.exists_of_map ran with ⟨verdict, called, rfl⟩
  rcases recorded _ _ _ _ _ called with ⟨inner, called⟩
  have examined := Examines.intro called
  cases verdict <;> exact ⟨_, examined⟩

theorem validates (recorded : Recorded machine calls) {candidate : Value}
    {outcome : Except Error Unit}
    (ran : (validate cell candidate).run machine world = some (outcome, after)) :
    ∃ deeds, Validates cell calls candidate world deeds outcome after := by
  rcases Attempt.exists_of_first ran with ⟨atom, between, looked, rest⟩
  rcases atomAt_run looked with ⟨rfl, _, here⟩
  cases guard : atom.validator with
  | none =>
      rw [guard] at rest
      cases rest
      exact ⟨[], .unguarded here guard⟩
  | some validator =>
      rw [guard] at rest
      rcases Run.exists_of_bind rest with ⟨truth, middle, asked, judged⟩
      rcases recorded.examines asked with ⟨deeds, examines⟩
      rcases truth with error | _ | _ <;> cases judged <;>
        exact ⟨deeds, .guarded here guard examines⟩

theorem notifies (recorded : Recorded machine calls) {old new : Value}
    {watches : List (Value × Value)} {outcome : Except Error Unit}
    (ran : (notifyAll cell old new watches).run machine world = some (outcome, after)) :
    ∃ deeds, Notifies cell calls old new watches world deeds outcome after := by
  induction watches generalizing world with
  | nil =>
      cases ran
      exact ⟨[], .done⟩
  | cons watch rest induction =>
      rcases Run.exists_of_bind ran with ⟨answer, between, called, later⟩
      rcases recorded _ _ _ _ _ called with ⟨inner, called⟩
      cases answer with
      | error error =>
          cases later
          exact ⟨_, .failed called⟩
      | ok answer =>
          rcases induction later with ⟨deeds, notifies⟩
          exact ⟨_, .next called notifies⟩

/-- What comes of an update once its state is installed. -/
theorem notifiesInstalled (recorded : Recorded machine calls) {old new : Value}
    {outcome : Except Error Unit}
    (ran : (notify cell old new).run machine (installedIn cell world new) =
      some (outcome, after)) :
    ∃ atom told, (installedIn cell world new).atoms.get? cell.index = some atom ∧
      Notifies cell calls old new atom.watches (installedIn cell world new) told outcome
        after := by
  rcases Attempt.exists_of_first ran with ⟨atom, between, looked, rest⟩
  rcases atomAt_run looked with ⟨rfl, there, _⟩
  rcases recorded.notifies rest with ⟨told, notifies⟩
  exact ⟨atom, told, there, notifies⟩

/-- What an unconditional update comes to, by what it has prepared. -/
inductive Takes (cell : Cell) (calls : Calls admissible)
    (prepares : List (Deed admissible) → Except Error (Value × Value) → World → Prop) :
    Except Error (Value × Value) → World → Prop where
  | refused {deeds : List (Deed admissible)} {error : Error} {after : World}
      (refuses : prepares deeds (.error error) after) :
      Takes cell calls prepares (.error error) after
  | effective {deeds told : List (Deed admissible)} {old new : Value} {ready after : World}
      {atom : AtomCell} {outcome : Except Error Unit}
      (due : prepares deeds (.ok (old, new)) ready)
      (there : (installedIn cell ready new).atoms.get? cell.index = some atom)
      (notifies : Notifies cell calls old new atom.watches (installedIn cell ready new) told
        outcome after) :
      Takes cell calls prepares (outcome.map fun _ => (old, new)) after

/-- A state that is due is installed, and the watches are told. -/
theorem takes (recorded : Recorded machine calls)
    {prepares : List (Deed admissible) → Except Error (Value × Value) → World → Prop}
    {deeds : List (Deed admissible)} {old new : Value} {outcome : Except Error (Value × Value)}
    (due : prepares deeds (.ok (old, new)) world)
    (ran : (do notify cell old new; return (old, new)).run machine
      (installedIn cell world new) = some (outcome, after)) :
    Takes cell calls prepares outcome after := by
  rcases Attempt.exists_of_map ran with ⟨_, told, rfl⟩
  rcases recorded.notifiesInstalled told with ⟨atom, told, there, notifies⟩
  exact .effective due there notifies

theorem worksOut (recorded : Recorded machine calls) {function : Value} {arguments : List Value}
    {fuel : Nat} {outcome : Except Error (Value × Value)}
    (ran : (swapWithin cell function arguments fuel).run machine world = some (outcome, after)) :
    Takes cell calls (WorksOut cell calls function arguments world) outcome after := by
  induction fuel generalizing world with
  | zero => cases ran
  | succ fuel induction =>
      rcases Attempt.exists_of_first ran with ⟨atom, start, looked, ran⟩
      rcases atomAt_run looked with ⟨rfl, _, here⟩
      rcases Run.exists_of_bind ran with ⟨candidate, between, called, ran⟩
      rcases recorded _ _ _ _ _ called with ⟨inner, called⟩
      cases candidate with
      | error error =>
          cases ran
          exact .refused (.failed here called)
      | ok candidate =>
          rcases Run.exists_of_bind ran with ⟨verdict, ready, validated, ran⟩
          rcases recorded.validates validated with ⟨check, validates⟩
          cases verdict with
          | error error =>
              cases ran
              exact .refused (.rejected here called validates)
          | ok accepted =>
              rcases Attempt.exists_of_first ran with ⟨isInstalled, installed, compared, ran⟩
              rcases Run.exists_of_bind compared with ⟨found, reached, looked, compared⟩
              rcases atomAt_run looked with ⟨rfl, _, there⟩
              -- Whether a change has come in between.
              split at compared
              case isTrue same =>
                cases compared
                exact recorded.takes (.due here called validates there same) ran
              case isFalse different =>
                cases compared
                cases induction ran with
                | refused refuses =>
                    exact .refused (.overtaken here called validates there different refuses)
                | effective due told notifies =>
                    exact .effective (.overtaken here called validates there different due) told
                      notifies

theorem proposes (recorded : Recorded machine calls) {new : Value}
    {outcome : Except Error (Value × Value)}
    (ran : (resetValues cell new).run machine world = some (outcome, after)) :
    Takes cell calls (Proposes cell calls new world) outcome after := by
  rcases Run.exists_of_bind ran with ⟨verdict, ready, validated, ran⟩
  rcases recorded.validates validated with ⟨check, validates⟩
  cases verdict with
  | error error =>
      cases ran
      exact .refused (.rejected validates)
  | ok accepted =>
      rcases Attempt.exists_of_first ran with ⟨old, start, looked, ran⟩
      rcases Run.exists_of_bind looked with ⟨atom, reached, looked, read⟩
      rcases atomAt_run looked with ⟨rfl, _, there⟩
      cases read
      rcases Attempt.exists_of_first ran with ⟨_, installed, changed, ran⟩
      cases changed
      exact recorded.takes (.due validates there) ran

/-- An update that replaces any state does what it takes. -/
theorem fulfilsTaken (update : Update) (any : ∀ current, update.replaces current = true)
    {outcome : Except Error (Value × Value)}
    (taken : Takes cell calls (update.Prepares cell calls world) outcome after) :
    ∃ deeds, Fulfils cell calls (.update update) world deeds
      (outcome.map fun states => update.answer states.1 states.2) after := by
  cases taken with
  | refused refuses => exact ⟨_, .refused refuses⟩
  | @effective _ _ _ _ _ _ _ told due there notifies =>
      have effective := Fulfils.effective due (any _) there notifies
      cases told <;> exact ⟨_, effective⟩

theorem fulfilsCompared (recorded : Recorded machine calls) {expected new : Value}
    {outcome : Except Error Bool}
    (ran : (compareAndSet cell expected new).run machine world = some (outcome, after)) :
    ∃ deeds, Fulfils cell calls (.update (.compareAndSet expected new)) world deeds
      (outcome.map .verdict) after := by
  rcases Run.exists_of_bind ran with ⟨verdict, ready, validated, ran⟩
  rcases recorded.validates validated with ⟨check, validates⟩
  cases verdict with
  | error error =>
      cases ran
      exact ⟨_, .refused (Proposes.rejected validates)⟩
  | ok accepted =>
      rcases Attempt.exists_of_first ran with ⟨atom, reached, looked, ran⟩
      rcases atomAt_run looked with ⟨rfl, _, there⟩
      have due : Update.Prepares cell calls (.compareAndSet expected new) world check
          (.ok (atom.value, new)) ready := Proposes.due validates there
      split at ran
      case isFalse different =>
        cases ran
        exact ⟨_, .declined due (Bool.eq_false_iff.mpr different)⟩
      case isTrue identical =>
        rcases Attempt.exists_of_first ran with ⟨_, installed, changed, ran⟩
        cases changed
        rcases Attempt.exists_of_map ran with ⟨told, notified, rfl⟩
        rcases recorded.notifiesInstalled notified with ⟨_, _, there, notifies⟩
        have effective := Fulfils.effective due identical there notifies
        cases told <;> exact ⟨_, effective⟩

theorem fulfilsUpdate (recorded : Recorded machine calls) {update : Update}
    {outcome : Except Error Answer}
    (ran : (update.perform cell).run machine world = some (outcome, after)) :
    ∃ deeds, Fulfils cell calls (.update update) world deeds outcome after := by
  cases update with
  | swap function arguments =>
      rcases Attempt.exists_of_map ran with ⟨_, answered, rfl⟩
      rcases Attempt.exists_of_map answered with ⟨states, swapped, rfl⟩
      rcases Attempt.exists_of_first swapped with ⟨fuel, start, limit, workedOut⟩
      cases limit
      have fulfilled := fulfilsTaken (.swap function arguments) (fun _ => rfl)
        (recorded.worksOut workedOut)
      cases states <;> exact fulfilled
  | swapValues function arguments =>
      rcases Attempt.exists_of_map ran with ⟨states, swapped, rfl⟩
      rcases Attempt.exists_of_first swapped with ⟨fuel, start, limit, workedOut⟩
      cases limit
      exact fulfilsTaken (.swapValues function arguments) (fun _ => rfl)
        (recorded.worksOut workedOut)
  | reset new =>
      rcases Attempt.exists_of_map ran with ⟨_, answered, rfl⟩
      rcases Attempt.exists_of_map answered with ⟨states, changed, rfl⟩
      have fulfilled := fulfilsTaken (.reset new) (fun _ => rfl) (recorded.proposes changed)
      cases states <;> exact fulfilled
  | resetValues new =>
      rcases Attempt.exists_of_map ran with ⟨states, changed, rfl⟩
      exact fulfilsTaken (.resetValues new) (fun _ => rfl) (recorded.proposes changed)
  | compareAndSet expected new =>
      rcases Attempt.exists_of_map ran with ⟨_, compared, rfl⟩
      exact recorded.fulfilsCompared compared

theorem fulfils (recorded : Recorded machine calls) {request : Request admissible}
    {outcome : Except Error Answer}
    (ran : (request.perform cell).run machine world = some (outcome, after)) :
    ∃ deeds, Fulfils cell calls request world deeds outcome after := by
  cases request with
  | update update => exact recorded.fulfilsUpdate ran
  | setValidator validator =>
      rcases Attempt.exists_of_map ran with ⟨_, set, rfl⟩
      cases validator with
      | none =>
          cases set
          exact ⟨_, .cleared⟩
      | some validator =>
          rcases Attempt.exists_of_first set with ⟨value, reached, looked, set⟩
          rcases Run.exists_of_bind looked with ⟨atom, reached, looked, read⟩
          rcases atomAt_run looked with ⟨rfl, _, here⟩
          cases read
          rcases Run.exists_of_bind set with ⟨truth, between, asked, set⟩
          rcases recorded.examines asked with ⟨deeds, examines⟩
          rcases truth with error | _ | _ <;> cases set
          · exact ⟨_, .disqualified here examines⟩
          · exact ⟨_, .disqualified here examines⟩
          · exact ⟨_, .guarded here examines⟩

theorem conducts (recorded : Recorded machine calls) {conduct : Conduct cell admissible}
    {outcome : Except Error Value}
    (ran : conduct.run.run machine world = some (outcome, after)) :
    ∃ deeds, Conducts calls conduct world deeds outcome after := by
  induction conduct generalizing world with
  | exit answer =>
      cases answer <;> cases ran <;> exact ⟨_, .exit⟩
  | ask request goOn induction =>
      rcases Attempt.exists_of_first ran with ⟨answer, between, asked, later⟩
      rcases recorded.fulfils asked with ⟨inner, fulfils⟩
      rcases induction answer later with ⟨deeds, conducts⟩
      exact ⟨_, .ask fulfils conducts⟩
  | call function arguments goOn induction =>
      rcases Attempt.exists_of_first ran with ⟨answer, between, called, later⟩
      rcases recorded _ _ _ _ _ called with ⟨inner, called⟩
      rcases induction answer later with ⟨deeds, conducts⟩
      exact ⟨_, .call called conducts⟩
  | elsewhere other goOn induction =>
      rcases Attempt.exists_of_first ran with ⟨_, between, changed, looked⟩
      cases changed
      rcases Attempt.exists_of_first looked with ⟨seen, _, found, later⟩
      cases found
      rcases induction _ later with ⟨deeds, conducts⟩
      exact ⟨_, .elsewhere conducts⟩

end Recorded

/-- Calls that go deeper go by the conduct of the functions that they call. -/
theorem Library.recorded (library : Library cell admissible) (held : List Operand)
    (limit depth : Nat) :
    Recorded (library.machine held limit depth) (library.calls held limit depth) := by
  induction depth with
  | zero =>
      intro function arguments world outcome after called
      cases called
  | succ depth induction =>
      intro function arguments world outcome after called
      rcases induction.conducts called with ⟨deeds, conducts⟩
      exact ⟨deeds, called, conducts⟩

end LispRuntime.Atom
