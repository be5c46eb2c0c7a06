import LispRuntime.Proofs.Atom.Account
import LispRuntime.Proofs.Sequence.Opening

/-! What an update of an atom comes to if the functions that it calls leave the atom alone. The
new state is worked out once and put to the validator. If either fails, nothing has happened to
the atom. Otherwise the state is installed, and the watches are called one after the other until
one of them fails; the state stays. -/

namespace LispRuntime

/-- The atom with another state. -/
def AtomCell.installing (atom : AtomCell) (value : Value) : AtomCell :=
  { atom with value := value, revision := atom.revision + 1 }

namespace Atom

variable {cell : Cell} {machine : Machine}

/-- The function does nothing to the atom. -/
def IsAloof (machine : Machine) (cell : Cell) (function : Value) : Prop :=
  ∀ arguments world outcome after,
    machine.call machine.held function arguments world = some (outcome, after) →
    after.atoms.get? cell.index = world.atoms.get? cell.index

/-! ## An account of the calls -/

/-- The validator is asked once, if there is one. -/
inductive Checked (machine : Machine) (validator : Option Value) (candidate : Value) :
    World → List Application → Except Error Unit → World → Prop where
  | unguarded {world : World} (free : validator = none) :
      Checked machine validator candidate world [] (.ok ()) world
  | guarded {function : Value} {world after : World} {outcome : Except Error Value}
      (guard : validator = some function)
      (called : Application.Made machine ⟨function, [candidate], world, outcome, after⟩) :
      Checked machine validator candidate world [⟨function, [candidate], world, outcome, after⟩]
        (judgement outcome) after

/-- Where a new state comes from: a function and its other arguments, or it is given. -/
def Update.source : Update → (Value × List Value) ⊕ Value
  | swap function arguments | swapValues function arguments => .inl (function, arguments)
  | reset new | resetValues new | compareAndSet _ new => .inr new

/-- A function is called once with the state that is there, and what it answers is put to the
validator, like a state that is given. -/
inductive Offered (machine : Machine) (atom : AtomCell) : (Value × List Value) ⊕ Value → World →
    List Application → Except Error Value → World → Prop where
  | failed {function : Value} {arguments : List Value} {world after : World} {error : Error}
      (called : Application.Made machine
        ⟨function, atom.value :: arguments, world, .error error, after⟩) :
      Offered machine atom (.inl (function, arguments)) world
        [⟨function, atom.value :: arguments, world, .error error, after⟩] (.error error) after
  | workedOut {function candidate : Value} {arguments : List Value} {world between after : World}
      {check : List Application} {verdict : Except Error Unit}
      (called : Application.Made machine
        ⟨function, atom.value :: arguments, world, .ok candidate, between⟩)
      (checked : Checked machine atom.validator candidate between check verdict after) :
      Offered machine atom (.inl (function, arguments)) world
        (⟨function, atom.value :: arguments, world, .ok candidate, between⟩ :: check)
        (verdict.map fun _ => candidate) after
  | given {new : Value} {world after : World} {check : List Application}
      {verdict : Except Error Unit}
      (checked : Checked machine atom.validator new world check verdict after) :
      Offered machine atom (.inr new) world check (verdict.map fun _ => new) after

/-- Each watch is called with its key, the atom, the old state and the new one, which is there by
then. The first one that fails is the last one called. -/
inductive Told (machine : Machine) (cell : Cell) (old : Value) (changed : AtomCell) :
    List (Value × Value) → World → List Application → Except Error Unit → World → Prop where
  | done {world : World} : Told machine cell old changed [] world [] (.ok ()) world
  | failed {key watch : Value} {rest : List (Value × Value)} {world after : World} {error : Error}
      (there : world.atoms.get? cell.index = some changed)
      (called : Application.Made machine
        ⟨watch, [key, .atom cell, old, changed.value], world, .error error, after⟩) :
      Told machine cell old changed ((key, watch) :: rest) world
        [⟨watch, [key, .atom cell, old, changed.value], world, .error error, after⟩]
        (.error error) after
  | next {key watch answer : Value} {rest : List (Value × Value)} {world between after : World}
      {calls : List Application} {outcome : Except Error Unit}
      (there : world.atoms.get? cell.index = some changed)
      (called : Application.Made machine
        ⟨watch, [key, .atom cell, old, changed.value], world, .ok answer, between⟩)
      (later : Told machine cell old changed rest between calls outcome after) :
      Told machine cell old changed ((key, watch) :: rest) world
        (⟨watch, [key, .atom cell, old, changed.value], world, .ok answer, between⟩ :: calls)
        outcome after

/-- What an update comes to: the calls made to come to a new state, the calls of watches, the
outcome and the atom after it. -/
inductive Settles (machine : Machine) (cell : Cell) (atom : AtomCell) (update : Update)
    (world : World) : List Application → List Application → Except Error Answer → AtomCell →
    World → Prop where
  | refused {asked : List Application} {error : Error} {after : World}
      (offered : Offered machine atom update.source world asked (.error error) after) :
      Settles machine cell atom update world asked [] (.error error) atom after
  | declined {asked : List Application} {new : Value} {after : World}
      (offered : Offered machine atom update.source world asked (.ok new) after)
      (other : update.replaces atom.value = false) :
      Settles machine cell atom update world asked [] (.ok (.verdict false)) atom after
  | effective {asked told : List Application} {new : Value} {ready after : World}
      {verdict : Except Error Unit}
      (offered : Offered machine atom update.source world asked (.ok new) ready)
      (replaces : update.replaces atom.value = true)
      (tells : Told machine cell atom.value (atom.installing new) atom.watches
        (installedIn cell ready new) told verdict after) :
      Settles machine cell atom update world asked told
        (verdict.map fun _ => update.answer atom.value new) (atom.installing new) after

/-! ## Every update is settled -/

/-- The calls of a machine, without what is done in them. -/
def callsOf (machine : Machine) : Calls fun _ => True :=
  fun function arguments world inner outcome after => inner = [] ∧
    machine.call machine.held function arguments world = some (outcome, after)

theorem recorded_callsOf (machine : Machine) : Recorded machine (callsOf machine) :=
  fun _ _ _ _ _ called => ⟨[], rfl, called⟩

section

variable {atom : AtomCell} {world after : World} {deeds : List (Deed fun _ => True)}

theorem stateIn_of_get? (here : world.atoms.get? cell.index = some atom) :
    stateIn cell world = some (stateOf atom) := by
  rw [stateIn, here, Option.map_some]

theorem Validates.checked {candidate : Value} {verdict : Except Error Unit}
    (aloof : ∀ validator, atom.validator = some validator → IsAloof machine cell validator)
    (here : world.atoms.get? cell.index = some atom)
    (validates : Validates cell (callsOf machine) candidate world deeds verdict after) :
    after.atoms.get? cell.index = some atom ∧
      ∃ check, Checked machine atom.validator candidate world check verdict after := by
  cases validates with
  | unguarded there free =>
      cases (stateIn_of_get? here).symm.trans there
      exact ⟨here, [], .unguarded free⟩
  | guarded there guard examines =>
      cases (stateIn_of_get? here).symm.trans there
      rcases examines with ⟨rfl, called⟩
      exact ⟨(aloof _ guard _ _ _ _ called).trans here, _, .guarded guard called⟩

theorem WorksOut.offered {function : Value} {arguments : List Value}
    {outcome : Except Error (Value × Value)} (works : IsAloof machine cell function)
    (aloof : ∀ validator, atom.validator = some validator → IsAloof machine cell validator)
    (here : world.atoms.get? cell.index = some atom)
    (worksOut : WorksOut cell (callsOf machine) function arguments world deeds outcome after) :
    after.atoms.get? cell.index = some atom ∧
      (∀ old new, outcome = .ok (old, new) → old = atom.value) ∧
      ∃ asked, Offered machine atom (.inl (function, arguments)) world asked
        (outcome.map Prod.snd) after := by
  cases worksOut with
  | failed there called =>
      cases (stateIn_of_get? here).symm.trans there
      exact ⟨(works _ _ _ _ called.2).trans here, nofun, _, .failed called.2⟩
  | rejected there called rejects =>
      cases (stateIn_of_get? here).symm.trans there
      rcases rejects.checked aloof ((works _ _ _ _ called.2).trans here) with
        ⟨still, check, checked⟩
      exact ⟨still, nofun, _, .workedOut called.2 checked⟩
  | due there called accepts =>
      cases (stateIn_of_get? here).symm.trans there
      rcases accepts.checked aloof ((works _ _ _ _ called.2).trans here) with
        ⟨still, check, checked⟩
      refine ⟨still, fun old new same => ?_, _, .workedOut called.2 checked⟩
      cases same
      rfl
  | overtaken there called accepts found different =>
      -- Nobody has installed a state in the meantime.
      cases (stateIn_of_get? here).symm.trans there
      rcases accepts.checked aloof ((works _ _ _ _ called.2).trans here) with ⟨still, -, -⟩
      cases (stateIn_of_get? still).symm.trans found
      exact absurd rfl different

theorem Proposes.offered {new : Value} {outcome : Except Error (Value × Value)}
    (aloof : ∀ validator, atom.validator = some validator → IsAloof machine cell validator)
    (here : world.atoms.get? cell.index = some atom)
    (proposes : Proposes cell (callsOf machine) new world deeds outcome after) :
    after.atoms.get? cell.index = some atom ∧
      (∀ old proposed, outcome = .ok (old, proposed) → old = atom.value) ∧
      ∃ asked, Offered machine atom (.inr new) world asked (outcome.map Prod.snd) after := by
  cases proposes with
  | rejected rejects =>
      rcases rejects.checked aloof here with ⟨still, check, checked⟩
      exact ⟨still, nofun, _, .given checked⟩
  | due accepts there =>
      rcases accepts.checked aloof here with ⟨still, check, checked⟩
      cases (stateIn_of_get? still).symm.trans there
      refine ⟨still, fun old proposed same => ?_, _, .given checked⟩
      cases same
      rfl

theorem Update.Prepares.offered {update : Update} {outcome : Except Error (Value × Value)}
    (works : ∀ function arguments, update.source = .inl (function, arguments) →
      IsAloof machine cell function)
    (aloof : ∀ validator, atom.validator = some validator → IsAloof machine cell validator)
    (here : world.atoms.get? cell.index = some atom)
    (prepares : update.Prepares cell (callsOf machine) world deeds outcome after) :
    after.atoms.get? cell.index = some atom ∧
      (∀ old new, outcome = .ok (old, new) → old = atom.value) ∧
      ∃ asked, Offered machine atom update.source world asked (outcome.map Prod.snd) after := by
  cases update with
  | swap | swapValues => exact WorksOut.offered (works _ _ rfl) aloof here prepares
  | reset | resetValues | compareAndSet => exact Proposes.offered aloof here prepares

theorem Notifies.tells {old : Value} {watches : List (Value × Value)} {changed : AtomCell}
    {outcome : Except Error Unit}
    (aloof : ∀ entry ∈ watches, IsAloof machine cell entry.2)
    (here : world.atoms.get? cell.index = some changed)
    (notifies : Notifies cell (callsOf machine) old changed.value watches world deeds outcome
      after) :
    after.atoms.get? cell.index = some changed ∧
      ∃ told, Told machine cell old changed watches world told outcome after := by
  induction notifies with
  | done => exact ⟨here, [], .done⟩
  | failed called =>
      have still := (aloof _ (List.mem_cons_self ..) _ _ _ _ called.2).trans here
      exact ⟨still, _, .failed here called.2⟩
  | next called later induction =>
      have still := (aloof _ (List.mem_cons_self ..) _ _ _ _ called.2).trans here
      rcases induction (fun entry member => aloof entry (List.mem_cons_of_mem _ member)) still with
        ⟨finish, told, tells⟩
      exact ⟨finish, _, .next here called.2 tells⟩

/-- The atom after an update that was left alone by all that was called is the one before, or the
one with the new state. -/
theorem settles_of_run {update : Update} {outcome : Except Error Answer}
    (works : ∀ function arguments, update.source = .inl (function, arguments) →
      IsAloof machine cell function)
    (guard : ∀ validator, atom.validator = some validator → IsAloof machine cell validator)
    (watches : ∀ entry ∈ atom.watches, IsAloof machine cell entry.2)
    (here : world.atoms.get? cell.index = some atom)
    (ran : (update.perform cell).run machine world = some (outcome, after)) :
    ∃ asked told changed, Settles machine cell atom update world asked told outcome changed after ∧
      after.atoms.get? cell.index = some changed := by
  rcases (recorded_callsOf machine).fulfilsUpdate ran with ⟨deeds, fulfils⟩
  cases fulfils with
  | refused prepares =>
      rcases prepares.offered works guard here with ⟨still, -, asked, offered⟩
      exact ⟨asked, [], atom, .refused offered, still⟩
  | declined prepares other =>
      rcases prepares.offered works guard here with ⟨still, same, asked, offered⟩
      cases same _ _ rfl
      exact ⟨asked, [], atom, .declined offered other, still⟩
  | @effective _ _ ready _ _ _ old new found _ prepares replaces there notifies =>
      rcases prepares.offered works guard here with ⟨still, same, asked, offered⟩
      cases same _ _ rfl
      have installed : (installedIn cell ready new).atoms.get? cell.index =
          some (atom.installing new) :=
        Store.get?_modify_self still _
      cases there.symm.trans installed
      rcases Notifies.tells watches installed notifies with
        ⟨finish, told, tells⟩
      exact ⟨asked, told, _, .effective offered replaces tells, finish⟩

end

/-! ## Updates come to an end -/

end Atom

/-- The attempt comes to an end, with an answer or an error. -/
def Attempt.Halts {α : Type} (machine : Machine) (world : World) (attempt : Attempt α) : Prop :=
  ∃ outcome after, attempt.run machine world = some (outcome, after)

theorem Attempt.Halts.of_bind {α β : Type} {machine : Machine} {world between : World}
    {attempt : Attempt α} {next : α → Attempt β} {outcome : Except Error α}
    (ran : attempt.run machine world = some (outcome, between))
    (goesOn : ∀ answer, outcome = .ok answer → (next answer).Halts machine between) :
    (attempt >>= next).Halts machine world := by
  cases outcome with
  | error error => exact ⟨_, _, Attempt.run_bind_error ran⟩
  | ok answer =>
      rcases goesOn answer rfl with ⟨outcome, after, later⟩
      exact ⟨outcome, after, (Attempt.run_bind_ok ran).trans later⟩

theorem Attempt.Halts.map {α β : Type} {machine : Machine} {world : World} {attempt : Attempt α}
    (halts : attempt.Halts machine world) (change : α → β) :
    (attempt >>= fun answer => pure (change answer)).Halts machine world := by
  rcases halts with ⟨outcome, after, ran⟩
  exact .of_bind ran fun answer _ => ⟨_, _, rfl⟩

theorem Attempt.Halts.of_first {α β : Type} {machine : Machine} {world between : World}
    {computation : Run α} {next : α → Attempt β} {answer : α}
    (ran : computation machine world = some (answer, between))
    (halts : (next answer).Halts machine between) :
    ((liftM computation : Attempt α) >>= next).Halts machine world := by
  rcases halts with ⟨outcome, after, later⟩
  exact ⟨outcome, after, (Attempt.run_first ran).trans later⟩

namespace Atom

/-- Whoever calls the function is answered. -/
def Answers (machine : Machine) (function : Value) : Prop :=
  ∀ arguments world, ∃ outcome after,
    machine.call machine.held function arguments world = some (outcome, after)

section

variable {cell : Cell} {machine : Machine} {atom : AtomCell} {world : World}

theorem run_atomAt (here : world.atoms.get? cell.index = some atom) :
    Run.atomAt cell machine world = some (atom, world) := by
  refine (Run.run_bind Run.run_get).trans ?_
  rw [here]
  rfl

theorem exists_validate {candidate : Value}
    (guard : ∀ validator, atom.validator = some validator →
      IsAloof machine cell validator ∧ Answers machine validator)
    (here : world.atoms.get? cell.index = some atom) :
    ∃ verdict after, (validate cell candidate).run machine world = some (verdict, after) ∧
      after.atoms.get? cell.index = some atom := by
  rw [validate, Attempt.run_first (run_atomAt here)]
  cases guarded : atom.validator with
  | none => exact ⟨_, _, rfl, here⟩
  | some validator =>
      rcases guard validator guarded with ⟨aloof, answers⟩
      rcases answers [candidate] world with ⟨outcome, after, called⟩
      have still := (aloof _ _ _ _ called).trans here
      have asked : (Attempt.callTruthy validator [candidate]).run machine world =
          some (outcome.map Value.isTruthy, after) := by
        cases outcome with
        | error => exact Attempt.run_bind_error called
        | ok => exact Attempt.run_bind_ok called
      cases outcome with
      | error => exact ⟨_, _, Attempt.run_bind_error asked, still⟩
      | ok verdict =>
          refine ⟨judgement (.ok verdict), after, (Attempt.run_bind_ok asked).trans ?_, still⟩
          unfold judgement
          dsimp only
          cases verdict.isTruthy <;> rfl

theorem notifyAll_halts {old new : Value} {watches : List (Value × Value)}
    (answers : ∀ entry ∈ watches, Answers machine entry.2) (world : World) :
    (notifyAll cell old new watches).Halts machine world := by
  induction watches generalizing world with
  | nil => exact ⟨_, _, rfl⟩
  | cons entry rest induction =>
      rcases answers entry (List.mem_cons_self ..) [entry.1, .atom cell, old, new] world with
        ⟨outcome, between, called⟩
      exact .of_bind called fun _ _ =>
        induction (fun other member => answers other (List.mem_cons_of_mem _ member)) between

/-- A state that is due is installed, and the watches are told. -/
theorem notify_halts {old new : Value} (answers : ∀ entry ∈ atom.watches, Answers machine entry.2)
    (here : world.atoms.get? cell.index = some atom) :
    (notify cell old new).Halts machine (installedIn cell world new) :=
  .of_first (run_atomAt (Store.get?_modify_self here _)) (notifyAll_halts answers _)

section

variable
  (guard : ∀ validator, atom.validator = some validator →
    IsAloof machine cell validator ∧ Answers machine validator)
  (watches : ∀ entry ∈ atom.watches, Answers machine entry.2)

include guard watches

theorem swapValues_halts {function : Value} {arguments : List Value}
    (hasSteps : 0 < machine.limit)
    (works : IsAloof machine cell function ∧ Answers machine function)
    (here : world.atoms.get? cell.index = some atom) :
    (swapValues cell function arguments).Halts machine world := by
  rcases Nat.exists_eq_succ_of_ne_zero (Nat.ne_of_gt hasSteps) with ⟨fuel, enough⟩
  refine .of_first (rfl : Run.limit machine world = some (machine.limit, world)) ?_
  rw [enough, swapWithin]
  refine .of_first (run_atomAt here) ?_
  rcases works.2 (atom.value :: arguments) world with ⟨outcome, between, called⟩
  refine .of_bind called fun candidate _ => ?_
  have stillThere := (works.1 _ _ _ _ called).trans here
  rcases exists_validate guard stillThere with ⟨verdict, ready, validated, still⟩
  refine .of_bind validated fun _ _ => ?_
  -- The revision is the same, so there is no second round.
  have installed : installOver cell atom.revision candidate machine ready =
      some (true, installedIn cell ready candidate) := by
    rw [installOver, Run.run_bind (run_atomAt still), if_pos rfl]
    rfl
  exact .of_first installed ((notify_halts watches still).map _)

theorem resetValues_halts {new : Value} (here : world.atoms.get? cell.index = some atom) :
    (resetValues cell new).Halts machine world := by
  rcases exists_validate guard here with ⟨verdict, ready, validated, still⟩
  refine .of_bind validated fun _ _ => ?_
  have looked : deref cell machine ready = some (atom.value, ready) :=
    Run.run_bind (run_atomAt still)
  have installed : install cell new machine ready = some ((), installedIn cell ready new) := rfl
  exact .of_first looked (.of_first installed ((notify_halts watches still).map _))

theorem compareAndSet_halts {expected new : Value}
    (here : world.atoms.get? cell.index = some atom) :
    (compareAndSet cell expected new).Halts machine world := by
  rcases exists_validate guard here with ⟨verdict, ready, validated, still⟩
  refine .of_bind validated fun _ _ => .of_first (run_atomAt still) ?_
  split
  case isTrue =>
    have installed : install cell new machine ready = some ((), installedIn cell ready new) := rfl
    exact .of_first installed ((notify_halts watches still).map _)
  case isFalse => exact ⟨_, _, rfl⟩

/-- Every update comes to an end if the functions that it calls leave the atom alone and answer. -/
theorem Update.perform_halts {update : Update} (hasSteps : 0 < machine.limit)
    (works : ∀ function arguments, update.source = .inl (function, arguments) →
      IsAloof machine cell function ∧ Answers machine function)
    (here : world.atoms.get? cell.index = some atom) :
    (update.perform cell).Halts machine world := by
  cases update with
  | swap function arguments =>
      have halts : (Atom.swapValues cell function arguments).Halts machine world :=
        swapValues_halts guard watches hasSteps (works _ _ rfl) here
      exact (halts.map Prod.snd).map Answer.state
  | swapValues function arguments =>
      exact (swapValues_halts guard watches hasSteps (works _ _ rfl) here).map _
  | reset new => exact ((resetValues_halts guard watches here).map Prod.snd).map Answer.state
  | resetValues new => exact (resetValues_halts guard watches here).map _
  | compareAndSet expected new => exact (compareAndSet_halts guard watches here).map _

end

end

end Atom

end LispRuntime
