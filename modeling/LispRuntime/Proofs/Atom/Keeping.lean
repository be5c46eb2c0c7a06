import LispRuntime.Proofs.Atom.Account

/-! What an account of an atom comes to. What has been done moves the atom from one state to the
next, each move from the state that the one before has led to, and each update that takes effect
has been worked out for the state that it replaces. If no request leads out of the good states,
no run does. -/

namespace LispRuntime.Atom

variable {cell : Cell} {admissible : Value → Prop}

/-! ## Moves -/

inductive Move where
  | install (old new : Value)
  | decline (current : Value)
  | guard (validator : Option Value)

namespace Move

/-- A state is replaced, or found wanting, that is there. -/
def Fits : Move → State → Prop
  | install old _, state => state.value = old
  | decline current, state => state.value = current
  | guard _, _ => True

def apply : Move → State → State
  | install _ new, state => state.installing new
  | decline _, state => state
  | guard validator, state => state.guarding validator

end Move

mutual

/-- The moves that a deed consists of, in the order in which they are made. -/
def Deed.moves : Deed admissible → List Move
  | .applies _ _ inner _ => movesOf inner
  | .installs old new => [.install old new]
  | .declines current => [.decline current]
  | .guards validator => [.guard validator]
  | .asks _ inner _ => movesOf inner

def movesOf : List (Deed admissible) → List Move
  | [] => []
  | deed :: rest => deed.moves ++ movesOf rest

end

@[simp] theorem movesOf_append (first second : List (Deed admissible)) :
    movesOf (first ++ second) = movesOf first ++ movesOf second := by
  induction first with
  | nil => rw [List.nil_append, movesOf, List.nil_append]
  | cons deed rest induction => rw [List.cons_append, movesOf, movesOf, induction,
      List.append_assoc]

/-- The moves lead from one state to another, through good ones only. -/
inductive Path (good : State → Prop) : State → List Move → State → Prop where
  | stay {state : State} (here : good state) : Path good state [] state
  | step {state last : State} {move : Move} {moves : List Move} (here : good state)
      (fits : move.Fits state) (rest : Path good (move.apply state) moves last) :
      Path good state (move :: moves) last

namespace Path

variable {good : State → Prop} {start middle last : State} {moves more : List Move}

theorem trans (path : Path good start moves middle) (onward : Path good middle more last) :
    Path good start (moves ++ more) last := by
  induction path with
  | stay here => exact onward
  | step here fits rest induction => exact .step here fits (induction onward)

theorem good_last (path : Path good start moves last) : good last := by
  induction path with
  | stay here => exact here
  | step here fits rest induction => exact induction

theorem mono {better : State → Prop} (finer : ∀ state, good state → better state)
    (path : Path good start moves last) : Path better start moves last := by
  induction path with
  | stay here => exact .stay (finer _ here)
  | step here fits rest induction => exact .step (finer _ here) fits induction

theorem one {move : Move} (here : good start) (fits : move.Fits start)
    (there : good (move.apply start)) : Path good start [move] (move.apply start) :=
  .step here fits (.stay there)

theorem revision_le (path : Path good start moves last) : start.revision ≤ last.revision := by
  induction path with
  | stay here => exact Nat.le_refl _
  | @step state last move moves here fits rest induction =>
      cases move with
      | install old new => exact Nat.le_of_succ_le induction
      | decline current => exact induction
      | guard validator => exact induction

end Path

/-- No state is installed. -/
def Quiet (moves : List Move) : Prop := ∀ old new, Move.install old new ∉ moves

namespace Path

variable {good : State → Prop} {start last : State} {moves : List Move}

/-- The revision tells whether a state has been installed. -/
theorem quiet_iff (path : Path good start moves last) :
    Quiet moves ↔ last.revision = start.revision := by
  induction path with
  | stay here => exact ⟨fun _ => rfl, fun _ _ _ => List.not_mem_nil⟩
  | @step state last move moves here fits rest induction =>
      have skip (other : ∀ old new, Move.install old new ≠ move) :
          Quiet (move :: moves) ↔ Quiet moves :=
        forall₂_congr fun old new => by rw [List.mem_cons, not_or, and_iff_right (other old new)]
      cases move with
      | install old new =>
          refine ⟨fun quiet => absurd (List.mem_cons_self ..) (quiet old new), fun same => ?_⟩
          exact absurd (Nat.le_of_eq same) (Nat.not_le_of_lt rest.revision_le)
      | decline current => exact (skip fun _ _ => nofun).trans induction
      | guard validator => exact (skip fun _ _ => nofun).trans induction

theorem value_eq (path : Path good start moves last) (same : last.revision = start.revision) :
    last.value = start.value := by
  induction path with
  | stay here => rfl
  | @step state last move moves here fits rest induction =>
      cases move with
      | install old new => exact absurd (Nat.le_of_eq same) (Nat.not_le_of_lt rest.revision_le)
      | decline current => exact induction same
      | guard validator => exact induction same

end Path

/-! ## Requests by themselves -/

def Deed.IsApplication : Deed admissible → Prop
  | .applies .. => True
  | _ => False

/-- Rounds in vain: in each of them another state has been installed since the function was
called. -/
inductive Overtaken (function : Value) (arguments : List Value) :
    List (Deed admissible) → Prop where
  | none : Overtaken function arguments []
  | round {current candidate : Value} {inner check rest : List (Deed admissible)}
      (changed : ¬ Quiet (movesOf (inner ++ check)))
      (later : Overtaken function arguments rest) :
      Overtaken function arguments
        (.applies function (current :: arguments) inner (.ok candidate) :: check ++ rest)

/-- The new state is what the update is about. For a swap it is the answer of the function to
the very state that it replaces: none has been installed since the function was called. -/
def Update.Due : Update → List (Deed admissible) → Value → Value → Prop
  | swap function arguments, deeds, old, new | swapValues function arguments, deeds, old, new =>
      ∃ overtaken inner check,
        deeds = overtaken ++ .applies function (old :: arguments) inner (.ok new) :: check ∧
        Overtaken function arguments overtaken ∧ Quiet (movesOf (inner ++ check))
  | reset given, _, _, new | resetValues given, _, _, new => new = given
  | compareAndSet expected given, _, old, new => new = given ∧ old.identical expected = true

/-- A function has failed, or the answer of a validator was no. -/
inductive Fails (error : Error) : List (Deed admissible) → Prop where
  | last {before inner : List (Deed admissible)} {function : Value} {arguments : List Value}
      {answer : Except Error Value} (only : ∀ deed ∈ before, deed.IsApplication)
      (failed : judgement answer = .error error) :
      Fails error (before ++ [.applies function arguments inner answer])

/-- What a request does itself, by its outcome. -/
inductive Proper (cell : Cell) :
    Request admissible → List (Deed admissible) → Except Error Answer → Prop where
  /-- A function or the validator has failed, and nothing is done. -/
  | refused {request : Request admissible} {deeds : List (Deed admissible)} {error : Error}
      (fails : Fails error deeds) : Proper cell request deeds (.error error)
  | declined {expected new current : Value} {deeds : List (Deed admissible)}
      (only : ∀ deed ∈ deeds, deed.IsApplication) (other : current.identical expected = false) :
      Proper cell (.update (.compareAndSet expected new)) (deeds ++ [.declines current])
        (.ok (.verdict false))
  /-- If there is an error, it is one of a watch. -/
  | effective {update : Update} {deeds told : List (Deed admissible)} {old new : Value}
      {outcome : Except Error Unit} (only : ∀ deed ∈ deeds, deed.IsApplication)
      (due : update.Due deeds old new)
      (watches : ∀ deed ∈ told, ∃ key watch inner outcome,
        deed = .applies watch [key, .atom cell, old, new] inner outcome)
      (fails : ∀ error, outcome = .error error → Fails error told) :
      Proper cell (.update update) (deeds ++ .installs old new :: told)
        (outcome.map fun _ => update.answer old new)
  | cleared : Proper cell (.setValidator none) [.guards none] (.ok .done)
  | guarded {validator : Subtype admissible} {deeds : List (Deed admissible)}
      (only : ∀ deed ∈ deeds, deed.IsApplication) :
      Proper cell (.setValidator (some validator)) (deeds ++ [.guards (some validator.val)])
        (.ok .done)

mutual

/-- All requests in the deed are proper, those included that were made within other requests. -/
def Deed.AllProper (cell : Cell) : Deed admissible → Prop
  | .applies _ _ inner _ => AllProperIn cell inner
  | .installs .. => True
  | .declines .. => True
  | .guards .. => True
  | .asks request inner outcome => Proper cell request inner outcome ∧ AllProperIn cell inner

def AllProperIn (cell : Cell) : List (Deed admissible) → Prop
  | [] => True
  | deed :: rest => deed.AllProper cell ∧ AllProperIn cell rest

end

@[simp] theorem allProperIn_append (first second : List (Deed admissible)) :
    AllProperIn cell (first ++ second) ↔ AllProperIn cell first ∧ AllProperIn cell second := by
  induction first with
  | nil => rw [List.nil_append, AllProperIn, true_and]
  | cons deed rest induction => rw [List.cons_append, AllProperIn, AllProperIn, induction,
      and_assoc]

/-! ## What is kept -/

/-- The good states are those that requests do not lead out of. -/
structure Keeps (cell : Cell) (calls : Calls admissible) (good : State → Prop) : Prop where
  install : ∀ {candidate : Value} {world after : World} {deeds : List (Deed admissible)}
    {state found : State}, stateIn cell world = some state → good state →
      Validates cell calls candidate world deeds (.ok ()) after →
      stateIn cell after = some found → good found → good (found.installing candidate)
  guard : ∀ {validator : Subtype admissible} {world after : World}
    {deeds : List (Deed admissible)} {state found : State}, stateIn cell world = some state →
      Examines calls validator.val state.value world deeds (.ok ()) after →
      stateIn cell after = some found → good found → good (found.guarding (some validator.val))
  clear : ∀ {state : State}, good state → good (state.guarding none)

/-- From a good state, the deeds lead through good states to the state that is there in the
end, and all requests are proper. -/
def Accounted (cell : Cell) (good : State → Prop) (world : World)
    (deeds : List (Deed admissible)) (after : World) : Prop :=
  ∀ start, stateIn cell world = some start → good start →
    ∃ finish, stateIn cell after = some finish ∧ Path good start (movesOf deeds) finish ∧
      AllProperIn cell deeds

namespace Accounted

variable {good : State → Prop} {world between after : World}
  {first second inner : List (Deed admissible)}

theorem nil (world : World) :
    Accounted cell good world ([] : List (Deed admissible)) world :=
  fun start here isGood => ⟨start, here, .stay isGood, trivial⟩

theorem append (accounted : Accounted cell good world first between)
    (onward : Accounted cell good between second after) :
    Accounted cell good world (first ++ second) after := by
  intro start here isGood
  rcases accounted start here isGood with ⟨middle, there, path, proper⟩
  rcases onward middle there path.good_last with ⟨finish, last, pathOnward, properOnward⟩
  refine ⟨finish, last, ?_, (allProperIn_append ..).mpr ⟨proper, properOnward⟩⟩
  rw [movesOf_append]
  exact path.trans pathOnward

theorem application {function : Value} {arguments : List Value} {outcome : Except Error Value}
    (accounted : Accounted cell good world inner after) :
    Accounted cell good world [.applies function arguments inner outcome] after := by
  intro start here isGood
  rcases accounted start here isGood with ⟨finish, there, path, proper⟩
  refine ⟨finish, there, ?_, proper, trivial⟩
  rw [movesOf, movesOf, List.append_nil]
  exact path

/-- One more move. What it takes may go back to the start. -/
theorem snoc {deed : Deed admissible} (move : Move) (is : deed.moves = [move])
    (proper : deed.AllProper cell) (accounted : Accounted cell good world first between)
    (moves : ∀ start found, stateIn cell world = some start → good start →
      stateIn cell between = some found → good found → move.Fits found ∧
        good (move.apply found) ∧ stateIn cell after = some (move.apply found)) :
    Accounted cell good world (first ++ [deed]) after := by
  intro start here isGood
  rcases accounted start here isGood with ⟨found, there, path, properFirst⟩
  rcases moves start found here isGood there path.good_last with ⟨fits, goodThen, last⟩
  refine ⟨_, last, ?_, (allProperIn_append ..).mpr ⟨properFirst, proper, trivial⟩⟩
  rw [movesOf_append, movesOf, movesOf, is, List.append_nil]
  exact path.trans (.one path.good_last fits goodThen)

theorem request {request : Request admissible} {outcome : Except Error Answer}
    (accounted : Accounted cell good world inner after)
    (proper : ∀ start, stateIn cell world = some start → good start →
      Proper cell request inner outcome) :
    Accounted cell good world [.asks request inner outcome] after := by
  intro start here isGood
  rcases accounted start here isGood with ⟨finish, there, path, properInside⟩
  refine ⟨finish, there, ?_, ⟨proper start here isGood, properInside⟩, trivial⟩
  rw [movesOf, movesOf, List.append_nil]
  exact path

end Accounted

theorem Fails.one {error : Error} {function : Value} {arguments : List Value}
    {inner : List (Deed admissible)} {answer : Except Error Value}
    (failed : judgement answer = .error error) :
    Fails error [.applies function arguments inner answer] := by
  rw [← List.nil_append [_]]
  exact .last (fun _ => nofun) failed

theorem Fails.after {error : Error} {before deeds : List (Deed admissible)}
    (only : ∀ deed ∈ before, deed.IsApplication) (fails : Fails error deeds) :
    Fails error (before ++ deeds) := by
  cases fails with
  | last onlyThen failed =>
      rw [← List.append_assoc]
      exact .last (List.forall_mem_append.mpr ⟨only, onlyThen⟩) failed

theorem Fails.cons {error : Error} {deed : Deed admissible} {deeds : List (Deed admissible)}
    (isApplication : deed.IsApplication) (fails : Fails error deeds) :
    Fails error (deed :: deeds) := by
  rw [← List.singleton_append]
  exact fails.after (List.forall_mem_singleton.mpr isApplication)

/-! ## Parts of a request -/

section

variable {calls : Calls admissible} {good : State → Prop} {world after : World}
  {deeds : List (Deed admissible)}

/-- All calls are accounted for. -/
def AccountedCalls (cell : Cell) (calls : Calls admissible) (good : State → Prop) : Prop :=
  ∀ {function : Value} {arguments : List Value} {world after : World}
    {deeds : List (Deed admissible)} {outcome : Except Error Value},
    calls function arguments world deeds outcome after → Accounted cell good world deeds after

namespace Examines

variable {validator candidate : Value} {verdict : Except Error Unit}

theorem accounted (accountedCalls : AccountedCalls cell calls good)
    (examines : Examines calls validator candidate world deeds verdict after) :
    Accounted cell good world deeds after := by
  cases examines with
  | intro called => exact (accountedCalls called).application

theorem only (examines : Examines calls validator candidate world deeds verdict after) :
    ∀ deed ∈ deeds, deed.IsApplication := by
  cases examines with
  | intro called => exact List.forall_mem_singleton.mpr trivial

theorem fails {error : Error}
    (examines : Examines calls validator candidate world deeds (.error error) after) :
    Fails error deeds := by
  generalize failed : Except.error error = verdict at examines
  cases examines with
  | intro called => exact .one failed.symm

end Examines

namespace Validates

variable {candidate : Value} {verdict : Except Error Unit}

theorem accounted (accountedCalls : AccountedCalls cell calls good)
    (validates : Validates cell calls candidate world deeds verdict after) :
    Accounted cell good world deeds after := by
  cases validates with
  | unguarded here free => exact .nil _
  | guarded here guard examines => exact examines.accounted accountedCalls

theorem only (validates : Validates cell calls candidate world deeds verdict after) :
    ∀ deed ∈ deeds, deed.IsApplication := by
  cases validates with
  | unguarded here free => exact fun _ => nofun
  | guarded here guard examines => exact examines.only

theorem fails {error : Error}
    (validates : Validates cell calls candidate world deeds (.error error) after) :
    Fails error deeds := by
  cases validates with
  | guarded here guard examines => exact examines.fails

end Validates

namespace Notifies

variable {old new : Value} {watches : List (Value × Value)} {outcome : Except Error Unit}

theorem accounted (accountedCalls : AccountedCalls cell calls good)
    (notifies : Notifies cell calls old new watches world deeds outcome after) :
    Accounted cell good world deeds after := by
  induction notifies with
  | done => exact .nil _
  | failed called => exact (accountedCalls called).application
  | next called later induction =>
      exact ((accountedCalls called).application).append induction

theorem told (notifies : Notifies cell calls old new watches world deeds outcome after) :
    ∀ deed ∈ deeds, ∃ key watch inner outcome,
      deed = .applies watch [key, .atom cell, old, new] inner outcome := by
  induction notifies with
  | done => exact fun _ => nofun
  | failed called => exact List.forall_mem_singleton.mpr ⟨_, _, _, _, rfl⟩
  | next called later induction =>
      exact List.forall_mem_cons.mpr ⟨⟨_, _, _, _, rfl⟩, induction⟩

theorem fails (notifies : Notifies cell calls old new watches world deeds outcome after) :
    ∀ error, outcome = .error error → Fails error deeds := by
  induction notifies with
  | done => exact fun _ => nofun
  | failed called =>
      intro error same
      exact .one same
  | next called later induction =>
      intro error same
      exact .cons trivial (induction error same)

end Notifies

namespace WorksOut

variable {function : Value} {arguments : List Value} {outcome : Except Error (Value × Value)}

theorem accounted (accountedCalls : AccountedCalls cell calls good)
    (worksOut : WorksOut cell calls function arguments world deeds outcome after) :
    Accounted cell good world deeds after := by
  induction worksOut with
  | failed here called => exact (accountedCalls called).application
  | rejected here called rejects =>
      exact ((accountedCalls called).application).append (rejects.accounted accountedCalls)
  | due here called accepts there same =>
      exact ((accountedCalls called).application).append (accepts.accounted accountedCalls)
  | overtaken here called accepts there different later induction =>
      exact .append ((accountedCalls called).application.append
        (accepts.accounted accountedCalls)) induction

theorem only (worksOut : WorksOut cell calls function arguments world deeds outcome after) :
    ∀ deed ∈ deeds, deed.IsApplication := by
  induction worksOut with
  | failed here called => exact List.forall_mem_singleton.mpr trivial
  | rejected here called rejects => exact List.forall_mem_cons.mpr ⟨trivial, rejects.only⟩
  | due here called accepts there same =>
      exact List.forall_mem_cons.mpr ⟨trivial, accepts.only⟩
  | overtaken here called accepts there different later induction =>
      exact List.forall_mem_append.mpr
        ⟨List.forall_mem_cons.mpr ⟨trivial, accepts.only⟩, induction⟩

theorem fails (worksOut : WorksOut cell calls function arguments world deeds outcome after) :
    ∀ error, outcome = .error error → Fails error deeds := by
  induction worksOut with
  | failed here called =>
      intro error same
      cases same
      exact .one rfl
  | rejected here called rejects =>
      intro error same
      cases same
      exact .cons trivial rejects.fails
  | due here called accepts there same => exact fun _ => nofun
  | overtaken here called accepts there different later induction =>
      intro error same
      exact .after (List.forall_mem_cons.mpr ⟨trivial, accepts.only⟩) (induction error same)

/-- As no state has been installed since the function was called, its argument is the state that
is there still. -/
theorem ready (keeps : Keeps cell calls good) (accountedCalls : AccountedCalls cell calls good)
    (worksOut : WorksOut cell calls function arguments world deeds outcome after) {old new : Value}
    (isDue : outcome = .ok (old, new)) {start : State} (here : stateIn cell world = some start)
    (isGood : good start) :
    ∃ found, stateIn cell after = some found ∧ found.value = old ∧ good (found.installing new) ∧
      ∃ overtaken inner check,
        deeds = overtaken ++ .applies function (old :: arguments) inner (.ok new) :: check ∧
        Overtaken function arguments overtaken ∧ Quiet (movesOf (inner ++ check)) := by
  induction worksOut generalizing start with
  | failed => cases isDue
  | rejected => cases isDue
  | due here' called accepts there same =>
      cases isDue
      cases here.symm.trans here'
      rcases accountedCalls called _ here isGood with ⟨asked, between, inside, _⟩
      rcases accepts.accounted accountedCalls _ between inside.good_last with
        ⟨_, there', checked, _⟩
      cases there.symm.trans there'
      have path := inside.trans checked
      have quiet := path.quiet_iff.mpr same
      rw [← movesOf_append] at quiet
      exact ⟨_, there, path.value_eq same,
        keeps.install between inside.good_last accepts there path.good_last, [], _, _, rfl, .none,
        quiet⟩
  | overtaken here' called accepts there different later induction =>
      cases here.symm.trans here'
      rcases (accountedCalls called).append (accepts.accounted accountedCalls) _ here isGood
        with ⟨finish, there', path, _⟩
      cases there.symm.trans there'
      rcases induction isDue there path.good_last with
        ⟨found, reached, replaced, goodThen, overtaken, inner, check, rfl, inVain, quiet⟩
      exact ⟨found, reached, replaced, goodThen, _, inner, check, (List.append_assoc ..).symm,
        .round (fun quiet => different (path.quiet_iff.mp quiet)) inVain, quiet⟩

end WorksOut

namespace Proposes

variable {new : Value} {outcome : Except Error (Value × Value)}

theorem accounted (accountedCalls : AccountedCalls cell calls good)
    (proposes : Proposes cell calls new world deeds outcome after) :
    Accounted cell good world deeds after := by
  cases proposes with
  | rejected rejects => exact rejects.accounted accountedCalls
  | due accepts there => exact accepts.accounted accountedCalls

theorem only (proposes : Proposes cell calls new world deeds outcome after) :
    ∀ deed ∈ deeds, deed.IsApplication := by
  cases proposes with
  | rejected rejects => exact rejects.only
  | due accepts there => exact accepts.only

theorem fails (proposes : Proposes cell calls new world deeds outcome after) :
    ∀ error, outcome = .error error → Fails error deeds := by
  cases proposes with
  | rejected rejects =>
      intro error same
      cases same
      exact rejects.fails
  | due accepts there => exact fun _ => nofun

theorem ready (keeps : Keeps cell calls good) (accountedCalls : AccountedCalls cell calls good)
    {old proposed : Value}
    (proposes : Proposes cell calls new world deeds (.ok (old, proposed)) after) {start : State}
    (here : stateIn cell world = some start) (isGood : good start) :
    ∃ found, stateIn cell after = some found ∧ found.value = old ∧
      good (found.installing proposed) ∧ proposed = new := by
  cases proposes with
  | due accepts there =>
      rcases accepts.accounted accountedCalls start here isGood with ⟨finish, there', path, _⟩
      cases there.symm.trans there'
      exact ⟨_, there, rfl, keeps.install here isGood accepts there path.good_last, rfl⟩

end Proposes

namespace Update.Prepares

variable {update : Update} {outcome : Except Error (Value × Value)}

theorem accounted (accountedCalls : AccountedCalls cell calls good)
    (prepares : update.Prepares cell calls world deeds outcome after) :
    Accounted cell good world deeds after := by
  cases update with
  | swap | swapValues => exact WorksOut.accounted accountedCalls prepares
  | reset | resetValues | compareAndSet => exact Proposes.accounted accountedCalls prepares

theorem only (prepares : update.Prepares cell calls world deeds outcome after) :
    ∀ deed ∈ deeds, deed.IsApplication := by
  cases update with
  | swap | swapValues => exact WorksOut.only prepares
  | reset | resetValues | compareAndSet => exact Proposes.only prepares

theorem fails {error : Error}
    (prepares : update.Prepares cell calls world deeds (.error error) after) :
    Fails error deeds := by
  cases update with
  | swap | swapValues => exact WorksOut.fails prepares error rfl
  | reset | resetValues | compareAndSet => exact Proposes.fails prepares error rfl

/-- The state that is to be replaced is there, and the new one is good and due. -/
theorem ready (keeps : Keeps cell calls good) (accountedCalls : AccountedCalls cell calls good)
    {old new : Value} (prepares : update.Prepares cell calls world deeds (.ok (old, new)) after)
    {start : State} (here : stateIn cell world = some start) (isGood : good start) :
    ∃ found, stateIn cell after = some found ∧ found.value = old ∧ good (found.installing new) ∧
      (update.replaces old = true → update.Due deeds old new) := by
  cases update with
  | swap | swapValues =>
      rcases WorksOut.ready keeps accountedCalls prepares rfl here isGood with
        ⟨found, there, same, goodThen, due⟩
      exact ⟨found, there, same, goodThen, fun _ => due⟩
  | reset | resetValues =>
      rcases Proposes.ready keeps accountedCalls prepares here isGood with
        ⟨found, there, same, goodThen, isNew⟩
      exact ⟨found, there, same, goodThen, fun _ => isNew⟩
  | compareAndSet =>
      rcases Proposes.ready keeps accountedCalls prepares here isGood with
        ⟨found, there, same, goodThen, isNew⟩
      exact ⟨found, there, same, goodThen, fun identical => ⟨isNew, identical⟩⟩

end Update.Prepares

/-! ## Requests, conduct and runs -/

theorem Fulfils.accounted (keeps : Keeps cell calls good)
    (accountedCalls : AccountedCalls cell calls good) {request : Request admissible}
    {outcome : Except Error Answer}
    (fulfils : Fulfils cell calls request world deeds outcome after) :
    Accounted cell good world [.asks request deeds outcome] after := by
  cases fulfils with
  | refused prepares =>
      exact (prepares.accounted accountedCalls).request fun _ _ _ => .refused prepares.fails
  | @declined update _ _ _ current _ prepares other =>
      refine Accounted.request (.snoc (.decline current) rfl trivial
        (prepares.accounted accountedCalls) ?_) ?_
      · intro start found here isGood there goodThere
        rcases prepares.ready keeps accountedCalls here isGood with ⟨_, there', same, _⟩
        cases there.symm.trans there'
        exact ⟨same, goodThere, there⟩
      · intro start here isGood
        cases update with
        | compareAndSet expected new => exact .declined prepares.only other
        | swap | swapValues | reset | resetValues => cases other
  | @effective update _ ready _ prepared _ old new _ _ prepares replaces _ notifies =>
      have installed : Accounted cell good world (prepared ++ [.installs old new])
          (installedIn cell ready new) := by
        refine .snoc (.install old new) rfl trivial (prepares.accounted accountedCalls) ?_
        intro start found here isGood there goodThere
        rcases prepares.ready keeps accountedCalls here isGood with ⟨_, there', same, goodThen, _⟩
        cases there.symm.trans there'
        exact ⟨same, goodThen, stateIn_installedIn there new⟩
      have accounted := installed.append (notifies.accounted accountedCalls)
      rw [← List.append_cons] at accounted
      refine accounted.request fun start here isGood => ?_
      rcases prepares.ready keeps accountedCalls here isGood with ⟨_, _, _, _, due⟩
      exact .effective prepares.only (due replaces) notifies.told notifies.fails
  | cleared =>
      rw [← List.nil_append [Deed.guards none]]
      refine Accounted.request (.snoc (.guard none) rfl trivial (.nil _) ?_) fun _ _ _ => .cleared
      intro start found here isGood there goodThere
      exact ⟨trivial, keeps.clear goodThere, stateIn_guardedIn there none⟩
  | disqualified here examines =>
      exact (examines.accounted accountedCalls).request fun _ _ _ => .refused examines.fails
  | @guarded validator _ _ _ _ here examines =>
      refine Accounted.request (.snoc (.guard (some validator.val)) rfl trivial
        (examines.accounted accountedCalls) ?_) fun _ _ _ => .guarded examines.only
      intro start found _ _ there goodThere
      exact ⟨trivial, keeps.guard here examines there goodThere, stateIn_guardedIn there _⟩

/-- What one request keeps, a whole conduct keeps. -/
theorem Conducts.accounted (keeps : Keeps cell calls good)
    (accountedCalls : AccountedCalls cell calls good) {conduct : Conduct cell admissible}
    {outcome : Except Error Value}
    (conducts : Conducts calls conduct world deeds outcome after) :
    Accounted cell good world deeds after := by
  induction conducts with
  | exit => exact .nil _
  | ask fulfils later induction =>
      exact (fulfils.accounted keeps accountedCalls).append induction
  | call called later induction => exact (accountedCalls called).application.append induction
  | @elsewhere other _ world _ _ _ later induction =>
      intro start here isGood
      exact induction start ((other.keeps world).trans here) isGood

end

section

variable {library : Library cell admissible} {held : List Operand} {limit : Nat}
  {good : State → Prop}

/-- What conduct keeps by way of calls, calls keep, however deep they go. -/
theorem Library.accountedCalls (keeps : ∀ depth, Keeps cell (library.calls held limit depth) good)
    (depth : Nat) : AccountedCalls cell (library.calls held limit depth) good := by
  induction depth with
  | zero => exact fun called => False.elim called
  | succ depth induction => exact fun called => called.2.accounted (keeps depth) induction

/-- Every run has an account, and it leads from good states to good states. -/
theorem Library.run_accounted
    (keeps : ∀ depth, Keeps cell (library.calls held limit depth) good) {depth : Nat}
    {conduct : Conduct cell admissible} {world after : World} {start : State}
    {outcome : Except Error Value} (here : stateIn cell world = some start) (isGood : good start)
    (ran : conduct.run.run (library.machine held limit depth) world = some (outcome, after)) :
    ∃ deeds finish,
      Conducts (library.calls held limit depth) conduct world deeds outcome after ∧
      stateIn cell after = some finish ∧ Path good start (movesOf deeds) finish ∧
      AllProperIn cell deeds := by
  rcases (library.recorded held limit depth).conducts ran with ⟨deeds, conducts⟩
  rcases conducts.accounted (keeps depth) (Library.accountedCalls keeps depth) start here isGood
    with ⟨finish, there, path, proper⟩
  exact ⟨deeds, finish, conducts, there, path, proper⟩

end

end LispRuntime.Atom
