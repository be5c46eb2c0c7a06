import LispRuntime.Proofs.Sequence.Opening
import LispRuntime.Sequence.Reduce

/-! A reduction is a left fold in which steps of a walk and calls of the function take turns. An
element is read when the function is done with the one before, so that behind the last element
that is read nothing is asked for. -/

namespace LispRuntime

/-- One turn of a reduction: what the walk has met, with the lazy seqs that were forced for it and
the calls of their bodies, and the call of the function, if there was one. -/
structure Turn where
  met : Cursor.Yield
  forced : List (Ref .deferred)
  bodies : List Application
  applied : Option Application

namespace Turn

/-- All calls that are made in the turn. -/
def calls (turn : Turn) : List Application := turn.bodies ++ turn.applied.toList

/-- The cell is not forced, and all calls leave it as it is. -/
def Spares (cell : Ref .deferred) (turn : Turn) : Prop :=
  cell ∉ turn.forced ∧ ∀ application ∈ turn.calls, application.Spares cell

end Turn

/-- The left fold of a function over what a walk meets. It ends with the walk or with the first
error, and it stops with the value inside the first reduced value that the function answers. -/
inductive Folds (machine : Machine) (function : Value) : Cursor → Value → World → List Turn →
    Except Error Value → World → Prop
  | ended {cursor rest : Cursor} {accumulated : Value} {world after : World}
      {forced : List (Ref .deferred)} {bodies : List Application}
      (reads : Advances machine cursor world forced bodies (none, rest) after) :
      Folds machine function cursor accumulated world [⟨none, forced, bodies, none⟩]
        (.ok accumulated) after
  | failed {cursor rest : Cursor} {accumulated : Value} {world after : World}
      {forced : List (Ref .deferred)} {bodies : List Application} {error : Error}
      (reads : Advances machine cursor world forced bodies (some (.error error), rest) after) :
      Folds machine function cursor accumulated world
        [⟨some (.error error), forced, bodies, none⟩] (.error error) after
  | refused {cursor rest : Cursor} {accumulated item : Value} {world between after : World}
      {forced : List (Ref .deferred)} {bodies : List Application} {error : Error}
      (reads : Advances machine cursor world forced bodies (some (.ok item), rest) between)
      (called : Application.Made machine
        ⟨function, [accumulated, item], between, .error error, after⟩) :
      Folds machine function cursor accumulated world
        [⟨some (.ok item), forced, bodies,
          some ⟨function, [accumulated, item], between, .error error, after⟩⟩]
        (.error error) after
  | stopped {cursor rest : Cursor} {accumulated item answer : Value} {world between after : World}
      {forced : List (Ref .deferred)} {bodies : List Application}
      (reads : Advances machine cursor world forced bodies (some (.ok item), rest) between)
      (called : Application.Made machine
        ⟨function, [accumulated, item], between, .ok answer, after⟩)
      (reduced : answer.isReduced = true) :
      Folds machine function cursor accumulated world
        [⟨some (.ok item), forced, bodies,
          some ⟨function, [accumulated, item], between, .ok answer, after⟩⟩]
        (.ok answer.unreduced) after
  | goesOn {cursor rest : Cursor} {accumulated item answer : Value}
      {world between later after : World} {forced : List (Ref .deferred)}
      {bodies : List Application} {turns : List Turn} {outcome : Except Error Value}
      (reads : Advances machine cursor world forced bodies (some (.ok item), rest) between)
      (called : Application.Made machine
        ⟨function, [accumulated, item], between, .ok answer, later⟩)
      (notReduced : answer.isReduced = false)
      (folds : Folds machine function rest answer later turns outcome after) :
      Folds machine function cursor accumulated world
        (⟨some (.ok item), forced, bodies,
          some ⟨function, [accumulated, item], between, .ok answer, later⟩⟩ :: turns)
        outcome after

/-- The fold that starts with the first element. Where there is none, the function is called with
nothing. -/
inductive FoldsOwn (machine : Machine) (function : Value) : Cursor → World → List Turn →
    Except Error Value → World → Prop
  | empty {cursor rest : Cursor} {world between after : World} {forced : List (Ref .deferred)}
      {bodies : List Application} {outcome : Except Error Value}
      (reads : Advances machine cursor world forced bodies (none, rest) between)
      (called : Application.Made machine ⟨function, [], between, outcome, after⟩) :
      FoldsOwn machine function cursor world
        [⟨none, forced, bodies, some ⟨function, [], between, outcome, after⟩⟩] outcome after
  | failed {cursor rest : Cursor} {world after : World} {forced : List (Ref .deferred)}
      {bodies : List Application} {error : Error}
      (reads : Advances machine cursor world forced bodies (some (.error error), rest) after) :
      FoldsOwn machine function cursor world [⟨some (.error error), forced, bodies, none⟩]
        (.error error) after
  | starts {cursor rest : Cursor} {item : Value} {world between after : World}
      {forced : List (Ref .deferred)} {bodies : List Application} {turns : List Turn}
      {outcome : Except Error Value}
      (reads : Advances machine cursor world forced bodies (some (.ok item), rest) between)
      (folds : Folds machine function rest item between turns outcome after) :
      FoldsOwn machine function cursor world (⟨some (.ok item), forced, bodies, none⟩ :: turns)
        outcome after

variable {machine : Machine} {function accumulated : Value} {cursor rest : Cursor}
  {world between after : World} {turns : List Turn} {outcome : Except Error Value}

/-! ## A run is a fold -/

namespace Value

/-- What the function answers is gone on with, or it is the answer of the whole. -/
def verdict (answer : Value) : Value ⊕ Value :=
  if answer.isReduced then .inr answer.unreduced else .inl answer

theorem verdict_of_reduced {answer : Value} (reduced : answer.isReduced = true) :
    answer.verdict = .inr answer.unreduced := if_pos reduced

theorem verdict_of_not_reduced {answer : Value} (notReduced : answer.isReduced = false) :
    answer.verdict = .inl answer := if_neg (Bool.eq_false_iff.mp notReduced)

theorem exists_of_reduceStep {item : Value} {result : Except Error (Value ⊕ Value)}
    (ran : (reduceStep function accumulated item).run machine world = some (result, after)) :
    ∃ answered, Application.Made machine
        ⟨function, [accumulated, item], world, answered, after⟩ ∧
      result = answered.map verdict :=
  Attempt.exists_of_map ran

theorem reduceStep_run {item : Value} {answered : Except Error Value}
    (called : Application.Made machine
      ⟨function, [accumulated, item], world, answered, after⟩) :
    (reduceStep function accumulated item).run machine world =
      some (answered.map verdict, after) := by
  have ran : (Attempt.call function [accumulated, item]).run machine world =
      some (answered, after) := called
  refine (Run.run_bind ran).trans ?_
  cases answered <;> rfl

/-- A fold within its fuel is what it runs to. -/
theorem foldUntil_run {fuel : Nat} (enough : turns.length ≤ fuel)
    (folds : Folds machine function cursor accumulated world turns outcome after) :
    (Cursor.foldUntil (reduceStep function) fuel accumulated cursor).run machine world =
      some (outcome, after) := by
  induction fuel generalizing accumulated cursor world turns with
  | zero => cases folds <;> cases enough
  | succ fuel induction =>
      cases folds with
      | ended reads => exact Attempt.run_first reads.ran
      | failed reads => exact Attempt.run_first reads.ran
      | refused reads called =>
          exact (Attempt.run_first reads.ran).trans (Attempt.run_bind_error (reduceStep_run called))
      | stopped reads called reduced =>
          refine (Attempt.run_first reads.ran).trans
            ((Attempt.run_bind_ok (reduceStep_run called)).trans ?_)
          rw [verdict_of_reduced reduced]
          rfl
      | goesOn reads called notReduced folds =>
          refine (Attempt.run_first reads.ran).trans
            ((Attempt.run_bind_ok (reduceStep_run called)).trans ?_)
          rw [verdict_of_not_reduced notReduced]
          exact induction (Nat.le_of_succ_le_succ enough) folds

theorem exists_of_foldUntil {fuel : Nat}
    (ran : (Cursor.foldUntil (reduceStep function) fuel accumulated cursor).run machine world =
      some (outcome, after)) :
    ∃ turns, turns.length ≤ fuel ∧
      Folds machine function cursor accumulated world turns outcome after := by
  induction fuel generalizing accumulated cursor world with
  | zero => cases ran
  | succ fuel induction =>
      rcases Attempt.exists_of_first ran with ⟨⟨met, rest⟩, between, stepped, later⟩
      rcases exists_advances stepped with ⟨forced, bodies, reads⟩
      have one : 1 ≤ fuel + 1 := Nat.succ_le_succ (Nat.zero_le fuel)
      rcases met with _ | error | item
      · cases later
        exact ⟨[_], one, .ended reads⟩
      · cases later
        exact ⟨[_], one, .failed reads⟩
      · rcases Run.exists_of_bind later with ⟨result, middle, visited, onward⟩
        rcases exists_of_reduceStep visited with ⟨answered, called, rfl⟩
        cases answered with
        | error error =>
            cases onward
            exact ⟨[_], one, .refused reads called⟩
        | ok answer =>
            cases reduced : answer.isReduced with
            | true =>
                rw [Except.map, verdict_of_reduced reduced] at onward
                cases onward
                exact ⟨[_], one, .stopped reads called reduced⟩
            | false =>
                rw [Except.map, verdict_of_not_reduced reduced] at onward
                rcases induction onward with ⟨turns, bound, folds⟩
                exact ⟨_ :: turns, Nat.succ_le_succ bound, .goesOn reads called reduced folds⟩

theorem reduce_iff (collection : Value) :
    (collection.reduce function accumulated).run machine world = some (outcome, after) ↔
      ∃ turns, turns.length ≤ machine.limit ∧
        Folds machine function (.pending collection) accumulated world turns outcome after := by
  constructor
  · intro ran
    rcases Attempt.exists_of_first ran with ⟨limit, between, looked, folded⟩
    cases looked
    exact exists_of_foldUntil folded
  · rintro ⟨turns, enough, folds⟩
    exact (Attempt.run_first rfl).trans (foldUntil_run enough folds)

/-- The first turn only reads, and takes no fuel. -/
theorem reduceOwn_iff (collection : Value) :
    (collection.reduceOwn function).run machine world = some (outcome, after) ↔
      ∃ turns, turns.length ≤ machine.limit + 1 ∧
        FoldsOwn machine function (.pending collection) world turns outcome after := by
  constructor
  · intro ran
    rcases Attempt.exists_of_first ran with ⟨⟨met, rest⟩, between, stepped, later⟩
    rcases exists_advances stepped with ⟨forced, bodies, reads⟩
    have one : 1 ≤ machine.limit + 1 := Nat.succ_le_succ (Nat.zero_le _)
    rcases met with _ | error | item
    · exact ⟨[_], one, .empty reads later⟩
    · cases later
      exact ⟨[_], one, .failed reads⟩
    · rcases Attempt.exists_of_first later with ⟨limit, middle, looked, folded⟩
      cases looked
      rcases exists_of_foldUntil folded with ⟨turns, bound, folds⟩
      exact ⟨_ :: turns, Nat.succ_le_succ bound, .starts reads folds⟩
  · rintro ⟨turns, enough, folds⟩
    cases folds with
    | empty reads called => exact (Attempt.run_first reads.ran).trans called
    | failed reads => exact Attempt.run_first reads.ran
    | starts reads folds =>
        refine (Attempt.run_first reads.ran).trans ((Attempt.run_first rfl).trans ?_)
        exact foldUntil_run (Nat.le_of_succ_le_succ enough) folds

end Value

/-! ## What is not read -/

section

variable {cell : Ref .deferred}

theorem Turn.Spares.read {met : Cursor.Yield} {forced : List (Ref .deferred)}
    {bodies : List Application} {applied : Option Application} {step : Cursor.Yield × Cursor}
    (spared : Turn.Spares cell ⟨met, forced, bodies, applied⟩)
    (reads : Advances machine cursor world forced bodies step after) :
    after.deferred.get? cell.index = world.deferred.get? cell.index :=
  reads.keeps spared.1 fun application member =>
    spared.2 application (List.mem_append_left _ member)

theorem Turn.Spares.applied {met : Cursor.Yield} {forced : List (Ref .deferred)}
    {bodies : List Application} {application : Application}
    (spared : Turn.Spares cell ⟨met, forced, bodies, some application⟩) :
    application.Spares cell :=
  spared.2 application (List.mem_append_right _ (List.mem_singleton_self _))

/-- A lazy seq is realized in no other way than that it is read, or that a call does it. -/
theorem Folds.keeps (folds : Folds machine function cursor accumulated world turns outcome after)
    (spared : ∀ turn ∈ turns, turn.Spares cell) :
    after.deferred.get? cell.index = world.deferred.get? cell.index := by
  induction folds with
  | ended reads | failed reads => exact (spared _ (List.mem_singleton_self _)).read reads
  | refused reads _ | stopped reads _ _ =>
      have spares := spared _ (List.mem_singleton_self _)
      exact spares.applied.trans (spares.read reads)
  | goesOn reads _ _ _ induction =>
      have spares := spared _ (List.mem_cons_self ..)
      have kept := induction fun turn member => spared turn (List.mem_cons_of_mem _ member)
      exact kept.trans (spares.applied.trans (spares.read reads))

theorem FoldsOwn.keeps (folds : FoldsOwn machine function cursor world turns outcome after)
    (spared : ∀ turn ∈ turns, turn.Spares cell) :
    after.deferred.get? cell.index = world.deferred.get? cell.index := by
  cases folds with
  | empty reads _ =>
      have spares := spared _ (List.mem_singleton_self _)
      exact spares.applied.trans (spares.read reads)
  | failed reads => exact (spared _ (List.mem_singleton_self _)).read reads
  | starts reads folds =>
      have kept := folds.keeps fun turn member => spared turn (List.mem_cons_of_mem _ member)
      exact kept.trans ((spared _ (List.mem_cons_self ..)).read reads)

end

end LispRuntime
