import LispRuntime.Proofs.Sequence.Folding

/-! Whether what a reduction comes to is still reduced. A fold takes one wrapper off what the
function answers when it stops. It takes none off what it starts with, be it given or the first
element, and none off what the function answers when it is called with nothing. -/

namespace LispRuntime

namespace Turn

/-- The walk has met nothing more. -/
def IsLast (turn : Turn) : Prop := turn.met = none

/-- The function has answered with a value of this kind. -/
def Answers (turn : Turn) (kind : Value → Prop) : Prop :=
  ∃ application answer, turn.applied = some application ∧ application.outcome = .ok answer ∧
    kind answer

end Turn

namespace Value

/-- A reduced value within a reduced one. -/
def IsReducedTwice (value : Value) : Prop :=
  value.isReduced = true ∧ value.unreduced.isReduced = true

end Value

/-- Nothing has been read, and the start is reduced. Or else the function has stopped the fold
with a value that is reduced twice. -/
def Escapes (start : Value) (turns : List Turn) : Prop :=
  (start.isReduced = true ∧ ∃ turn, turns = [turn] ∧ turn.IsLast) ∨
    ∃ turn ∈ turns, turn.Answers Value.IsReducedTwice

/-- Nothing has been read, and the function has answered with a reduced value to that. Or else the
fold that starts with the first element is one that lets it escape. -/
def EscapesOwn (turns : List Turn) : Prop :=
  (∃ turn, turns = [turn] ∧ turn.IsLast ∧ turn.Answers fun answer => answer.isReduced = true) ∨
    ∃ first item others, turns = first :: others ∧ first.met = some (.ok item) ∧
      Escapes item others

variable {machine : Machine} {function start value : Value} {cursor : Cursor}
  {world after : World} {turns : List Turn}

/-! ## One turn -/

section

variable {met : Cursor.Yield} {forced : List (Ref .deferred)} {bodies : List Application}

theorem Turn.answers_iff {application : Application} {answer : Value}
    (answered : application.outcome = .ok answer) (kind : Value → Prop) :
    Turn.Answers ⟨met, forced, bodies, some application⟩ kind ↔ kind answer := by
  constructor
  · rintro ⟨other, found, same, isOk, holds⟩
    cases same
    cases answered.symm.trans isOk
    exact holds
  · exact fun holds => ⟨application, answer, rfl, answered, holds⟩

theorem Turn.not_answers (kind : Value → Prop) :
    ¬Turn.Answers ⟨met, forced, bodies, none⟩ kind := by
  rintro ⟨application, answer, same, -⟩
  cases same

theorem escapes_singleton_iff {turn : Turn} : Escapes start [turn] ↔
    start.isReduced = true ∧ turn.IsLast ∨ turn.Answers Value.IsReducedTwice := by
  simp [Escapes]

/-- A fold that goes on forgets what it has started with. -/
theorem escapes_cons_iff {turn : Turn} {answer : Value}
    (answered : ∀ kind, turn.Answers kind ↔ kind answer) (notReduced : answer.isReduced = false)
    (isFold : turns ≠ []) : Escapes start (turn :: turns) ↔ Escapes answer turns := by
  have notTwice : ¬turn.Answers Value.IsReducedTwice := by
    rw [answered, Value.IsReducedTwice, notReduced]
    exact fun both => Bool.false_ne_true both.1
  simp [Escapes, isFold, notTwice, notReduced]

end

/-! ## A whole fold -/

theorem Folds.isReduced_iff
    (folds : Folds machine function cursor start world turns (.ok value) after) :
    value.isReduced = true ↔ Escapes start turns := by
  generalize isOutcome : (Except.ok value : Except Error Value) = outcome at folds
  induction folds with
  | ended reads =>
      cases isOutcome
      rw [escapes_singleton_iff, or_iff_left (Turn.not_answers _)]
      exact (and_iff_left rfl).symm
  | failed | refused => cases isOutcome
  | stopped reads called reduced =>
      cases isOutcome
      rw [escapes_singleton_iff, Turn.answers_iff rfl, Value.IsReducedTwice, and_iff_right reduced]
      refine (or_iff_right ?_).symm
      rintro ⟨-, ⟨⟩⟩
  | goesOn reads called notReduced folds induction =>
      rw [induction isOutcome]
      refine (escapes_cons_iff (Turn.answers_iff rfl) notReduced ?_).symm
      rintro rfl
      cases folds

theorem FoldsOwn.isReduced_iff
    (folds : FoldsOwn machine function cursor world turns (.ok value) after) :
    value.isReduced = true ↔ EscapesOwn turns := by
  cases folds with
  | empty reads called =>
      constructor
      · exact fun reduced => .inl ⟨_, rfl, rfl, (Turn.answers_iff rfl _).mpr reduced⟩
      · rintro (⟨turn, same, -, answers⟩ | ⟨first, item, others, same, read, -⟩)
        · cases same
          exact (Turn.answers_iff rfl _).mp answers
        · cases same
          cases read
  | starts reads folds =>
      rw [folds.isReduced_iff]
      constructor
      · exact fun escapes => .inr ⟨_, _, _, rfl, rfl, escapes⟩
      · rintro (⟨turn, same, last, -⟩ | ⟨first, item, others, same, read, escapes⟩)
        · cases same
          cases last
        · cases same
          cases read
          exact escapes

/-- A reduction that comes to a value has taken turns to get there, and the value is still reduced
exactly if these let it escape. Otherwise the wrapper has been removed. -/
theorem reduced_escapes_iff (machine : Machine) (function collection : Value) (world : World) :
    (∀ start value after,
      (collection.reduce function start).run machine world = some (.ok value, after) →
      (∃ turns, Folds machine function (.pending collection) start world turns (.ok value) after) ∧
      ∀ turns, Folds machine function (.pending collection) start world turns (.ok value) after →
        (value.isReduced = true ↔ Escapes start turns)) ∧
    ∀ value after,
      (collection.reduceOwn function).run machine world = some (.ok value, after) →
      (∃ turns, FoldsOwn machine function (.pending collection) world turns (.ok value) after) ∧
      ∀ turns, FoldsOwn machine function (.pending collection) world turns (.ok value) after →
        (value.isReduced = true ↔ EscapesOwn turns) := by
  constructor
  · intro start value after ran
    rcases (Value.reduce_iff collection).mp ran with ⟨turns, -, folds⟩
    exact ⟨⟨turns, folds⟩, fun _ => Folds.isReduced_iff⟩
  · intro value after ran
    rcases (Value.reduceOwn_iff collection).mp ran with ⟨turns, -, folds⟩
    exact ⟨⟨turns, folds⟩, fun _ => FoldsOwn.isReduced_iff⟩

/-- Whatever is called answers with a value that is reduced twice. -/
def wrappingMachine : Machine :=
  ⟨fun _ _ _ world => some (.ok (.reduced 0 (.reduced 0 .nil)), world), [], 2⟩

/-- A reduced start and a reduced element escape if there is nothing to reduce them with. What the
function answers escapes if it is called with nothing, or if it is reduced twice. -/
theorem wrapper_escapes :
    (∃ turns, Folds wrappingMachine .nil (.pending (.list 0 [] none)) (.reduced 0 .nil)
      World.initial turns (.ok (.reduced 0 .nil)) World.initial ∧
      Escapes (.reduced 0 .nil) turns) ∧
    (∃ turns, Folds wrappingMachine .nil (.pending (.list 0 [.nil] none)) .nil
      World.initial turns (.ok (.reduced 0 .nil)) World.initial ∧ Escapes .nil turns) ∧
    (∃ turns, FoldsOwn wrappingMachine .nil (.pending (.list 0 [.reduced 0 .nil] none))
      World.initial turns (.ok (.reduced 0 .nil)) World.initial ∧ EscapesOwn turns) ∧
    ∃ turns, FoldsOwn wrappingMachine .nil (.pending (.list 0 [] none))
      World.initial turns (.ok (.reduced 0 (.reduced 0 .nil))) World.initial ∧
      EscapesOwn turns := by
  have escapes (items : List Value) :=
    reduced_escapes_iff wrappingMachine .nil (.list 0 items none) World.initial
  refine ⟨?_, ?_, ?_, ?_⟩
  · rcases (escapes []).1 (.reduced 0 .nil) _ _ rfl with ⟨⟨turns, folds⟩, iff⟩
    exact ⟨turns, folds, (iff turns folds).mp rfl⟩
  · rcases (escapes [.nil]).1 .nil _ _ rfl with ⟨⟨turns, folds⟩, iff⟩
    exact ⟨turns, folds, (iff turns folds).mp rfl⟩
  · rcases (escapes [.reduced 0 .nil]).2 _ _ rfl with ⟨⟨turns, folds⟩, iff⟩
    exact ⟨turns, folds, (iff turns folds).mp rfl⟩
  · rcases (escapes []).2 _ _ rfl with ⟨⟨turns, folds⟩, iff⟩
    exact ⟨turns, folds, (iff turns folds).mp rfl⟩

end LispRuntime
