import LispRuntime.Proofs.Atom.Keeping

/-! A validator accepts the state that it guards, if validators are predicates: then there is
nothing between what a validator has said and what is installed by that. -/

namespace LispRuntime.Atom

variable {cell : Cell} {admissible : Value → Prop} {library : Library cell admissible}
  {held : List Operand} {limit depth : Nat} {verdict : Value → Value → Except Error Value}

/-- A pure predicate: its outcome depends on its argument alone, and it leaves the atom as it is
(it may do something elsewhere). -/
def IsPredicate (library : Library cell admissible) (held : List Operand) (limit : Nat)
    (function : Value) (verdict : Value → Except Error Value) : Prop :=
  ∀ depth value world outcome after,
    (library.machine held limit depth).call held function [value] world = some (outcome, after) →
      outcome = verdict value ∧ stateIn cell after = stateIn cell world

theorem isPredicate_of_exit {function : Value} {verdict : Value → Except Error Value}
    (exits : ∀ value, library function [value] = .exit (verdict value)) :
    IsPredicate library held limit function verdict := by
  intro depth value world outcome after called
  cases depth with
  | zero => cases called
  | succ depth =>
      change (library function [value]).run.run _ _ = _ at called
      rw [exits] at called
      change (Attempt.ofExcept (verdict value)).run _ _ = _ at called
      generalize verdict value = answer at called ⊢
      cases answer <;> cases called <;> exact ⟨rfl, rfl⟩

def Accepts (verdict : Value → Value → Except Error Value) (validator value : Value) : Prop :=
  judgement (verdict validator value) = .ok ()

/-- If there is a validator, it accepts the value. -/
def Valid (verdict : Value → Value → Except Error Value) (state : State) : Prop :=
  ∀ validator, state.validator = some validator → Accepts verdict validator state.value

/-- Those are valid states whose validators are predicates. -/
structure Guarded (admissible : Value → Prop) (verdict : Value → Value → Except Error Value)
    (state : State) : Prop where
  admissible : ∀ validator, state.validator = some validator → admissible validator
  valid : Valid verdict state

theorem Library.calls.call {function : Value} {arguments : List Value} {world after : World}
    {deeds : List (Deed admissible)} {outcome : Except Error Value}
    (called : library.calls held limit depth function arguments world deeds outcome after) :
    (library.machine held limit depth).call held function arguments world =
      some (outcome, after) := by
  cases depth with
  | zero => cases called
  | succ depth => exact called.1

/-- A predicate that passes a value accepts it, and the atom is as it was. -/
theorem Examines.spec {validator candidate : Value} {world after : World}
    {deeds : List (Deed admissible)} {judged : Except Error Unit}
    (predicate : IsPredicate library held limit validator (verdict validator))
    (examines : Examines (library.calls held limit depth) validator candidate world deeds judged
      after) :
    judged = judgement (verdict validator candidate) ∧
      stateIn cell after = stateIn cell world := by
  cases examines with
  | intro called =>
      rcases predicate _ _ _ _ _ called.call with ⟨rfl, same⟩
      exact ⟨rfl, same⟩

theorem Library.keeps_guarded
    (predicates : ∀ validator, admissible validator →
      IsPredicate library held limit validator (verdict validator)) (depth : Nat) :
    Keeps cell (library.calls held limit depth) (Guarded admissible verdict) where
  install {candidate world after deeds state found} here guarded validates there guardedThen := by
    refine ⟨guardedThen.admissible, ?_⟩
    intro validator guard
    cases validates with
    | unguarded here' free =>
        cases here.symm.trans there
        cases here.symm.trans here'
        cases free.symm.trans guard
    | guarded here' asked examines =>
        cases here.symm.trans here'
        rcases examines.spec (predicates _ (guarded.admissible _ asked)) with ⟨accepts, same⟩
        cases (here.symm.trans same.symm).trans there
        cases asked.symm.trans guard
        exact accepts.symm
  guard {validator world after deeds state found} here examines there guarded := by
    rcases examines.spec (predicates _ validator.property) with ⟨accepts, same⟩
    cases (here.symm.trans same.symm).trans there
    constructor <;> intro other guard <;> cases guard
    · exact validator.property
    · exact accepts.symm
  clear _ := ⟨fun _ => nofun, fun _ => nofun⟩

/-- A validator that is turned down leaves the atom as it was. -/
theorem stateIn_of_setValidator_error
    (predicates : ∀ validator, admissible validator →
      IsPredicate library held limit validator (verdict validator))
    {validator : Option (Subtype admissible)} {world after : World} {error : Error}
    (ran : (setValidator cell (validator.map Subtype.val)).run
      (library.machine held limit depth) world = some (.error error, after)) :
    stateIn cell after = stateIn cell world := by
  have performed : ((Request.setValidator validator).perform cell).run
      (library.machine held limit depth) world = some (.error error, after) :=
    Attempt.run_bind_error ran
  rcases (library.recorded held limit depth).fulfils performed with ⟨deeds, fulfils⟩
  cases fulfils with
  | @disqualified validator _ _ _ _ _ here examines =>
      exact (examines.spec (predicates _ validator.property)).2

/-- If validators are predicates, the state is valid at all times of a run: after each change
and after each new validator, also while other requests are under way, update functions and
watches having their turns. A validator that is turned down changes nothing. -/
theorem Library.run_valid
    (predicates : ∀ validator, admissible validator →
      IsPredicate library held limit validator (verdict validator))
    {conduct : Conduct cell admissible} {world after : World} {start : State}
    {outcome : Except Error Value} (here : stateIn cell world = some start)
    (guarded : Guarded admissible verdict start)
    (ran : conduct.run.run (library.machine held limit depth) world = some (outcome, after)) :
    (∃ deeds finish,
      Conducts (library.calls held limit depth) conduct world deeds outcome after ∧
      stateIn cell after = some finish ∧ Path (Valid verdict) start (movesOf deeds) finish) ∧
    ∀ (depth : Nat) (world after : World) (validator : Option (Subtype admissible))
      (error : Error), (setValidator cell (validator.map Subtype.val)).run
        (library.machine held limit depth) world = some (.error error, after) →
        stateIn cell after = stateIn cell world := by
  rcases Library.run_accounted (Library.keeps_guarded predicates) here guarded ran with
    ⟨deeds, finish, conducts, there, path, _⟩
  exact ⟨⟨deeds, finish, conducts, there, path.mono fun _ => Guarded.valid⟩,
    fun _ _ _ _ _ => stateIn_of_setValidator_error predicates⟩

/-! An update function that installs a validator, which turns the answer of that function down. -/

def isNil : Value → Except Error Value
  | .nil => .ok (.boolean true)
  | _ => .ok (.boolean false)

/-- The character stands for a predicate, and anything else for the update function. -/
def guarding : Library ⟨0⟩ (· = .character 'n')
  | .character _, value :: _ => .exit (isNil value)
  | _, _ => .ask (.setValidator (some ⟨.character 'n', rfl⟩)) fun _ => .exit (.ok (.boolean true))

def updating : Conduct ⟨0⟩ (· = .character 'n') :=
  .ask (.update (.swap .nil [])) fun answer => .exit (answer.map fun _ => .nil)

theorem guarding_valid : ∃ after finish, ∃ deeds : List (Deed (· = .character 'n')),
    updating.run.run (guarding.machine [] 2 2) (newIn .nil) =
      some (.error .invalidReferenceState, after) ∧
    stateIn ⟨0⟩ after = some finish ∧ finish.validator = some (.character 'n') ∧
    Path (Valid fun _ => isNil) ⟨.nil, 0, none⟩ (movesOf deeds) finish := by
  have predicates : ∀ validator, validator = .character 'n' →
      IsPredicate guarding [] 2 validator isNil := by
    intro validator same
    rw [same]
    exact isPredicate_of_exit fun _ => rfl
  have ran : updating.run.run (guarding.machine [] 2 2) (newIn .nil) =
      some (.error .invalidReferenceState, _) := rfl
  have here : stateIn ⟨0⟩ (newIn .nil) = some ⟨.nil, 0, none⟩ := rfl
  rcases (Library.run_valid predicates here ⟨fun _ => nofun, fun _ => nofun⟩ ran).1 with
    ⟨deeds, finish, _, there, path⟩
  cases there
  exact ⟨_, _, deeds, ran, rfl, rfl, path⟩

end LispRuntime.Atom
