import LispRuntime.Proofs.Atom.Keeping

/-! No update is lost: the changes that take effect form a chain, whatever functions do with an
atom while a request is under way. -/

namespace LispRuntime.Atom

variable {cell : Cell} {admissible : Value → Prop}

/-! ## Chains of changes -/

def changes : List Move → List (Value × Value)
  | [] => []
  | .install old new :: rest => (old, new) :: changes rest
  | .decline _ :: rest | .guard _ :: rest => changes rest

/-- Each change replaces what the one before has installed. -/
inductive Chained : Value → List (Value × Value) → Value → Prop where
  | none {value : Value} : Chained value [] value
  | change {old new last : Value} {rest : List (Value × Value)} (later : Chained new rest last) :
      Chained old ((old, new) :: rest) last

theorem Path.chained {good : State → Prop} {start last : State} {moves : List Move}
    (path : Path good start moves last) :
    Chained start.value (changes moves) last.value ∧
      last.revision = start.revision + (changes moves).length := by
  induction path with
  | stay here => exact ⟨.none, rfl⟩
  | @step state last move moves here fits rest induction =>
      cases move with
      | install old new =>
          cases fits
          refine ⟨.change induction.1, induction.2.trans ?_⟩
          rw [changes, List.length_cons, ← Nat.add_assoc, Nat.add_right_comm]
          rfl
      | decline current => exact induction
      | guard validator => exact induction

/-- Whatever is requested of an atom, while other requests of it are under way or not: there is
an account of the run, with all calls, by which the changes that took effect form a chain from
the first state to the last one, and each request is proper. A swap installs what its function
has answered to the very state that is replaced; comparing and setting takes effect if and only
if the state is identical to what is expected; and what fails in a function or in the validator
changes nothing itself. -/
theorem Library.run_chained (library : Library cell admissible) (held : List Operand)
    (limit depth : Nat) {conduct : Conduct cell admissible} {world after : World} {start : State}
    {outcome : Except Error Value} (here : stateIn cell world = some start)
    (ran : conduct.run.run (library.machine held limit depth) world = some (outcome, after)) :
    ∃ deeds finish,
      Conducts (library.calls held limit depth) conduct world deeds outcome after ∧
      stateIn cell after = some finish ∧
      Path (fun _ => True) start (movesOf deeds) finish ∧
      Chained start.value (changes (movesOf deeds)) finish.value ∧
      finish.revision = start.revision + (changes (movesOf deeds)).length ∧
      AllProperIn cell deeds := by
  have keeps : ∀ depth, Keeps cell (library.calls held limit depth) fun _ => True := fun _ =>
    ⟨fun _ _ _ _ _ => trivial, fun _ _ _ _ => trivial, fun _ => trivial⟩
  rcases Library.run_accounted keeps here trivial ran with
    ⟨deeds, finish, conducts, there, path, proper⟩
  rcases path.chained with ⟨chained, counted⟩
  exact ⟨deeds, finish, conducts, there, path, chained, counted, proper⟩

/-! A function that resets the atom to the value that it has, while it works out a new one. The
first answer is overtaken, though the value is the same. -/

def overtaking : Library ⟨0⟩ fun _ => True := fun _ _ =>
  .elsewhere ⟨id, fun _ => rfl⟩ fun world =>
    if (stateIn ⟨0⟩ world).any (·.revision = 0) then
      .ask (.update (.reset .nil)) fun _ => .exit (.ok (.character 'x'))
    else .exit (.ok (.character 'y'))

def swapping : Conduct ⟨0⟩ fun _ => True :=
  .ask (.update (.swap .nil [])) fun _ => .exit (.ok .nil)

theorem overtaking_chained : ∃ after, ∃ deeds : List (Deed fun _ => True),
    swapping.run.run (overtaking.machine [] 2 1) (newIn .nil) = some (.ok .nil, after) ∧
    Chained .nil (changes (movesOf deeds)) (.character 'y') ∧
    (changes (movesOf deeds)).length = 2 ∧ AllProperIn ⟨0⟩ deeds := by
  have ran : swapping.run.run (overtaking.machine [] 2 1) (newIn .nil) = some (.ok .nil, _) := rfl
  have here : stateIn ⟨0⟩ (newIn .nil) = some ⟨.nil, 0, none⟩ := rfl
  rcases overtaking.run_chained [] 2 1 here ran with
    ⟨deeds, finish, _, there, _, chained, counted, proper⟩
  cases there
  exact ⟨_, deeds, ran, chained, (Nat.zero_add _).symm.trans counted.symm, proper⟩

end LispRuntime.Atom
