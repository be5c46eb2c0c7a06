import LispRuntime.Proofs.World.Running
import LispRuntime.Sequence.Seq

/-! What it comes to when a deferred cell is forced: one look at its state, and at most one run of
its body. What has no elements has no seq. -/

namespace LispRuntime

/-- A cell gets another state. -/
def World.settingDeferred (world : World) (cell : Nat) (state : Deferred) : World :=
  { world with deferred := world.deferred.set cell state }

/-- What a cell comes to when its body is run. -/
def Deferred.settled (body : Value) : Except Error Value → Deferred
  | .error _ => .pending body
  | .ok value => .realized value

section

variable {machine : Machine} {cell : Ref .deferred} {complete : Value → Attempt Value}
  {world after : World} {outcome : Except Error Value}

/-- A look at a cell. -/
theorem deferredAt_run {state : Deferred}
    (here : world.deferred.get? cell.index = some state) :
    Run.deferredAt cell machine world = some (state, world) := by
  change Run.found (world.deferred.get? cell.index) machine world = _
  rw [here]
  rfl

theorem force_run_realized {value : Value}
    (realized : world.deferred.get? cell.index = some (.realized value)) :
    (force cell complete).run machine world = some (.ok value, world) :=
  Attempt.run_first (deferredAt_run realized)

theorem force_run_pending {body : Value}
    (pending : world.deferred.get? cell.index = some (.pending body))
    (ran : (do complete (← Attempt.call body [])).run machine
      (world.settingDeferred cell.index (.running body)) = some (outcome, after)) :
    (force cell complete).run machine world =
      some (outcome, after.settingDeferred cell.index (Deferred.settled body outcome)) := by
  refine (Attempt.run_first (deferredAt_run pending)).trans ((Attempt.run_first rfl).trans
    ((Attempt.run_first ran).trans ?_))
  cases outcome <;> rfl

/-- A cell that was forced had its value, or it was pending and its body was run. -/
theorem exists_of_force
    (ran : (force cell complete).run machine world = some (outcome, after)) :
    (∃ value, world.deferred.get? cell.index = some (.realized value) ∧ outcome = .ok value ∧
      after = world) ∨
    ∃ body between, world.deferred.get? cell.index = some (.pending body) ∧
      (do complete (← Attempt.call body [])).run machine
        (world.settingDeferred cell.index (.running body)) = some (outcome, between) ∧
      after = between.settingDeferred cell.index (Deferred.settled body outcome) := by
  rcases Attempt.exists_of_first ran with ⟨state, reached, looked, rest⟩
  rcases Run.exists_of_bind looked with ⟨_, _, seen, found⟩
  cases seen
  rcases Run.eq_some_of_found found with ⟨here, rfl⟩
  cases state with
  | realized value =>
      cases rest
      exact .inl ⟨value, here, rfl, rfl⟩
  | running body => cases rest
  | pending body =>
      rcases Attempt.exists_of_first rest with ⟨_, started, changed, rest⟩
      cases changed
      rcases Attempt.exists_of_first rest with ⟨settled, between, called, rest⟩
      refine .inr ⟨body, between, here, ?_⟩
      cases settled <;> cases rest <;> exact ⟨called, rfl⟩

end

namespace Value

/-- What a walk can begin with. -/
def isSeqable : Value → Bool
  | nil | string .. => true
  | value => value.isSequential || value.isMap || value.isSet

theorem seqWithin_of_not_seqable {value : Value} (refused : value.isSeqable = false) (fuel : Nat) :
    seqWithin (fuel + 1) value = throw (.wrongType "seq" "seqable" value.typeName) := by
  cases value <;> first | rfl | cases refused

end Value

end LispRuntime
