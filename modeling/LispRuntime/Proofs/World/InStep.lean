import LispRuntime.Proofs.World.Making

/-! Two computations in step. From any world in which certain cells have been realized they both
end, in one world and with answers that are related, or neither of them ends. Whatever else is in
that world, they do the same to it. -/

namespace LispRuntime

/-! ## Cells that stay realized -/

/-- What has been realized is still what it was. -/
def World.Recalls (world : World) (cells : Store Deferred) : Prop :=
  ∀ index value, cells.get? index = some (.realized value) →
    world.deferred.get? index = some (.realized value)

theorem World.Recalls.refl (world : World) : world.Recalls world.deferred := fun _ _ => id

theorem World.Recalls.trans {world after : World} {cells : Store Deferred}
    (recalls : world.Recalls cells) (onward : after.Recalls world.deferred) :
    after.Recalls cells :=
  fun index value realized => onward index value (recalls index value realized)

theorem World.Recalls.setting {world : World} {cells : Store Deferred} {cell : Nat}
    (recalls : world.Recalls cells) (isOpen : ∀ value, cells.get? cell ≠ some (.realized value))
    (state : Deferred) : (world.settingDeferred cell state).Recalls cells := by
  intro index value realized
  have other : index ≠ cell := by
    rintro rfl
    exact isOpen value realized
  exact (Store.get?_set_of_ne _ _ other).trans (recalls index value realized)

/-- No call takes back what has been realized. -/
def Machine.KeepsRealized (machine : Machine) : Prop :=
  ∀ function arguments world outcome after,
    machine.call machine.held function arguments world = some (outcome, after) →
    after.Recalls world.deferred

theorem Machine.silent_keepsRealized (machine : Machine) : machine.silent.KeepsRealized :=
  fun _ _ _ _ _ => nofun

/-- What is made of calls and the forcing of cells keeps what the calls keep. -/
theorem Made.recalls {machine : Machine} (keeps : machine.KeepsRealized) {α : Type}
    {computation : Run α} (made : Made computation) {world after : World} {answer : α}
    (ran : computation machine world = some (answer, after)) : after.Recalls world.deferred := by
  induction made generalizing world after with
  | plain isPlain =>
      rw [isPlain.keeps ran]
      exact World.Recalls.refl _
  | bind _ _ first rest =>
      rcases Run.exists_of_bind ran with ⟨middle, between, ranFirst, ranRest⟩
      exact (first ranFirst).trans (rest middle ranRest)
  | call function arguments => exact keeps function arguments world answer after ran
  | force cell _ completes =>
      rcases exists_of_force ran with ⟨_, _, _, rfl⟩ | ⟨body, between, pending, called, rfl⟩
      · exact .refl _
      · have isOpen : ∀ value, world.deferred.get? cell.index ≠ some (.realized value) := by
          intro value realized
          cases pending.symm.trans realized
        have started := (World.Recalls.refl world).setting isOpen (.running body)
        refine World.Recalls.setting (started.trans ?_) isOpen _
        rcases Attempt.exists_of_bind called with ⟨error, failed, _⟩ | ⟨value, middle, ran, rest⟩
        · exact keeps _ _ _ _ _ failed
        · exact (keeps _ _ _ _ _ ran).trans (completes value rest)

/-! ## Related answers -/

/-- Both succeed, with related answers, or both fail, with the same error. -/
inductive SameOutcome {α β : Type} (related : α → β → Prop) : Except Error α → Except Error β → Prop
  | ok {answer : α} {other : β} (holds : related answer other) :
      SameOutcome related (.ok answer) (.ok other)
  | error (error : Error) : SameOutcome related (.error error) (.error error)

theorem SameOutcome.refl {α : Type} {related : α → α → Prop}
    (same : ∀ answer, related answer answer) (outcome : Except Error α) : SameOutcome related outcome outcome := by
  cases outcome with
  | ok answer => exact .ok (same answer)
  | error error => exact .error error

/-! ## In step -/

section

variable {machine : Machine} {cells : Store Deferred} {α β γ δ : Type}

/-- From all worlds in which the cells have been realized, both computations come to one world
and to related answers, or to no answer. -/
def InStep (machine : Machine) (cells : Store Deferred) (left : Run α) (right : Run β)
    (related : α → β → Prop) : Prop :=
  ∀ world, world.Recalls cells →
    left machine world = none ∧ right machine world = none ∨
    ∃ answer other after, left machine world = some (answer, after) ∧
      right machine world = some (other, after) ∧ after.Recalls cells ∧ related answer other

namespace InStep

theorem pure {related : α → β → Prop} {answer : α} {other : β} (holds : related answer other) :
    InStep machine cells (Pure.pure answer) (Pure.pure other) related :=
  fun world recalls => .inr ⟨answer, other, world, rfl, rfl, recalls, holds⟩

theorem stuck {related : α → β → Prop} :
    InStep machine cells Run.stuck Run.stuck related :=
  fun _ _ => .inl ⟨rfl, rfl⟩

/-- Every computation is in step with itself. -/
theorem refl (keeps : machine.KeepsRealized) {computation : Run α} (made : Made computation) :
    InStep machine cells computation computation Eq := by
  intro world recalls
  cases ran : computation machine world with
  | none => exact .inl ⟨rfl, rfl⟩
  | some result =>
      exact .inr ⟨_, _, result.2, rfl, rfl, recalls.trans (made.recalls keeps ran), rfl⟩

theorem weaken {left : Run α} {right : Run β} {strong weak : α → β → Prop}
    (inStep : InStep machine cells left right strong)
    (implies : ∀ answer other, strong answer other → weak answer other) :
    InStep machine cells left right weak := by
  intro world recalls
  rcases inStep world recalls with neither | ⟨answer, other, after, ran, ranToo, kept, holds⟩
  · exact .inl neither
  · exact .inr ⟨answer, other, after, ran, ranToo, kept, implies answer other holds⟩

theorem bind {left : Run α} {right : Run β} {next : α → Run γ} {nextToo : β → Run δ}
    {middle : α → β → Prop} {related : γ → δ → Prop}
    (inStep : InStep machine cells left right middle)
    (goesOn : ∀ answer other, middle answer other →
      InStep machine cells (next answer) (nextToo other) related) :
    InStep machine cells (left >>= next) (right >>= nextToo) related := by
  intro world recalls
  rcases inStep world recalls with
    ⟨none, noneToo⟩ | ⟨answer, other, after, ran, ranToo, kept, holds⟩
  · exact .inl ⟨Run.run_bind_none none, Run.run_bind_none noneToo⟩
  · rw [Run.run_bind ran, Run.run_bind ranToo]
    exact goesOn answer other holds after kept

/-- The answers are passed on in another form. -/
theorem map {left : Run α} {right : Run β} {change : α → γ} {changeToo : β → δ}
    {middle : α → β → Prop} {related : γ → δ → Prop}
    (inStep : InStep machine cells left right middle)
    (implies : ∀ answer other, middle answer other → related (change answer) (changeToo other)) :
    InStep machine cells (do return change (← left)) (do return changeToo (← right)) related :=
  inStep.bind fun answer other holds => .pure (implies answer other holds)

theorem lift {left : Run α} {right : Run β} {related : α → β → Prop}
    (inStep : InStep machine cells left right related) :
    InStep machine cells (ExceptT.lift left : Attempt α).run (ExceptT.lift right : Attempt β).run
      (SameOutcome related) :=
  inStep.map fun _ _ holds => .ok holds

/-- Two attempts, of which the first parts may fail. -/
theorem andThen {left : Attempt α} {right : Attempt β} {next : α → Attempt γ}
    {nextToo : β → Attempt δ} {middle : α → β → Prop} {related : γ → δ → Prop}
    (inStep : InStep machine cells left.run right.run (SameOutcome middle))
    (goesOn : ∀ answer other, middle answer other →
      InStep machine cells (next answer).run (nextToo other).run (SameOutcome related)) :
    InStep machine cells (left >>= next).run (right >>= nextToo).run (SameOutcome related) := by
  refine InStep.bind inStep fun outcome otherOutcome same => ?_
  cases same with
  | ok holds => exact goesOn _ _ holds
  | error error => exact .pure (.error error)

/-- What comes first in both attempts cannot fail. -/
theorem first {left : Run α} {right : Run β} {next : α → Attempt γ} {nextToo : β → Attempt δ}
    {middle : α → β → Prop} {related : γ → δ → Prop}
    (inStep : InStep machine cells left right middle)
    (goesOn : ∀ answer other, middle answer other →
      InStep machine cells (next answer).run (nextToo other).run (SameOutcome related)) :
    InStep machine cells (ExceptT.lift left >>= next).run (ExceptT.lift right >>= nextToo).run
      (SameOutcome related) :=
  inStep.lift.andThen goesOn

theorem limit : InStep machine cells Run.limit Run.limit Eq :=
  fun world recalls => .inr ⟨_, _, world, rfl, rfl, recalls, rfl⟩

theorem mapM {visit : α → Run γ} {visitToo : β → Run δ} {elements : List α} {others : List β}
    {related : γ → δ → Prop} (inStep : List.Forall₂ (fun element other =>
      InStep machine cells (visit element) (visitToo other) related) elements others) :
    InStep machine cells (elements.mapM visit) (others.mapM visitToo)
      (List.Forall₂ related) := by
  induction inStep with
  | nil => exact .pure .nil
  | cons first _ induction =>
      rw [List.mapM_cons, List.mapM_cons]
      refine first.bind fun answer other holds => ?_
      exact induction.map fun _ _ rest => .cons holds rest

end InStep

end

end LispRuntime
