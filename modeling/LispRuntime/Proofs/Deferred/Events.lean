import LispRuntime.Proofs.Deferred.Account

/-! What happens to cells. The events of an account turn cells from one state to the next, and
never back from the realized one. -/

namespace LispRuntime.Deferred

/-! ## Events -/

/-- What happens to one cell. -/
inductive Event where
  | begins (body : Value)
  | completes (value : Value)
  | fails (error : Error)
  | recalls (value : Value)

def Event.ending : Except Error Value → Event
  | .ok value => .completes value
  | .error error => .fails error

mutual

/-- The events that a deed consists of, in the order in which they happen. -/
def Deed.events : Deed → List (Ref .deferred × Event)
  | .recalls cell value => [(cell, .recalls value)]
  | .runs cell body inner outcome =>
      (cell, .begins body) :: eventsOf inner ++ [(cell, .ending outcome)]
  | .applies _ _ inner _ => eventsOf inner
  | .accesses _ inner _ => eventsOf inner

def eventsOf : List Deed → List (Ref .deferred × Event)
  | [] => []
  | deed :: rest => deed.events ++ eventsOf rest

end

@[simp] theorem eventsOf_append (first second : List Deed) :
    eventsOf (first ++ second) = eventsOf first ++ eventsOf second := by
  induction first with
  | nil => rw [List.nil_append, eventsOf, List.nil_append]
  | cons deed rest induction => rw [List.cons_append, eventsOf, eventsOf, induction,
      List.append_assoc]

@[simp] theorem eventsOf_singleton (deed : Deed) : eventsOf [deed] = deed.events := by
  rw [eventsOf, eventsOf, List.append_nil]

/-- What an event finds, and what it makes of it. -/
inductive Turns : Deferred → Event → Deferred → Prop where
  | begins {body : Value} : Turns (.pending body) (.begins body) (.running body)
  | completes {body value : Value} : Turns (.running body) (.completes value) (.realized value)
  | fails {body : Value} {error : Error} : Turns (.running body) (.fails error) (.pending body)
  | recalls {value : Value} : Turns (.realized value) (.recalls value) (.realized value)

theorem Turns.ending (body : Value) (outcome : Except Error Value) :
    Turns (.running body) (.ending outcome) (settled body outcome) := by
  cases outcome with
  | ok value => exact .completes
  | error error => exact .fails

/-- No event: cells stay what they are. New ones are not running. -/
structure Grows (world after : World) : Prop where
  kept : ∀ {index : Nat} {state : Deferred}, world.deferred.get? index = some state →
    after.deferred.get? index = some state
  idle : ∀ {index : Nat} {body : Value}, after.deferred.get? index = some (.running body) →
    world.deferred.get? index = some (.running body)

namespace Grows

variable {world between after : World}

theorem of_eq (same : after.deferred = world.deferred) : Grows world after :=
  ⟨fun here => same ▸ here, fun here => same ▸ here⟩

theorem refl (world : World) : Grows world world := of_eq rfl

theorem trans (grows : Grows world between) (onward : Grows between after) : Grows world after :=
  ⟨fun here => onward.kept (grows.kept here), fun here => grows.idle (onward.idle here)⟩

theorem of_keeps (keeps : world.Keeps after) : Grows world after :=
  of_eq (by rw [keeps])

theorem push {state : Deferred} (idle : ∀ body, state ≠ .running body) :
    Grows world { world with deferred := world.deferred.push state } := by
  constructor <;> intro index found here
  · exact (Store.get?_push_of_lt _ _ (Store.lt_next_of_get? here)).trans here
  · change (world.deferred.push state).get? index = _ at here
    rw [Store.get?_push] at here
    split at here
    · exact (idle found (Option.some.inj here)).elim
    · exact here

theorem setting_same {cell : Nat} {state : Deferred}
    (here : world.deferred.get? cell = some state) :
    Grows (world.settingDeferred cell state) world := by
  have same : (world.settingDeferred cell state).deferred = world.deferred := by
    ext1 index
    change (world.deferred.set cell state).get? index = _
    rw [Store.get?_set]
    split
    case isTrue both => rw [both.1, here]
    case isFalse => rfl
  exact of_eq same.symm

end Grows

/-- The events lead from one world to another. -/
inductive Path : World → List (Ref .deferred × Event) → World → Prop where
  | quiet {world after : World} (grows : Grows world after) : Path world [] after
  | event {world between after : World} {cell : Ref .deferred} {event : Event}
      {state next : Deferred} {later : List (Ref .deferred × Event)} (grows : Grows world between)
      (here : between.deferred.get? cell.index = some state) (turns : Turns state event next)
      (rest : Path (between.settingDeferred cell.index next) later after) :
      Path world ((cell, event) :: later) after

namespace Path

variable {world between after : World} {events earlier later : List (Ref .deferred × Event)}

theorem refl (world : World) : Path world [] world := .quiet (.refl world)

theorem of_grows (grows : Grows world between) (path : Path between events after) :
    Path world events after := by
  cases path with
  | quiet onward => exact .quiet (grows.trans onward)
  | event onward here turns rest => exact .event (grows.trans onward) here turns rest

theorem trans (path : Path world earlier between) (onward : Path between later after) :
    Path world (earlier ++ later) after := by
  induction path with
  | quiet grows => exact of_grows grows onward
  | event grows here turns rest induction => exact .event grows here turns (induction onward)

theorem one {cell : Ref .deferred} {event : Event} {state next : Deferred}
    (here : world.deferred.get? cell.index = some state) (turns : Turns state event next) :
    Path world [(cell, event)] (world.settingDeferred cell.index next) :=
  .event (.refl world) here turns (.refl _)

/-- At each moment of a path there is a world. -/
theorem split (path : Path world (earlier ++ later) after) :
    ∃ between, Path world earlier between ∧ Path between later after := by
  induction earlier generalizing world with
  | nil => exact ⟨world, .refl world, path⟩
  | cons event rest induction =>
      cases path with
      | event grows here turns path =>
          rcases induction path with ⟨between, before, onward⟩
          exact ⟨between, .event grows here turns before, onward⟩

end Path

/-! ## One cell -/

/-- What happens to one of the cells. -/
def eventsAt (cell : Ref .deferred) (events : List (Ref .deferred × Event)) : List Event :=
  (events.filter (·.1 == cell)).map Prod.snd

theorem eventsAt_cons (cell : Ref .deferred) (event : Ref .deferred × Event)
    (later : List (Ref .deferred × Event)) :
    eventsAt cell (event :: later) =
      if event.1 = cell then event.2 :: eventsAt cell later else eventsAt cell later := by
  by_cases same : event.1 = cell <;> simp [eventsAt, same]

@[simp] theorem eventsAt_append (cell : Ref .deferred)
    (earlier later : List (Ref .deferred × Event)) :
    eventsAt cell (earlier ++ later) = eventsAt cell earlier ++ eventsAt cell later := by
  simp [eventsAt]

/-- The events turn a cell from one state to another. -/
inductive Turned : Deferred → List Event → Deferred → Prop where
  | none {state : Deferred} : Turned state [] state
  | event {state next last : Deferred} {event : Event} {later : List Event}
      (turns : Turns state event next) (rest : Turned next later last) :
      Turned state (event :: later) last

theorem Path.turned {world after : World} {events : List (Ref .deferred × Event)}
    {cell : Ref .deferred} {state : Deferred} (path : Path world events after)
    (here : world.deferred.get? cell.index = some state) :
    ∃ last, after.deferred.get? cell.index = some last ∧
      Turned state (eventsAt cell events) last := by
  induction path generalizing state with
  | quiet grows => exact ⟨state, grows.kept here, .none⟩
  | @event _ between _ other event found next later grows there turns rest induction =>
      have kept := grows.kept here
      rw [eventsAt_cons]
      split
      case isTrue same =>
        cases same
        cases there.symm.trans kept
        rcases induction (Store.get?_set_self _ there) with ⟨last, reached, turned⟩
        exact ⟨last, reached, .event turns turned⟩
      case isFalse different =>
        have apart : cell.index ≠ other.index := fun equal =>
          different (Ref.index_inj.mp equal.symm)
        exact induction ((Store.get?_set_of_ne _ _ apart).trans kept)

/-- A cell that is not there yet may come to be there, and does not run at first. -/
theorem Path.turned_of_new {world after : World} {events : List (Ref .deferred × Event)}
    {cell : Ref .deferred} (path : Path world events after)
    (missing : world.deferred.get? cell.index = none) :
    after.deferred.get? cell.index = none ∧ eventsAt cell events = [] ∨
      ∃ state last, (∀ body, state ≠ .running body) ∧
        after.deferred.get? cell.index = some last ∧ Turned state (eventsAt cell events) last := by
  induction path with
  | @quiet _ after grows =>
      cases there : after.deferred.get? cell.index with
      | none => exact .inl ⟨rfl, rfl⟩
      | some state =>
          refine .inr ⟨state, state, ?_, rfl, .none⟩
          rintro body rfl
          cases missing.symm.trans (grows.idle there)
  | @event _ between _ other event found next later grows here turns rest induction =>
      cases there : between.deferred.get? cell.index with
      | some state =>
          have path : Path between ((other, event) :: later) _ :=
            .event (.refl between) here turns rest
          rcases path.turned there with ⟨last, reached, turned⟩
          refine .inr ⟨state, last, ?_, reached, turned⟩
          rintro body rfl
          cases missing.symm.trans (grows.idle there)
      | none =>
          have apart : other ≠ cell := by
            rintro rfl
            cases here.symm.trans there
          have elsewhere : cell.index ≠ other.index := fun equal =>
            apart (Ref.index_inj.mp equal.symm)
          rw [eventsAt_cons, if_neg apart]
          exact induction ((Store.get?_set_of_ne _ _ elsewhere).trans there)

/-- Runs of a body that fail, one after the other. -/
def failures (body : Value) : List Error → List Event
  | [] => []
  | error :: rest => .begins body :: .fails error :: failures body rest

/-- The body of a cell runs and fails, so many times as it may be. If it completes, it is not run
again: the same value is recalled. -/
inductive RunsOnce (body : Value) : List Event → Deferred → Prop where
  | waits (errors : List Error) : RunsOnce body (failures body errors) (.pending body)
  | runs (errors : List Error) :
      RunsOnce body (failures body errors ++ [.begins body]) (.running body)
  | completes (errors : List Error) (value : Value) (times : Nat) :
      RunsOnce body
        (failures body errors ++
          .begins body :: .completes value :: List.replicate times (.recalls value))
        (.realized value)

theorem RunsOnce.again {body : Value} {events : List Event} {last : Deferred} (error : Error)
    (once : RunsOnce body events last) :
    RunsOnce body (.begins body :: .fails error :: events) last := by
  cases once with
  | waits errors => exact .waits (error :: errors)
  | runs errors => exact .runs (error :: errors)
  | completes errors value times => exact .completes (error :: errors) value times

/-- What comes of a cell, by the state that it is in. -/
def Follows : Deferred → List Event → Deferred → Prop
  | .pending body, events, last => RunsOnce body events last
  | .running body, events, last => RunsOnce body (.begins body :: events) last
  | .realized value, events, last =>
      (∃ times, events = List.replicate times (.recalls value)) ∧ last = .realized value

/-- No event leads back from the realized state. -/
theorem Turned.follows {state last : Deferred} {events : List Event}
    (turned : Turned state events last) : Follows state events last := by
  induction turned with
  | @none state =>
      cases state with
      | pending body => exact .waits []
      | running body => exact .runs []
      | realized value => exact ⟨⟨0, rfl⟩, rfl⟩
  | event turns rest induction =>
      cases turns with
      | begins => exact induction
      | fails => exact RunsOnce.again _ induction
      | completes =>
          rcases induction with ⟨⟨times, rfl⟩, rfl⟩
          exact .completes [] _ times
      | recalls =>
          rcases induction with ⟨⟨times, rfl⟩, rfl⟩
          exact ⟨⟨times + 1, rfl⟩, rfl⟩

end LispRuntime.Deferred
