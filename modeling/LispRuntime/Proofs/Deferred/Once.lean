import LispRuntime.Proofs.Deferred.Events
import LispRuntime.Proofs.Deferred.Telling

/-! Cells are realized once. It makes no difference which access has a cell forced, or whether a
body that runs forces other cells on its way. -/

namespace LispRuntime.Deferred

/-! ## Accounts -/

/-- The deeds lead from one world to the other, and nobody touches a cell whose body is being
run. In the end no others are left running. -/
structure Leads (world : World) (deeds : List Deed) (after : World) : Prop where
  path : Path world (eventsOf deeds) after
  idle : ∀ {cell : Ref .deferred} {body : Value},
    after.deferred.get? cell.index = some (.running body) →
      world.deferred.get? cell.index = some (.running body)
  busy : ∀ {cell : Ref .deferred} {body : Value},
    world.deferred.get? cell.index = some (.running body) →
      after.deferred.get? cell.index = some (.running body) ∧
        eventsAt cell (eventsOf deeds) = []

namespace Leads

variable {world between after : World} {deeds more inner : List Deed}

theorem quiet (grows : Grows world after) : Leads world [] after where
  path := .quiet grows
  idle := grows.idle
  busy running := ⟨grows.kept running, rfl⟩

theorem append (leads : Leads world deeds between) (onward : Leads between more after) :
    Leads world (deeds ++ more) after where
  path := by
    rw [eventsOf_append]
    exact leads.path.trans onward.path
  idle running := leads.idle (onward.idle running)
  busy running := by
    rcases leads.busy running with ⟨still, none⟩
    rcases onward.busy still with ⟨last, noneThen⟩
    exact ⟨last, by rw [eventsOf_append, eventsAt_append, none, noneThen]; rfl⟩

/-- A deed that consists of others. -/
theorem within {deed : Deed} (leads : Leads world inner after)
    (same : deed.events = eventsOf inner) : Leads world [deed] after where
  path := by
    rw [eventsOf_singleton, same]
    exact leads.path
  idle := leads.idle
  busy running := by
    rw [eventsOf_singleton, same]
    exact leads.busy running

theorem applies {function : Value} {arguments : List Value} {outcome : Except Error Value}
    (leads : Leads world inner after) :
    Leads world [.applies function arguments inner outcome] after :=
  leads.within rfl

theorem recalls {cell : Ref .deferred} {value : Value}
    (realized : world.deferred.get? cell.index = some (.realized value)) :
    Leads world [.recalls cell value] world where
  path := by
    rw [eventsOf_singleton]
    exact .event (.refl world) realized .recalls (.quiet (.setting_same realized))
  idle running := running
  busy {other body} running := by
    refine ⟨running, ?_⟩
    rw [eventsOf_singleton, Deed.events, eventsAt_cons]
    split
    case isTrue same =>
      cases same
      cases realized.symm.trans running
    case isFalse => rfl

/-- A body runs to its end. Its cell, too, has been left alone on the way. -/
theorem runs {cell : Ref .deferred} {body : Value} (outcome : Except Error Value)
    (pending : world.deferred.get? cell.index = some (.pending body))
    (leads : Leads (world.settingDeferred cell.index (.running body)) inner between) :
    Leads world [.runs cell body inner outcome]
      (between.settingDeferred cell.index (settled body outcome)) where
  path := by
    have still := (leads.busy (Store.get?_set_self _ pending)).1
    rw [eventsOf_singleton, Deed.events, ← List.singleton_append]
    exact ((Path.one pending .begins).trans leads.path).trans (.one still (.ending body outcome))
  idle {other otherBody} running := by
    have there := (leads.busy (Store.get?_set_self _ pending)).1
    by_cases same : other = cell
    · subst same
      have last := (Store.get?_set_self (settled body outcome) there).symm.trans running
      cases outcome <;> cases last
    · have elsewhere : other.index ≠ cell.index := fun equal => same (Ref.index_inj.mp equal)
      have still := leads.idle ((Store.get?_set_of_ne _ _ elsewhere).symm.trans running)
      exact (Store.get?_set_of_ne _ _ elsewhere).symm.trans still
  busy {other otherBody} running := by
    have apart : cell ≠ other := by
      rintro rfl
      cases pending.symm.trans running
    have elsewhere : other.index ≠ cell.index := fun equal =>
      apart (Ref.index_inj.mp equal.symm)
    rcases leads.busy ((Store.get?_set_of_ne _ _ elsewhere).trans running) with ⟨still, none⟩
    refine ⟨(Store.get?_set_of_ne _ _ elsewhere).trans still, ?_⟩
    rw [eventsOf_singleton, Deed.events, eventsAt_append, eventsAt_cons, if_neg apart, none,
      eventsAt_cons, if_neg apart]
    rfl

end Leads

/-- All calls lead on. -/
def LeadingCalls (calls : Calls) : Prop :=
  ∀ {function : Value} {arguments : List Value} {world after : World} {deeds : List Deed}
    {outcome : Except Error Value},
    calls function arguments world deeds outcome after → Leads world deeds after

section

variable {machine : Machine} {calls : Calls} {world after : World} {deeds : List Deed}

theorem Accounts.leads (leading : LeadingCalls calls) {α : Type} {computation : Run α}
    {answer : α} (accounts : Accounts machine calls computation world deeds answer after) :
    Leads world deeds after := by
  induction accounts with
  | plain isPlain ran =>
      exact .quiet (.of_keeps (isPlain.keeps ran))
  | bind first later leads leadsLater => exact leads.append leadsLater
  | call called => exact (leading called).applies
  | recalls realized => exact .recalls realized
  | fails pending called => exact .runs (.error _) pending (leading called).applies
  | answers pending called completes leads =>
      exact .runs _ pending ((leading called).applies.append leads)

/-- What one access keeps to, a whole conduct keeps to. -/
theorem Conducts.leads (leading : LeadingCalls calls) {conduct : Conduct}
    {outcome : Except Error Value}
    (conducts : Conducts machine calls conduct world deeds outcome after) :
    Leads world deeds after := by
  induction conducts with
  | exit => exact .quiet (.refl _)
  | access accounts tells later leads =>
      exact ((accounts.leads leading).within rfl).append leads
  | call called later leads => exact (leading called).applies.append leads
  | defer later leads => exact (Leads.quiet (.push fun _ => Deferred.noConfusion)).append leads
  | realized later leads => exact (Leads.quiet (.push fun _ => Deferred.noConfusion)).append leads
  | @elsewhere other _ world _ _ _ later leads =>
      exact (Leads.quiet (.of_eq (other.keeps world))).append leads

end

/-! ## Runs -/

/-- What has come of a cell up to some moment: of one that was there at first, and of one that
has been made since. -/
structure RealizedOnce (cell : Ref .deferred) (world : World)
    (events : List (Ref .deferred × Event)) (now : World) : Prop where
  old : ∀ state, world.deferred.get? cell.index = some state →
    ∃ last, now.deferred.get? cell.index = some last ∧ Follows state (eventsAt cell events) last
  new : world.deferred.get? cell.index = none →
    now.deferred.get? cell.index = none ∧ eventsAt cell events = [] ∨
      ∃ state last, (∀ body, state ≠ .running body) ∧
        now.deferred.get? cell.index = some last ∧ Follows state (eventsAt cell events) last

theorem Path.realizedOnce {world after : World} {events : List (Ref .deferred × Event)}
    (path : Path world events after) (cell : Ref .deferred) :
    RealizedOnce cell world events after where
  old state here := by
    rcases path.turned here with ⟨last, reached, turned⟩
    exact ⟨last, reached, turned.follows⟩
  new missing := by
    rcases path.turned_of_new missing with none | ⟨state, last, idle, reached, turned⟩
    · exact .inl none
    · exact .inr ⟨state, last, idle, reached, turned.follows⟩

theorem Library.leadingCalls (library : Library) (held : List Operand) (limit depth : Nat) :
    LeadingCalls (library.calls held limit depth) := by
  induction depth with
  | zero => exact fun called => False.elim called
  | succ depth induction => exact fun called => Conducts.leads induction called

/-- Of every run there is an account with all that was done for it. By that account, at each
moment and for each cell: the body has run and failed any number of times, and once it has
completed, with what it answered finished off, it has not been run again. The cell has the value
ever since, and whoever asks for it is given that. A forcing that fails is one whose body or whose
conversion has failed; it leaves the cell pending, with the same body, and its error is the answer
of the access that came upon it. In the end no cell is left running. -/
theorem Library.run_realizes_once (library : Library) (held : List Operand) (limit depth : Nat)
    {conduct : Conduct} {world after : World} {outcome : Except Error Value}
    (ran : conduct.run.run (library.machine held limit depth) world = some (outcome, after)) :
    ∃ deeds,
      Conducts (library.machine held limit depth) (library.calls held limit depth) conduct world
        deeds outcome after ∧
      (∀ cell, RealizedOnce cell world (eventsOf deeds) after) ∧
      (∀ earlier later, eventsOf deeds = earlier ++ later →
        ∃ now, Path world earlier now ∧ Path now later after ∧
          ∀ cell, RealizedOnce cell world earlier now) ∧
      ∀ cell body, after.deferred.get? cell = some (.running body) →
        world.deferred.get? cell = some (.running body) := by
  rcases (library.recorded held limit depth).conducts ran with ⟨deeds, conducts⟩
  have leads := conducts.leads (library.leadingCalls held limit depth)
  have path := leads.path
  refine ⟨deeds, conducts, path.realizedOnce, fun earlier later same => ?_,
    fun cell _ => @leads.idle ⟨cell⟩ _⟩
  rw [same] at path
  rcases path.split with ⟨now, before, onward⟩
  exact ⟨now, before, onward, before.realizedOnce⟩

/-! A body that fails when it is run first, then answers with what has no seq, and then with a
list. -/

/-- Tells how often it has been called by the number of volatiles. -/
def improving : Library := fun _ _ =>
  .elsewhere ⟨fun world => { world with volatiles := world.volatiles.push .nil }, fun _ => rfl⟩
    fun world =>
      match world.volatiles.next with
      | 1 => .exit (.error .invalidReferenceState)
      | 2 => .exit (.ok (.boolean true))
      | _ => .exit (.ok (.list 0 [.boolean false] none))

/-- Asks a new lazy seq for its first element, its length, its first element and its length, and
answers with all that it was told. -/
def asking : Conduct :=
  .defer .nil fun cell =>
    .access (.first (.lazySeq cell)) fun firstly =>
      .access (.count (.lazySeq cell)) fun secondly =>
        .access (.first (.lazySeq cell)) fun thirdly =>
          .access (.equal (.lazySeq cell) (.list 1 [.boolean false] none)) fun isEqual =>
            match firstly, secondly, thirdly, isEqual with
            | .error .invalidReferenceState, .error (.wrongType ..), .ok item, true =>
                .exit (.ok item)
            | _, _, _, _ => .exit (.ok .nil)

theorem asking_realizes_once : ∃ after deeds,
    asking.run.run (improving.machine [] 3 1) .initial = some (.ok (.boolean false), after) ∧
    Conducts (improving.machine [] 3 1) (improving.calls [] 3 1) asking .initial deeds
      (.ok (.boolean false)) after ∧
    after.deferred.get? 0 = some (.realized (.list 0 [.boolean false] none)) ∧
    ∀ cell, RealizedOnce cell .initial (eventsOf deeds) after := by
  have ran : asking.run.run (improving.machine [] 3 1) .initial =
      some (.ok (.boolean false), _) := rfl
  rcases improving.run_realizes_once [] 3 1 ran with ⟨deeds, conducts, realizedOnce, _⟩
  exact ⟨_, deeds, ran, conducts, rfl, realizedOnce⟩

end LispRuntime.Deferred
