import LispRuntime.Proofs.Binding.Representation

/-! Threads that take turns. Every turn comes to what it does to the layers, with the same
outcome, and a turn that fails leaves everything as it was. -/

namespace LispRuntime

/-- The same world, when it is this thread's turn. -/
def World.turnOf (world : World) (thread : ThreadId) : World := { world with thread := thread }

namespace Binding

/-! ## Turns -/

/-- The vars that the action names. -/
def Action.vars : Action → List (Ref .var)
  | .push added => added.map Prod.fst
  | .pushMap map => (map.mapEntries?.getD []).filterMap fun entry => Layers.varOf? entry.1
  | .assign var _ | .setDynamic var _ | .bindRoot var _ | .unbindRoot var => [var]
  | .pop | .capture | .install _ | .fork => []

/-- Nothing is done with a var that is not there. -/
def Action.NamesOf (vars : Store VarCell) (action : Action) : Prop :=
  ∀ var ∈ action.vars, var.index < vars.next

theorem Action.NamesOf.of_next_eq {vars other : Store VarCell} {action : Action}
    (names : action.NamesOf vars) (same : other.next = vars.next) : action.NamesOf other :=
  fun var named => same ▸ names var named

/-- The outcome of the action, and the stacks that have been captured. A stack that is
replaced counts as captured. -/
def Action.perform (captured : List Stack) : Action → Run (Except Error Unit × List Stack)
  | .push added => do return (← Run.outcome (Binding.push added), captured)
  | .pushMap map => do return (← Run.outcome (Binding.pushMap map), captured)
  | .pop => do return (← Run.outcome Binding.pop, captured)
  | .assign var value => do
      return ((← Run.outcome (Var.assign var value)).map fun _ => (), captured)
  | .capture => do return (.ok (), captured ++ [← Binding.capture])
  | .install number => do
      return (.ok (), captured ++ [← Binding.install (captured[number]?.getD none)])
  | .setDynamic var isDynamic => do
      Var.setDynamic var isDynamic
      return (.ok (), captured)
  | .bindRoot var value => do
      Var.bindRoot var value
      return (.ok (), captured)
  | .unbindRoot var => do
      Var.unbindRoot var
      return (.ok (), captured)
  | .fork => do
      discard spawn
      return (.ok (), captured)

/-- A thread that there is not does nothing. -/
def perform (captured : List Stack) (command : Command) :
    Run (Except Error Unit × List Stack) := do
  if command.thread < (← get).bindings.threads.next then
    switchTo command.thread
    command.action.perform captured
  else return (.ok (), captured)

/-- The outcomes of the commands, and all captured stacks. -/
def performAll (captured : List Stack) :
    List Command → Run (List (Except Error Unit) × List Stack)
  | [] => return ([], captured)
  | command :: rest => do
      let (outcome, between) ← perform captured command
      let (outcomes, after) ← performAll between rest
      return (outcome :: outcomes, after)

/-! ## One turn -/

/-- The world is a world of these layers. -/
structure Shows (world : World) (captured : List Stack) (layers : Layers) : Prop where
  vars : world.vars = layers.vars
  bindings : ∃ place, Represents world.bindings captured layers place

variable {machine : Machine} {world : World} {captured : List Stack} {layers : Layers}

theorem varAt_run (machine : Machine) (var : Ref .var) (world : World) :
    Run.varAt var machine world =
      (world.vars.get? var.index).map fun cell => (cell, world) := by
  change Run.found (world.vars.get? var.index) machine world = _
  cases world.vars.get? var.index <;> rfl

theorem firstStatic_run (machine : Machine) (same : world.vars = layers.vars)
    {added : List (Ref .var × Value)}
    (known : ∀ binding ∈ added, binding.1.index < world.vars.next) :
    firstStatic added machine world =
      some ((added.find? fun binding => !layers.isDynamic binding.1).map Prod.fst, world) := by
  induction added with
  | nil => rfl
  | cons binding rest induction =>
      rcases List.forall_mem_cons.mp known with ⟨knownFirst, knownRest⟩
      rcases Store.exists_of_lt_next knownFirst with ⟨cell, present⟩
      have looked := varAt_run machine binding.1 world
      rw [present] at looked
      have seen : Var.isDynamic binding.1 machine world =
          some (layers.isDynamic binding.1, world) := by
        rw [Var.isDynamic, Run.run_bind looked, Layers.isDynamic, ← same, present]
        rfl
      rw [firstStatic, Run.run_bind seen, List.find?_cons]
      cases layers.isDynamic binding.1 with
      | true => exact induction knownRest
      | false => rfl

/-- The name that an error gives to a var. -/
theorem varAt_name (machine : Machine) (same : world.vars = layers.vars) {var : Ref .var}
    (known : var.index < world.vars.next) :
    ∃ cell, Run.varAt var machine world = some (cell, world) ∧
      cell.qualifiedName = layers.nameOf var := by
  rcases Store.exists_of_lt_next known with ⟨cell, present⟩
  refine ⟨cell, ?_, ?_⟩
  · rw [varAt_run, present]
    rfl
  · rw [Layers.nameOf, ← same, present]
    rfl

/-- What has become of the world and the captured stacks. A failure has changed nothing. -/
structure Follows (world : World) (captured : List Stack) (outcome : Except Error Unit)
    (layers : Layers) (capturedAfter : List Stack) (after : World) : Prop where
  shows : Shows after capturedAfter layers
  maps : after.maps = world.maps
  declared : after.vars.next = world.vars.next
  unchanged : ∀ error, outcome = .error error → after = world ∧ capturedAfter = captured

namespace Shows

variable {added : List (Ref .var × Value)} {bindings : Bindings Value}
  {place : Nat → Ref .var → Option Nat} {after : Layers} {capturedAfter : List Stack}

theorem start {world : World} (unbound : world.bindings = .empty) :
    Shows world [] (.start world.vars) :=
  ⟨rfl, _, unbound ▸ Represents.start world.vars⟩

/-- Whose turn it is does not matter. -/
theorem turnOf (shows : Shows world captured layers) (thread : ThreadId) :
    Shows (world.turnOf thread) captured layers :=
  ⟨shows.vars, shows.bindings⟩

theorem refused (shows : Shows world captured layers) (error : Error) :
    Follows world captured (.error error) layers captured world :=
  ⟨shows, rfl, rfl, fun _ _ => ⟨rfl, rfl⟩⟩

theorem withBindings (shows : Shows world captured layers) (vars : after.vars = layers.vars)
    (represents : Represents bindings capturedAfter after place) :
    Follows world captured (.ok ()) after capturedAfter { world with bindings := bindings } :=
  ⟨⟨shows.vars.trans vars.symm, place, represents⟩, rfl, rfl, fun _ => nofun⟩

theorem push (shows : Shows world captured layers) (machine : Machine)
    (bound : world.thread < layers.threads.length)
    (known : ∀ binding ∈ added, binding.1.index < world.vars.next) :
    ∃ after, (Binding.push added).run machine world =
        some ((layers.push world.thread added).1, after) ∧
      Follows world captured (layers.push world.thread added).1
        (layers.push world.thread added).2 captured after := by
  have checked := firstStatic_run machine shows.vars known
  rw [Binding.push, Attempt.run_first checked, Layers.push]
  cases static : added.find? fun binding => !layers.isDynamic binding.1 with
  | some binding =>
      have member := List.mem_of_find?_eq_some static
      rcases varAt_name machine shows.vars (known binding member) with ⟨cell, looked, name⟩
      refine ⟨world, ?_, shows.refused _⟩
      change _ = some (Except.error (Error.nonDynamicBinding (layers.nameOf binding.1)), world)
      rw [← name]
      exact Attempt.run_first looked
  | none =>
      rcases shows.bindings with ⟨place, represents⟩
      rcases represents.push bound added with ⟨after, represented⟩
      exact ⟨_, rfl, shows.withBindings rfl represented⟩

theorem varPairs_eq (entries : List (Value × Value)) :
    varPairs entries =
      match entries.find? fun entry => (Layers.varOf? entry.1).isNone with
      | some (key, _) => .error (.wrongType "push-thread-bindings" "var" key.typeName)
      | none => .ok (entries.filterMap fun entry =>
          (Layers.varOf? entry.1).map fun var => (var, entry.2)) := by
  induction entries with
  | nil => rfl
  | cons entry rest induction =>
      unfold varPairs
      split
      case h_1 empty => cases empty
      case h_2 cell value others same =>
          cases same
          rw [induction, List.find?_cons]
          cases rest.find? fun entry => (Layers.varOf? entry.1).isNone <;> rfl
      case h_3 key value others different same =>
          cases same
          have noVar : Layers.varOf? key = none := by
            unfold Layers.varOf?
            split
            · exact (different _ rfl).elim
            · rfl
          rw [List.find?_cons]
          simp [noVar]

theorem pushMap (shows : Shows world captured layers) (machine : Machine)
    (bound : world.thread < layers.threads.length) {map : Value}
    (known : (Action.pushMap map).NamesOf world.vars) :
    ∃ after, (Binding.pushMap map).run machine world =
        some ((layers.pushMap world.thread map).1, after) ∧
      Follows world captured (layers.pushMap world.thread map).1
        (layers.pushMap world.thread map).2 captured after := by
  rw [Binding.pushMap, Layers.pushMap]
  cases contents : map.mapEntries? with
  | none => exact ⟨world, rfl, shows.refused _⟩
  | some entries =>
      have pairs := varPairs_eq entries
      dsimp only
      cases other : entries.find? fun entry => (Layers.varOf? entry.1).isNone with
      | some entry =>
          rw [other] at pairs
          rw [pairs]
          exact ⟨world, rfl, shows.refused _⟩
      | none =>
          rw [other] at pairs
          rw [pairs]
          apply shows.push machine bound
          intro binding member
          apply known
          rcases List.mem_filterMap.mp member with ⟨entry, inside, found⟩
          rcases Option.map_eq_some_iff.mp found with ⟨var, isVar, rfl⟩
          rw [Action.vars, contents]
          exact List.mem_filterMap.mpr ⟨entry, inside, isVar⟩

theorem pop (shows : Shows world captured layers) (machine : Machine)
    (bound : world.thread < layers.threads.length) :
    ∃ after, Binding.pop.run machine world = some ((layers.pop world.thread).1, after) ∧
      Follows world captured (layers.pop world.thread).1 (layers.pop world.thread).2 captured
        after := by
  rcases shows.bindings with ⟨place, represents⟩
  have turn : Run.thread machine world = some (world.thread, world) := rfl
  rw [Binding.pop, Layers.pop]
  rcases represents.pop_cases bound with ⟨empty, ran⟩ | ⟨top, rest, after, stack, ran, represented⟩
  · rw [empty]
    refine ⟨world, (Attempt.run_first Run.run_get).trans ?_, shows.refused _⟩
    rw [Attempt.run_first turn, ran]
    rfl
  · rw [stack]
    refine ⟨_, (Attempt.run_first Run.run_get).trans ?_,
      shows.withBindings rfl represented⟩
    rw [Attempt.run_first turn, ran]
    rfl

theorem assign (shows : Shows world captured layers) (machine : Machine) {var : Ref .var}
    (known : var.index < world.vars.next) (value : Value) :
    ∃ after, (Var.assign var value).run machine world =
        some ((layers.assign world.thread var value).1.map fun _ => value, after) ∧
      Follows world captured (layers.assign world.thread var value).1
        (layers.assign world.thread var value).2 captured after := by
  rcases shows.bindings with ⟨place, represents⟩
  rcases varAt_name machine shows.vars known with ⟨cell, looked, name⟩
  rw [Var.assign, Layers.assign, ← name]
  rcases represents.assign_cases world.thread var value with
    ⟨near, -, ran⟩ | ⟨number, owner, near, pusher, ⟨foreign, ran⟩ | ⟨own, after, ran, represented⟩⟩
  · rw [near]
    refine ⟨world, (Attempt.run_first Run.run_get).trans ?_, shows.refused _⟩
    rw [ran]
    exact Attempt.run_first looked
  · rw [near, pusher]
    dsimp only
    rw [if_neg (by simpa using foreign)]
    refine ⟨world, (Attempt.run_first Run.run_get).trans ?_, shows.refused _⟩
    rw [ran]
    exact Attempt.run_first looked
  · rw [near, pusher, own]
    dsimp only
    rw [if_pos rfl]
    refine ⟨_, (Attempt.run_first Run.run_get).trans ?_,
      shows.withBindings rfl represented⟩
    rw [ran]
    rfl

theorem withVar (shows : Shows world captured layers) (var : Ref .var)
    (change : VarCell → VarCell) :
    Follows world captured (.ok ()) (layers.withVar var change) captured
      { world with vars := world.vars.modify var.index change } := by
  rcases shows with ⟨vars, place, represents⟩
  exact ⟨⟨congrArg (Store.modify · var.index change) vars, place, represents.withVar var change⟩,
    rfl, Store.next_modify .., fun _ => nofun⟩

/-- What an action comes to is what it does to the layers. -/
theorem act (shows : Shows world captured layers) (machine : Machine)
    (bound : world.thread < layers.threads.length) {action : Action}
    (known : action.NamesOf world.vars) :
    ∃ capturedAfter after, action.perform captured machine world =
        some (((layers.act world.thread action).1, capturedAfter), after) ∧
      Follows world captured (layers.act world.thread action).1
        (layers.act world.thread action).2 capturedAfter after := by
  rcases shows.bindings with ⟨place, represents⟩
  cases action with
  | push added =>
      have knownAll : ∀ binding ∈ added, binding.1.index < world.vars.next := fun binding member =>
        known _ (List.mem_map.mpr ⟨binding, member, rfl⟩)
      rcases shows.push machine bound knownAll with ⟨after, ran, follows⟩
      exact ⟨captured, after, Run.run_bind ran, follows⟩
  | pushMap map =>
      rcases shows.pushMap machine bound known with ⟨after, ran, follows⟩
      exact ⟨captured, after, Run.run_bind ran, follows⟩
  | pop =>
      rcases shows.pop machine bound with ⟨after, ran, follows⟩
      exact ⟨captured, after, Run.run_bind ran, follows⟩
  | assign var value =>
      rcases shows.assign machine (known var (List.mem_singleton_self _)) value with
        ⟨after, ran, follows⟩
      have outcome : ∀ outcome : Except Error Unit,
          (outcome.map fun _ => value).map (fun _ => ()) = outcome := by
        intro outcome
        cases outcome <;> rfl
      refine ⟨captured, after, ?_, follows⟩
      rw [Layers.act, ← outcome (layers.assign world.thread var value).1]
      exact Run.run_bind ran
  | capture =>
      exact ⟨_, _, rfl,
        shows.withBindings rfl (represents.capture (represents.stacked world.thread))⟩
  | install number =>
      have captured := represents.capture (represents.stacked world.thread)
      exact ⟨_, _, rfl,
        shows.withBindings rfl (captured.setStack bound (.getD represents.captured number))⟩
  | setDynamic var isDynamic => exact ⟨_, _, rfl, shows.withVar var _⟩
  | bindRoot var value => exact ⟨_, _, rfl, shows.withVar var _⟩
  | unbindRoot var => exact ⟨_, _, rfl, shows.withVar var _⟩
  | fork => exact ⟨_, _, rfl, ⟨shows.vars, place, represents.fork⟩, rfl, rfl, fun _ => nofun⟩

theorem threads_eq (shows : Shows world captured layers) :
    world.bindings.threads.next = layers.threads.length := by
  rcases shows.bindings with ⟨_, represents⟩
  exact represents.threads

theorem bounded (shows : Shows world captured layers) : layers.Bounded := by
  rcases shows.bindings with ⟨place, represents⟩
  intro stack member
  rw [← represents.frames]
  rcases List.mem_append.mp member with onThread | held
  · rcases List.getElem?_of_mem onThread with ⟨thread, found⟩
    have stacked := represents.stacked thread
    rw [Layers.stackOf, found] at stacked
    exact stacked.lt_next
  · rcases List.getElem?_of_mem held with ⟨number, found⟩
    have stacked := Stacked.getD represents.captured number
    rw [found] at stacked
    exact stacked.lt_next

theorem perform (shows : Shows world captured layers) (machine : Machine) {command : Command}
    (known : command.action.NamesOf world.vars) :
    ∃ capturedAfter after, Binding.perform captured command machine world =
        some (((layers.perform command).1, capturedAfter), after) ∧
      Follows (world.turnOf command.thread) captured (layers.perform command).1
        (layers.perform command).2 capturedAfter after := by
  have ran : Binding.perform captured command machine world =
      if command.thread < world.bindings.threads.next then
        command.action.perform captured machine (world.turnOf command.thread)
      else some ((.ok (), captured), world) := by
    change (if command.thread < world.bindings.threads.next then _ else _ :
      Run (Except Error Unit × List Stack)) machine world = _
    split <;> rfl
  rw [ran, Layers.perform, shows.threads_eq]
  split
  case isTrue present => exact (shows.turnOf command.thread).act machine present known
  case isFalse => exact ⟨captured, world, rfl, shows, rfl, rfl, fun _ => nofun⟩

end Shows

/-! ## Many turns -/

theorem performAll_follows (machine : Machine) {commands : List Command}
    (shows : Shows world captured layers)
    (known : ∀ command ∈ commands, command.action.NamesOf world.vars) :
    ∃ capturedAfter after, performAll captured commands machine world =
        some (((Layers.performAll commands layers).1, capturedAfter), after) ∧
      Shows after capturedAfter (Layers.performAll commands layers).2 ∧
      after.maps = world.maps ∧ after.vars.next = world.vars.next := by
  induction commands generalizing world captured layers with
  | nil => exact ⟨captured, world, rfl, shows, rfl, rfl⟩
  | cons command rest induction =>
      rcases List.forall_mem_cons.mp known with ⟨knownFirst, knownRest⟩
      rcases shows.perform machine knownFirst with ⟨between, middle, ran, follows⟩
      have knownLater : ∀ command ∈ rest, command.action.NamesOf middle.vars :=
        fun command member => (knownRest command member).of_next_eq follows.declared
      rcases induction follows.shows knownLater with
        ⟨last, after, ranRest, showsAfter, maps, declaredRest⟩
      refine ⟨last, after, ?_, showsAfter, maps.trans follows.maps,
        declaredRest.trans follows.declared⟩
      rw [performAll, Run.run_bind ran]
      dsimp only
      rw [Run.run_bind ranRest]
      rfl

end Binding

end LispRuntime
