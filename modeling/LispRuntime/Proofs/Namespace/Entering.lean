import LispRuntime.Proofs.Binding.Ownership
import LispRuntime.Proofs.Namespace.Commands

/-! What becomes of a registry, of roots and of bindings when a thread enters a namespace. The
namespace is found or founded first, and then it becomes the current one. Whether it does is up
to the thread that pushed the binding of the current namespace; if it does not, a namespace that
has been founded stays. -/

namespace LispRuntime

/-- An assignment changes the value in the one cell that the thread sees. -/
theorem Bindings.exists_of_assign {α : Type} {bindings after : Bindings α} {thread : ThreadId}
    {var : Ref .var} {value : α} (assigned : bindings.assign thread var value = .ok after) :
    ∃ index cell, bindings.cellOf thread var = some index ∧
      bindings.cells.get? index = some cell ∧ cell.owner = thread ∧
      after = { bindings with cells := bindings.cells.set index { cell with value := value } } := by
  unfold assign at assigned
  split at assigned
  case h_1 => cases assigned
  case h_2 index sees =>
    split at assigned
    case h_1 => cases assigned
    case h_2 cell present =>
      split at assigned
      case isTrue own =>
        cases assigned
        exact ⟨index, cell, sees, present, own, rfl⟩
      case isFalse => cases assigned

namespace Registry

open Naming

open Binding (Layers)

variable {machine : Machine} {world between after : World} {registry : Registry.Cell}
  {content : RegistryCell} {name : Symbol} {space : Space.Cell} {captured : List Stack}
  {layers : Layers}

/-! ## Finding or founding -/

/-- The namespace is registered under the name, and nothing else has changed in the registries.
A namespace that was registered before is this one; otherwise it is a new one. -/
structure Enrolled (world : World) (registry : Registry.Cell) (name : Symbol) (space : Space.Cell)
    (after : World) : Prop where
  registered : after.registered registry name = some space
  named : ∃ content, after.spaces.get? space.index = some content ∧ content.name = name
  found : ∀ known, world.registered registry name = some known →
    space = known ∧ after.spaces = world.spaces ∧ after.registries = world.registries
  founded : world.registered registry name = none → world.spaces.get? space.index = none
  others : ∀ other key, ¬ (other = registry ∧ key = name) →
    after.registered other key = world.registered other key

/-- Namespaces and registries are what they were. -/
structure SameSpaces (world after : World) : Prop where
  spaces : after.spaces = world.spaces
  registries : after.registries = world.registries

theorem Enrolled.later (enrolled : Enrolled world registry name space between)
    (same : SameSpaces between after) : Enrolled world registry name space after := by
  rcases same with ⟨spaces, registries⟩
  have same : ∀ other key, after.registered other key = between.registered other key :=
    fun other key => congrArg
      (fun store => Option.bind (Store.get? store other.index) fun content : RegistryCell =>
        Space.findSymbol key content.spaces) registries
  refine ⟨(same ..).trans enrolled.registered, spaces ▸ enrolled.named, ?_, enrolled.founded, ?_⟩
  · intro known registered
    rcases enrolled.found known registered with ⟨same, sameSpaces, sameRegistries⟩
    exact ⟨same, spaces.trans sameSpaces, registries.trans sameRegistries⟩
  · exact fun other key different => (same other key).trans (enrolled.others other key different)

/-- Vars and bindings are what they were, and it is the same thread's turn. -/
structure SameThreads (world after : World) : Prop where
  vars : after.vars = world.vars
  bindings : after.bindings = world.bindings
  thread : after.thread = world.thread

theorem SameThreads.shows (same : SameThreads world after)
    (shows : Binding.Shows world captured layers) : Binding.Shows after captured layers :=
  ⟨same.vars.trans shows.vars, same.bindings ▸ shows.bindings⟩

theorem internSpace_enrolls (positive : 0 < machine.limit) (orderly : Orderly world)
    (present : world.registries.get? registry.index = some content) (name : Symbol) :
    ∃ space between, internSpace registry name machine world = some (space, between) ∧
      Enrolled world registry name space between ∧ SameThreads world between ∧
      Leads Harmless world between := by
  rcases internSpace_cases positive orderly present name with
    ⟨found, isRegistered, ran⟩ | ⟨free, core, -, ran, leads⟩
  · refine ⟨found, world, ran, ⟨isRegistered, named_of_registered orderly isRegistered, ?_, ?_,
      fun _ _ _ => rfl⟩, ⟨rfl, rfl, rfl⟩, .refl world⟩
    · intro known again
      cases isRegistered.symm.trans again
      exact ⟨rfl, rfl, rfl⟩
    · intro free
      cases isRegistered.symm.trans free
  · have registered := registered_founding present name
      (Space.listing machine world content.core core)
    have isRegistered := registered registry name
    rw [if_pos ⟨rfl, rfl⟩] at isRegistered
    refine ⟨_, _, ran, ⟨isRegistered, named_of_registered (leads.orderly orderly) isRegistered,
      ?_, ?_, ?_⟩, ⟨rfl, rfl, rfl⟩, leads⟩
    · intro known again
      cases free.symm.trans again
    · intro _
      cases found : world.spaces.get? world.spaces.next with
      | none => rfl
      | some content => exact absurd (Store.lt_next_of_get? found) (Nat.lt_irrefl _)
    · intro other key different
      rw [registered, if_neg different]

/-! ## Entering -/

theorem current_of_deref (present : world.registries.get? registry.index = some content)
    (seen : (Var.deref content.currentSpace).run machine world = some (.ok (.space space), world)) :
    (current registry).run machine world = some (.ok space, world) := by
  rw [current, Attempt.run_first (registryAt_run machine present), Attempt.run_bind_ok seen]
  rfl

/-- What it comes to that a thread enters a namespace, by the thread that pushed the binding of
the current namespace, if there is one. -/
structure EntersAs (machine : Machine) (world : World) (registry : Registry.Cell)
    (content : RegistryCell) (space : Space.Cell) (pusher : Option ThreadId)
    (outcome : Except Error Space.Cell) (after : World) : Prop where
  /-- Without a binding the root changes, and nothing else. -/
  unbound : pusher = none → outcome = .ok space ∧
    (current registry).run machine after = some (.ok space, after) ∧
    after.bindings = world.bindings ∧
    after.vars = world.vars.modify content.currentSpace.index fun var =>
      { var with root := some (.space space) }
  /-- The thread's own binding changes, and no other one. No root does. -/
  own : pusher = some world.thread → outcome = .ok space ∧
    (current registry).run machine after = some (.ok space, after) ∧
    after.vars = world.vars ∧
    ∃ index cell, world.bindings.cellOf world.thread content.currentSpace = some index ∧
      world.bindings.cells.get? index = some cell ∧
      after.bindings = { world.bindings with
        cells := world.bindings.cells.set index { cell with value := .space space } }
  /-- The binding of another thread is not touched. -/
  foreign : ∀ owner, pusher = some owner → owner ≠ world.thread →
    (∃ var, world.vars.get? content.currentSpace.index = some var ∧
      outcome = .error (.setFromForeignThread var.qualifiedName)) ∧
    after.vars = world.vars ∧ after.bindings = world.bindings

namespace EntersAs

variable {owner : ThreadId} {var : VarCell}

theorem ofUnbound (isCurrent : (current registry).run machine after = some (.ok space, after))
    (bindings : after.bindings = world.bindings)
    (vars : after.vars = world.vars.modify content.currentSpace.index fun var =>
      { var with root := some (.space space) }) :
    EntersAs machine world registry content space none (.ok space) after where
  unbound _ := ⟨rfl, isCurrent, bindings, vars⟩
  own := nofun
  foreign := nofun

theorem ofOwn (isCurrent : (current registry).run machine after = some (.ok space, after))
    (vars : after.vars = world.vars)
    (assigned : world.bindings.assign world.thread content.currentSpace (.space space) =
      .ok after.bindings) :
    EntersAs machine world registry content space (some world.thread) (.ok space) after where
  unbound := nofun
  own _ := by
    rcases Bindings.exists_of_assign assigned with ⟨index, cell, sees, found, -, bindings⟩
    exact ⟨rfl, isCurrent, vars, index, cell, sees, found, bindings⟩
  foreign := by
    rintro _ ⟨⟩ foreign
    exact absurd rfl foreign

theorem ofForeign (foreign : owner ≠ world.thread)
    (found : world.vars.get? content.currentSpace.index = some var) :
    EntersAs machine world registry content space (some owner)
      (.error (.setFromForeignThread var.qualifiedName)) world where
  unbound := nofun
  own isOwn := absurd (Option.some.inj isOwn) foreign
  foreign _ _ _ := ⟨⟨var, found, rfl⟩, rfl, rfl⟩

/-- It comes to the same for a thread that had to find or found the namespace first. -/
theorem earlier {pusher : Option ThreadId} {outcome : Except Error Space.Cell}
    {later : RegistryCell} (same : SameThreads world between)
    (sameVar : later.currentSpace = content.currentSpace)
    (enters : EntersAs machine between registry later space pusher outcome after) :
    EntersAs machine world registry content space pusher outcome after := by
  rcases enters with ⟨unbound, own, foreign⟩
  rw [same.bindings, same.vars, sameVar] at unbound
  rw [same.thread, same.bindings, same.vars, sameVar] at own
  rw [same.thread, same.bindings, same.vars, sameVar] at foreign
  exact ⟨unbound, own, foreign⟩

end EntersAs

/-- A root that has been bound is seen where there is no binding. -/
theorem bindRoot_run (shows : Binding.Shows world captured layers) (machine : Machine)
    {var : Ref .var} (there : var.index < world.vars.next) (value : Value)
    (unbound : layers.lookup world.thread var = none) :
    ∃ after, Var.bindRoot var value machine world = some ((), after) ∧
      after.vars = world.vars.modify var.index (fun cell => { cell with root := some value }) ∧
      after.bindings = world.bindings ∧ SameSpaces world after ∧
      (Var.deref var).run machine after = some (.ok value, after) := by
  have follows := shows.withVar var fun cell => { cell with root := some value }
  refine ⟨_, rfl, rfl, rfl, ⟨rfl, rfl⟩, ?_⟩
  have known : var.index < (world.vars.modify var.index fun cell =>
      { cell with root := some value }).next := (Store.next_modify ..).symm ▸ there
  have seen := follows.shows.deref_run machine world.thread known
  rcases Store.exists_of_lt_next there with ⟨content, found⟩
  have root : (layers.withVar var fun cell => { cell with root := some value }).root var =
      some value := by
    rw [Layers.root, Layers.withVar, ← shows.vars, Store.get?_modify_self found]
    rfl
  have stillUnbound : (layers.withVar var fun cell => { cell with root := some value }).lookup
      world.thread var = none := unbound
  rw [Layers.deref, root, stillUnbound] at seen
  exact seen

/-- A binding of the thread's own is assigned, and the thread sees what it has assigned. -/
theorem assign_own (shows : Binding.Shows world captured layers) (machine : Machine)
    {var : Ref .var} (there : var.index < world.vars.next) (value : Value)
    (own : layers.pusher world.thread var = some world.thread) :
    ∃ after, (Var.assign var value).run machine world = some (.ok value, after) ∧
      world.bindings.assign world.thread var value = .ok after.bindings ∧
      after.vars = world.vars ∧ SameSpaces world after ∧
      (Var.deref var).run machine after = some (.ok value, after) := by
  have isOk : ∃ bindings, world.bindings.assign world.thread var value = .ok bindings := by
    rcases shows.bindings with ⟨place, represents⟩
    rcases represents.assign_cases world.thread var value with
      ⟨-, nobody, -⟩ | ⟨_, owner, -, pusher, ⟨foreign, -⟩ | ⟨-, bindings, assigned, -⟩⟩
    · cases nobody.symm.trans own
    · exact absurd (Option.some.inj (pusher.symm.trans own)) foreign
    · exact ⟨bindings, assigned⟩
  rcases isOk with ⟨bindings, assigned⟩
  have assigns : (Var.assign var value).run machine world =
      some (.ok value, { world with bindings := bindings }) := by
    refine (Attempt.run_first Run.run_get).trans ?_
    rw [assigned]
    rfl
  rcases shows.assign machine there value with ⟨after, ran, follows⟩
  rcases Layers.assign_of_pusher own value with ⟨-, seen⟩
  cases (Prod.mk.inj (Option.some.inj (ran.symm.trans assigns))).2
  have known : var.index < ({ world with bindings := bindings } : World).vars.next := there
  have sees := follows.shows.deref_run machine world.thread known
  rw [Layers.deref, seen] at sees
  exact ⟨_, assigns, assigned, rfl, ⟨rfl, rfl⟩, sees⟩

/-- Nobody else can assign it. -/
theorem assign_foreign (shows : Binding.Shows world captured layers) (machine : Machine)
    {var : Ref .var} (there : var.index < world.vars.next) (value : Value) {owner : ThreadId}
    (pusher : layers.pusher world.thread var = some owner) (foreign : owner ≠ world.thread) :
    ∃ cell, world.vars.get? var.index = some cell ∧ (Var.assign var value).run machine world =
      some (.error (.setFromForeignThread cell.qualifiedName), world) := by
  rcases Store.exists_of_lt_next there with ⟨cell, found⟩
  have name : layers.nameOf var = cell.qualifiedName := by
    rw [Layers.nameOf, ← shows.vars, found]
    rfl
  have notOwn : layers.pusher world.thread var ≠ some world.thread := by
    rw [pusher]
    exact foreign ∘ Option.some.inj
  have refused := (shows.guarded machine).refused world.thread var value there notOwn
  rw [Layers.refusal, pusher, name] at refused
  exact ⟨cell, found, refused⟩

/-- A namespace that there is becomes the current one unless another thread has pushed the
binding of the current namespace. -/
theorem makeCurrent_entersAs
    (present : world.registries.get? registry.index = some content)
    (there : content.currentSpace.index < world.vars.next)
    (shows : Binding.Shows world captured layers) (machine : Machine) (space : Space.Cell) :
    ∃ outcome after, (makeCurrent content space).run machine world = some (outcome, after) ∧
      SameSpaces world after ∧
      EntersAs machine world registry content space
        (layers.pusher world.thread content.currentSpace) outcome after := by
  have isBound : Var.isThreadBound content.currentSpace machine world =
      some ((layers.pusher world.thread content.currentSpace).isSome, world) := by
    rcases shows.bindings with ⟨place, represents⟩
    rw [← Layers.isSome_lookup, ← represents.isBound_eq]
    rfl
  rw [makeCurrent, Attempt.run_first isBound]
  cases pusher : layers.pusher world.thread content.currentSpace with
  | none =>
      have unbound : layers.lookup world.thread content.currentSpace = none := by
        rw [← Option.isNone_iff_eq_none, ← Option.not_isSome, Layers.isSome_lookup, pusher]
        rfl
      rcases bindRoot_run shows machine there (.space space) unbound with
        ⟨after, ran, vars, bindings, sameSpaces, seen⟩
      have isCurrent := current_of_deref (sameSpaces.registries ▸ present) seen
      exact ⟨.ok space, after, (Attempt.run_first ran).trans rfl, sameSpaces,
        .ofUnbound isCurrent bindings vars⟩
  | some owner =>
      by_cases own : owner = world.thread
      · subst own
        rcases assign_own shows machine there (.space space) pusher with
          ⟨after, ran, assigned, vars, sameSpaces, seen⟩
        have isCurrent := current_of_deref (sameSpaces.registries ▸ present) seen
        exact ⟨.ok space, after, (Attempt.run_bind_ok ran).trans rfl, sameSpaces,
          .ofOwn isCurrent vars assigned⟩
      · rcases assign_foreign shows machine there (.space space) pusher own with
          ⟨var, found, refused⟩
        exact ⟨_, world, Attempt.run_bind_error refused, ⟨rfl, rfl⟩, .ofForeign own found⟩

/-- A namespace is found or founded, and becomes the current one unless another thread has
pushed the binding of the current namespace. -/
theorem enter_entersAs (positive : 0 < machine.limit) (orderly : Orderly world)
    (present : world.registries.get? registry.index = some content)
    (shows : Binding.Shows world captured layers) (name : Symbol) :
    ∃ space outcome after, (enter registry name).run machine world = some (outcome, after) ∧
      Enrolled world registry name space after ∧
      EntersAs machine world registry content space
        (layers.pusher world.thread content.currentSpace) outcome after := by
  rcases internSpace_enrolls positive orderly present name with
    ⟨space, between, interned, enrolled, same, leads⟩
  rcases leads.onward.registry present with ⟨later, presentLater, -, sameVar⟩
  have there := ((leads.orderly orderly).registry presentLater).currentSpace
  rcases makeCurrent_entersAs presentLater there (same.shows shows) machine space with
    ⟨outcome, after, ran, sameSpaces, enters⟩
  rw [same.thread, sameVar] at enters
  exact ⟨space, outcome, after, (enter_run_interned interned presentLater).trans ran,
    enrolled.later sameSpaces, enters.earlier same sameVar⟩

/-! ## Whatever has been done before -/

/-- The bindings are those that pushes, pops, assignments, captures and installations by any
threads have led to, and namespaces those that any commands have led to. Then it depends on who
pushed the binding of the current namespace whether a thread can enter a namespace. The one
that cannot has founded the namespace all the same, if there was none of that name. -/
theorem performAll_enters (positive : 0 < machine.limit) {commands : List Naming.Command}
    (ran : Naming.performAll commands machine World.initial = some ((), world))
    (present : world.registries.get? registry.index = some content) {start : World}
    (unbound : start.bindings = .empty) {turns : List Binding.Command}
    (known : ∀ turn ∈ turns, turn.action.NamesOf start.vars) :
    ∃ outcomes captured reached,
      Binding.performAll [] turns machine start = some ((outcomes, captured), reached) ∧
      ∀ thread name, ∃ space outcome after,
        (enter registry name).run machine
            { world with bindings := reached.bindings, thread := thread } =
          some (outcome, after) ∧
        findSpace registry name machine after = some (some space, after) ∧
        Enrolled world registry name space after ∧
        EntersAs machine { world with bindings := reached.bindings, thread := thread } registry
          content space
          ((Layers.performAll turns (.start start.vars)).2.pusher thread content.currentSpace)
          outcome after := by
  rcases Binding.performAll_follows machine (.start unbound) known with
    ⟨captured, reached, reaches, shows, -, -⟩
  refine ⟨_, captured, reached, reaches, fun thread name => ?_⟩
  have orderly : Orderly { world with bindings := reached.bindings, thread := thread } :=
    (orderly_of_performAll positive .initial ran).apply
      (show Change.Allowed world (.elsewhere fun world =>
        { world with bindings := reached.bindings, thread := thread }) from Nat.le_refl _)
  rcases shows.bindings with ⟨place, represents⟩
  have showsHere : Binding.Shows
      { world with bindings := reached.bindings, thread := thread } captured
      { (Layers.performAll turns (.start start.vars)).2 with vars := world.vars } :=
    ⟨rfl, place, represents.withVars world.vars⟩
  rcases enter_entersAs positive orderly present showsHere name with
    ⟨space, outcome, after, entered, enrolled, enters⟩
  rcases World.registered_eq_some_iff.mp enrolled.registered with ⟨later, presentLater, -⟩
  refine ⟨space, outcome, after, entered, ?_, ⟨enrolled.registered, enrolled.named,
    enrolled.found, enrolled.founded, enrolled.others⟩, enters⟩
  rw [findSpace_run machine presentLater, enrolled.registered]

/-- A thread sees a binding of the current namespace that has been conveyed to it. It cannot
enter a namespace that there is not, and then there is one. -/
theorem refused_entry_registers :
    ((Naming.performAll [.createRegistry defaultConfiguration] quiet World.initial).bind fun made =>
      (Binding.performAll [] Binding.conveyed quiet made.2).bind fun reached =>
        ((enter ⟨0⟩ (.unqualifiedName "new")).run quiet (reached.2.turnOf 1)).map fun entered =>
          (entered.1, reached.2.registered ⟨0⟩ (.unqualifiedName "new"),
            entered.2.registered ⟨0⟩ (.unqualifiedName "new"))) =
      some (.error (.setFromForeignThread "lumen.core/*ns*"), none, some ⟨2⟩) := by
  decide +kernel

/-- The thread that pushed the binding can enter it, and leaves the root alone; the other one
changes neither the root nor the binding. -/
theorem conveyed_entries : ∃ world outcomes captured reached,
    Naming.performAll [.createRegistry defaultConfiguration] quiet World.initial =
      some ((), world) ∧
    Binding.performAll [] Binding.conveyed quiet Binding.oneVar =
      some ((outcomes, captured), reached) ∧
    (∃ space after, (enter ⟨0⟩ (.unqualifiedName "new")).run quiet
        { world with bindings := reached.bindings, thread := 0 } = some (.ok space, after) ∧
      (current ⟨0⟩).run quiet after = some (.ok space, after) ∧ after.vars = world.vars) ∧
    ∃ name space after, (enter ⟨0⟩ (.unqualifiedName "new")).run quiet
        { world with bindings := reached.bindings, thread := 1 } =
          some (.error (.setFromForeignThread name), after) ∧
      findSpace ⟨0⟩ (.unqualifiedName "new") quiet after = some (some space, after) ∧
      world.spaces.get? space.index = none ∧ after.vars = world.vars ∧
      after.bindings = reached.bindings := by
  have ends : ((Naming.performAll [.createRegistry defaultConfiguration] quiet
      World.initial).bind fun made => do
        let content ← made.2.registries.get? 0
        return (content.currentSpace, made.2.registered ⟨0⟩ (.unqualifiedName "new"))) =
      some (⟨0⟩, none) := by decide +kernel
  rcases Option.bind_eq_some_iff.mp ends with ⟨⟨_, world⟩, ran, rest⟩
  rcases Option.bind_eq_some_iff.mp rest with ⟨content, existing, seen⟩
  simp only [pure, Option.some.injEq, Prod.mk.injEq] at seen
  rcases seen with ⟨isFirst, free⟩
  have present : world.registries.get? (⟨0⟩ : Registry.Cell).index = some content := existing
  have known : ∀ turn ∈ Binding.conveyed, turn.action.NamesOf Binding.oneVar.vars := by
    change ∀ turn ∈ Binding.conveyed, ∀ var ∈ turn.action.vars,
      var.index < Binding.oneVar.vars.next
    decide
  rcases performAll_enters Nat.one_pos ran present rfl known with
    ⟨outcomes, captured, reached, reaches, entries⟩
  refine ⟨world, outcomes, captured, reached, ran, reaches, ?_, ?_⟩
  · rcases entries 0 (.unqualifiedName "new") with ⟨space, outcome, after, entered, -, -, enters⟩
    rw [isFirst] at enters
    have isOwn : (Layers.performAll Binding.conveyed (.start Binding.oneVar.vars)).2.pusher 0 ⟨0⟩ =
        some 0 := by decide
    rcases enters.own isOwn with ⟨rfl, isCurrent, vars, -⟩
    exact ⟨space, after, entered, isCurrent, vars⟩
  · rcases entries 1 (.unqualifiedName "new") with
      ⟨space, outcome, after, entered, found, enrolled, enters⟩
    rw [isFirst] at enters
    have conveyed : (Layers.performAll Binding.conveyed (.start Binding.oneVar.vars)).2.pusher 1
        ⟨0⟩ = some 0 := by decide
    rcases enters.foreign 0 conveyed Nat.zero_ne_one with ⟨⟨var, -, rfl⟩, vars, bindings⟩
    exact ⟨var.qualifiedName, space, after, entered, found, enrolled.founded free, vars, bindings⟩

end Registry

end LispRuntime
