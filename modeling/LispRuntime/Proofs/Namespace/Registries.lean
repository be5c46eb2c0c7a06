import LispRuntime.Proofs.Namespace.Spaces

/-! What is done with a registry while everything is in order: what is answered, and which
changes are made. -/

namespace LispRuntime

namespace Registry

open Naming

variable {machine : Machine} {world after : World} {registry : Registry.Cell}
  {content : RegistryCell} {name : Symbol}

/-! ## Namespaces by name -/

theorem registryAt_run (machine : Machine)
    (present : world.registries.get? registry.index = some content) :
    registryAt registry machine world = some (content, world) := by
  change Run.found (world.registries.get? registry.index) machine world = _
  rw [present]
  rfl

theorem findSpace_run (machine : Machine)
    (present : world.registries.get? registry.index = some content) (name : Symbol) :
    findSpace registry name machine world = some (world.registered registry name, world) := by
  rw [findSpace, Run.run_bind (registryAt_run machine present), World.registered, present]
  rfl

theorem registered_of_findSpace {answer : Option Space.Cell}
    (present : world.registries.get? registry.index = some content)
    (found : findSpace registry name machine world = some (answer, world)) :
    world.registered registry name = answer := by
  cases found.symm.trans (findSpace_run machine present name)
  rfl

theorem named_of_registered {space : Space.Cell} (orderly : Orderly world)
    (isRegistered : world.registered registry name = some space) :
    ∃ spaceContent, world.spaces.get? space.index = some spaceContent ∧
      spaceContent.name = name := by
  rcases World.registered_eq_some_iff.mp isRegistered with ⟨content, present, found⟩
  exact (orderly.registry present).named _ (Space.mem_of_findSymbol found)

theorem setSpaces_run (machine : Machine)
    (present : world.registries.get? registry.index = some content)
    (change : List (Symbol × Space.Cell) → List (Symbol × Space.Cell)) :
    setSpaces registry (change content.spaces) machine world =
      some ((), Change.inRegistry world registry change) := by
  have same : (world.registries.modify registry.index fun registry =>
      { registry with spaces := change content.spaces }) =
      world.registries.modify registry.index fun registry =>
        { registry with spaces := change registry.spaces } := by
    simp [Store.modify, present]
  change some ((), { world with registries := _ }) = _
  rw [same]
  rfl

/-- A namespace that has just been made owns nothing. -/
theorem ownVar_addSpace (world : World) (name symbol : Symbol) :
    ((Change.addSpace name).apply world).ownVar ⟨world.spaces.next⟩ symbol = none := by
  have nothing : ((Change.addSpace name).apply world).mapped ⟨world.spaces.next⟩ symbol = none := by
    rw [World.mapped, Change.apply, Store.get?_push_next]
    rfl
  rw [World.ownVar, nothing]
  rfl

/-- A new namespace has every var that is public in the core namespace. -/
theorem newSpace_run {core : Space.Cell} {coreContent : SpaceCell}
    (positive : 0 < machine.limit) (orderly : Orderly world)
    (corePresent : world.spaces.get? core.index = some coreContent) (name : Symbol) :
    (Space.referAll ⟨world.spaces.next⟩ core).run machine ((Change.addSpace name).apply world) =
        some (.ok (), Space.referring ((Change.addSpace name).apply world) ⟨world.spaces.next⟩
          (Space.listing machine world core coreContent)) ∧
      Leads Harmless world (Space.referring ((Change.addSpace name).apply world)
        ⟨world.spaces.next⟩ (Space.listing machine world core coreContent)) := by
  have isNew : Change.Allowed world (.addSpace name) := trivial
  have newPresent : ((Change.addSpace name).apply world).spaces.get?
      (Ref.mk world.spaces.next : Space.Cell).index = some ⟨name, [], []⟩ :=
    Store.get?_push_next ..
  have coreThere : ((Change.addSpace name).apply world).spaces.get? core.index =
      some coreContent := Store.get?_push_eq_some.mpr (.inr corePresent)
  have samePublics : world.SamePublics ((Change.addSpace name).apply world) := ⟨rfl, rfl, rfl⟩
  rcases Space.referAll_leads positive (orderly.apply isNew) newPresent coreThere with
    ⟨outcome, after, ran, leads⟩
  have referred := Space.referAll_ok positive (orderly.apply isNew) newPresent coreThere
    (ownVar_addSpace world name)
  rw [Space.listing_congr positive orderly corePresent samePublics] at referred
  cases ran.symm.trans referred
  exact ⟨ran, .trans (.single _ isNew trivial) (leads.weaken fun _ _ => Space.Refers.harmless)⟩

/-- A new namespace, which refers to these vars, is registered. -/
def founding (world : World) (registry : Registry.Cell) (name : Symbol)
    (vars : List Space.Mapping) : World :=
  (Change.enroll registry name ⟨world.spaces.next⟩).apply
    (Space.referring ((Change.addSpace name).apply world) ⟨world.spaces.next⟩ vars)

theorem registered_founding (present : world.registries.get? registry.index = some content)
    (name : Symbol) (vars : List Space.Mapping) (other : Registry.Cell) (key : Symbol) :
    (founding world registry name vars).registered other key =
      if other = registry ∧ key = name then some ⟨world.spaces.next⟩
      else world.registered other key := by
  have registries : (founding world registry name vars).registries =
      world.registries.modify registry.index fun content =>
        { content with spaces := Space.insertSymbol name ⟨world.spaces.next⟩ content.spaces } := rfl
  rw [World.registered, registries, Store.get?_modify]
  by_cases here : other = registry
  · subst here
    rw [if_pos rfl, present, Option.map_some, Option.bind_some, Space.findSymbol_insertSymbol,
      World.registered, present, Option.bind_some]
    simp
  · rw [if_neg (here ∘ Ref.index_inj.mp), if_neg fun both => here both.1]
    rfl

/-- The namespace of a name is the one that is registered, or else a new one, which has every
var that is public in the core namespace. -/
theorem internSpace_cases (positive : 0 < machine.limit) (orderly : Orderly world)
    (present : world.registries.get? registry.index = some content) (name : Symbol) :
    (∃ found, world.registered registry name = some found ∧
      internSpace registry name machine world = some (found, world)) ∨
    world.registered registry name = none ∧ ∃ core,
      world.spaces.get? content.core.index = some core ∧
      internSpace registry name machine world = some (⟨world.spaces.next⟩,
        founding world registry name (Space.listing machine world content.core core)) ∧
      Leads Harmless world
        (founding world registry name (Space.listing machine world content.core core)) := by
  have sought := findSpace_run machine present name
  cases found : world.registered registry name with
  | some space =>
      rw [found] at sought
      exact .inl ⟨space, rfl, Run.run_bind sought⟩
  | none =>
      rw [found] at sought
      rcases (orderly.registry present).core with ⟨core, corePresent, -⟩
      have made : Space.create name machine world =
          some (⟨world.spaces.next⟩, (Change.addSpace name).apply world) := rfl
      have presentNew : ((Change.addSpace name).apply world).registries.get? registry.index =
          some content := present
      rcases newSpace_run positive orderly corePresent name with ⟨ran, leads⟩
      have newPresent : ((Change.addSpace name).apply world).spaces.get? world.spaces.next =
          some ⟨name, [], []⟩ := Store.get?_push_next ..
      let referred := Space.referring ((Change.addSpace name).apply world) ⟨world.spaces.next⟩
        (Space.listing machine world content.core core)
      have isAllowed : Change.Allowed referred (.enroll registry name ⟨world.spaces.next⟩) :=
        ⟨found, _, Store.get?_modify_self newPresent _, rfl⟩
      have presentThen : referred.registries.get? registry.index = some content := present
      refine .inr ⟨rfl, core, corePresent, ?_, leads.trans (.single _ isAllowed trivial)⟩
      rw [internSpace, Run.run_bind sought]
      dsimp only
      rw [Run.run_bind made]
      refine (Run.run_bind (registryAt_run machine presentNew)).trans ?_
      refine (Run.run_bind ran).trans ?_
      rw [Run.run_bind (registryAt_run machine presentThen),
        Run.run_bind (setSpaces_run machine presentThen (Space.insertSymbol name _))]
      rfl

/-- The new namespace has every var that is public in the core namespace. -/
theorem founding_maps (machine : Machine) (orderly : Orderly world) {core : SpaceCell}
    (corePresent : world.spaces.get? content.core.index = some core) (registry : Registry.Cell)
    (name : Symbol) : ∀ entry ∈ Space.listing machine world content.core core,
      (founding world registry name (Space.listing machine world content.core core)).mapped
        ⟨world.spaces.next⟩ entry.1 = some entry.2 := by
  have newPresent : ((Change.addSpace name).apply world).spaces.get?
      (Ref.mk world.spaces.next : Space.Cell).index = some ⟨name, [], []⟩ :=
    Store.get?_push_next ..
  exact fun _ => Space.referring_maps (Space.distinct_listing orderly corePresent) newPresent

/-! ## The current namespace -/

theorem deref_run (machine : Machine) {var : Ref .var} (there : var.index < world.vars.next) :
    ∃ outcome, (Var.deref var).run machine world = some (outcome, world) := by
  rcases Store.exists_of_lt_next there with ⟨content, found⟩
  have bound : Var.binding var machine world =
      some (world.bindings.value? world.thread var, world) := rfl
  have root : Var.root var machine world = some (content.root, world) := by
    rw [Var.root, Run.run_bind (varAt_run machine found)]
    rfl
  rw [Var.deref, Attempt.run_first bound]
  cases world.bindings.value? world.thread var with
  | some value => exact ⟨.ok value, rfl⟩
  | none =>
      dsimp only
      rw [Attempt.run_first root]
      cases content.root with
      | some value => exact ⟨.ok value, rfl⟩
      | none => exact ⟨_, Attempt.run_first (varAt_run machine found)⟩

theorem current_run (machine : Machine) (orderly : Orderly world)
    (present : world.registries.get? registry.index = some content) :
    ∃ outcome, (current registry).run machine world = some (outcome, world) := by
  rcases deref_run machine (orderly.registry present).currentSpace with ⟨outcome, ran⟩
  rw [current, Attempt.run_first (registryAt_run machine present)]
  cases outcome with
  | error error => exact ⟨_, Attempt.run_bind_error ran⟩
  | ok value =>
      rw [Attempt.run_bind_ok ran]
      split <;> exact ⟨_, rfl⟩

theorem assign_run (machine : Machine) {var : Ref .var} (there : var.index < world.vars.next)
    (value : Value) :
    ∃ outcome after, (Var.assign var value).run machine world = some (outcome, after) ∧
      Leads Harmless world after := by
  rcases Store.exists_of_lt_next there with ⟨content, found⟩
  have looked : (get : Run World) machine world = some (world, world) := rfl
  rw [Var.assign]
  cases assigned : world.bindings.assign world.thread var value with
  | ok bindings =>
      refine ⟨.ok value, (Change.elsewhere fun world =>
        { world with bindings := bindings }).apply world, ?_, ?_⟩
      · refine (Attempt.run_first looked).trans ?_
        rw [assigned]
        rfl
      · exact .single _ (Nat.le_refl _) trivial
  | error refusal =>
      have failed : ∃ error, (Var.assign var value).run machine world =
          some (.error error, world) := by
        rw [Var.assign]
        -- Either way the name of the var is looked up for the message.
        cases refusal
        all_goals
          apply Exists.intro
          refine (Attempt.run_first looked).trans ?_
          rw [assigned]
          exact Attempt.run_first (varAt_run machine found)
      rcases failed with ⟨error, ran⟩
      exact ⟨_, world, ran, .refl world⟩

/-- What is left to be done by who enters a namespace once there is one. -/
def makeCurrent (content : RegistryCell) (space : Space.Cell) : Attempt Space.Cell := do
  if ← Var.isThreadBound content.currentSpace then
    let _ ← Var.assign content.currentSpace (.space space)
  else
    Var.bindRoot content.currentSpace (.space space)
  return space

theorem enter_run_interned {space : Space.Cell} {between : World}
    (interned : internSpace registry name machine world = some (space, between))
    (present : between.registries.get? registry.index = some content) :
    (enter registry name).run machine world = (makeCurrent content space).run machine between := by
  rw [enter, Attempt.run_first interned, Attempt.run_first (registryAt_run machine present)]
  rfl

/-- Whether or not the namespace becomes the current one, what is registered stays so. -/
theorem makeCurrent_run (machine : Machine) (there : content.currentSpace.index < world.vars.next)
    (space : Space.Cell) :
    ∃ outcome after, (makeCurrent content space).run machine world = some (outcome, after) ∧
      Leads Harmless world after ∧ ∀ entered, outcome = .ok entered → entered = space := by
  have isBound : Var.isThreadBound content.currentSpace machine world =
      some (world.bindings.isBound world.thread content.currentSpace, world) := rfl
  rw [makeCurrent, Attempt.run_first isBound]
  cases world.bindings.isBound world.thread content.currentSpace with
  | true =>
      rcases assign_run machine there (.space space) with ⟨outcome, after, assigned, onward⟩
      cases outcome with
      | error error =>
          exact ⟨_, after, Attempt.run_bind_error assigned, onward, nofun⟩
      | ok value =>
          refine ⟨.ok space, after, (Attempt.run_bind_ok assigned).trans rfl, onward, ?_⟩
          exact fun _ same => (Except.ok.inj same).symm
  | false =>
      refine ⟨.ok space, (Change.adjust content.currentSpace fun var =>
        { var with root := some (.space space) }).apply world, rfl, ?_, ?_⟩
      · exact .single _ (fun _ => id) trivial
      · exact fun _ same => (Except.ok.inj same).symm

theorem enter_run (machine : Machine) (orderly : Orderly world)
    (present : world.registries.get? registry.index = some content) {space : Space.Cell}
    {between : World} (leads : Leads Harmless world between)
    (interned : internSpace registry name machine world = some (space, between)) :
    ∃ outcome after, (enter registry name).run machine world = some (outcome, after) ∧
      Leads Harmless between after ∧ ∀ entered, outcome = .ok entered → entered = space := by
  rcases leads.onward.registry present with ⟨later, presentLater, -, -⟩
  have there := ((leads.orderly orderly).registry presentLater).currentSpace
  rw [enter_run_interned interned presentLater]
  exact makeCurrent_run machine there space

theorem name_keeps {space : Space.Cell} {answer : Symbol}
    (ran : Space.name space machine world = some (answer, after)) :
    after = world ∧ ∃ content, world.spaces.get? space.index = some content ∧
      content.name = answer := by
  rcases Run.exists_of_bind ran with ⟨content, between, looked, rest⟩
  rcases Run.eq_some_of_found looked with ⟨present, rfl⟩
  cases rest
  exact ⟨rfl, content, present, rfl⟩

/-- A removal is turned down, or the name is struck off. It is then neither that of the core
namespace nor that of the current one. -/
theorem removeSpace_cases (orderly : Orderly world)
    (present : world.registries.get? registry.index = some content)
    {outcome : Except Error (Option Space.Cell)}
    (ran : (removeSpace registry name).run machine world = some (outcome, after)) :
    (∃ error, outcome = .error error ∧ after = world) ∨
    outcome = .ok (world.registered registry name) ∧
      after = (Change.strike registry name).apply world ∧
      Change.Allowed world (.strike registry name) ∧
      ∃ space spaceContent, (current registry).run machine world = some (.ok space, world) ∧
        world.spaces.get? space.index = some spaceContent ∧ spaceContent.name ≠ name := by
  rcases (orderly.registry present).core with ⟨core, corePresent, -⟩
  rw [removeSpace, Attempt.run_first (registryAt_run machine present),
    Attempt.run_first (Space.name_run machine corePresent)] at ran
  by_cases isCore : name = core.name
  · rw [if_pos isCore] at ran
    cases ran
    exact .inl ⟨_, rfl, rfl⟩
  rw [if_neg isCore] at ran
  rcases current_run machine orderly present with ⟨answer, asked⟩
  cases answer with
  | error error =>
      rw [Attempt.run_bind_error asked] at ran
      cases ran
      exact .inl ⟨_, rfl, rfl⟩
  | ok space =>
      rw [Attempt.run_bind_ok asked] at ran
      rcases Attempt.exists_of_first ran with ⟨currentName, between, named, rest⟩
      rcases name_keeps named with ⟨rfl, spaceContent, spacePresent, rfl⟩
      by_cases isCurrent : spaceContent.name = name
      · rw [if_pos isCurrent] at rest
        cases rest
        exact .inl ⟨_, rfl, rfl⟩
      · rw [if_neg isCurrent] at rest
        dsimp only at rest
        rw [Attempt.run_first (findSpace_run machine present name),
          Attempt.run_first (registryAt_run machine present),
          Attempt.run_first (setSpaces_run machine present (Space.eraseSymbol name))] at rest
        cases rest
        refine .inr ⟨rfl, rfl, ?_, space, spaceContent, asked, spacePresent, isCurrent⟩
        intro other otherCore otherPresent otherCorePresent
        cases present.symm.trans otherPresent
        cases corePresent.symm.trans otherCorePresent
        exact Ne.symm isCore

/-! ## Vars by symbol -/

theorem spaceFor_keeps (orderly : Orderly world)
    (present : world.registries.get? registry.index = some content) (symbol : Symbol) :
    ∃ outcome, (spaceFor registry symbol).run machine world = some (outcome, world) := by
  unfold spaceFor
  cases symbol.qualifierSymbol with
  | none => exact current_run machine orderly present
  | some name =>
      dsimp only
      rw [Attempt.run_first (findSpace_run machine present name)]
      split <;> exact ⟨_, rfl⟩

theorem internVar_leads (orderly : Orderly world)
    (present : world.registries.get? registry.index = some content) {symbol : Symbol}
    {outcome : Except Error (Ref .var)}
    (ran : (internVar registry symbol).run machine world = some (outcome, after)) :
    Leads Harmless world after := by
  rcases spaceFor_keeps orderly present symbol with ⟨answer, asked⟩
  rw [internVar] at ran
  cases answer with
  | error error =>
      rw [Attempt.run_bind_error asked] at ran
      cases ran
      exact .refl world
  | ok space =>
      rw [Attempt.run_bind_ok asked] at ran
      exact Space.intern_leads orderly ran

/-- A full name leads to the namespace that is registered under its qualifier. -/
theorem findVar_run (machine : Machine) (orderly : Orderly world)
    (present : world.registries.get? registry.index = some content)
    (qualifier name : String) :
    (findVar registry (.qualifiedName qualifier name)).run machine world =
      some ((world.registered registry (.unqualifiedName qualifier)).elim
        (.error (.noNamespace (.unqualifiedName qualifier)))
        fun space => .ok (world.ownVar space (.unqualifiedName name)), world) := by
  have sought := findSpace_run machine present (.unqualifiedName qualifier)
  have asked : (spaceFor registry (.qualifiedName qualifier name)).run machine world =
      some ((world.registered registry (.unqualifiedName qualifier)).elim
        (.error (.noNamespace (.unqualifiedName qualifier))) .ok, world) := by
    refine (Attempt.run_first sought).trans ?_
    cases world.registered registry (.unqualifiedName qualifier) <;> rfl
  cases found : world.registered registry (.unqualifiedName qualifier) with
  | none =>
      rw [found] at asked
      exact Attempt.run_bind_error asked
  | some space =>
      rw [found] at asked
      rcases named_of_registered orderly found with ⟨_, spacePresent, -⟩
      refine (Attempt.run_bind_ok asked).trans ?_
      have looked := Space.findVar_run machine orderly spacePresent (.unqualifiedName name)
      exact Attempt.run_lift looked

/-! ## New registries -/

/-- A dynamic var with a root is a var like any other. -/
theorem internDynamic_run (machine : Machine) {space : Space.Cell} {spaceContent : SpaceCell}
    (orderly : Orderly world) (present : world.spaces.get? space.index = some spaceContent)
    {symbol : Symbol} (unqualified : symbol.isQualified = false) (value : Value) :
    ∃ var after, (Space.internDynamic space symbol value).run machine world =
        some (.ok var, after) ∧
      Leads Harmless world after ∧ var.index < after.vars.next := by
  rcases Space.intern_unqualified machine orderly present unqualified with
    ⟨var, between, ran, leads, own⟩
  have there := Space.mapped_there (leads.orderly orderly) (World.ownVar_eq_some_iff.mp own).1
  let setRoot := Change.adjust var fun content => { content with root := some value }
  let setDynamic := Change.adjust var fun content => { content with isDynamic := true }
  have rooted : (Space.internValue space symbol value).run machine world =
      some (.ok var, setRoot.apply between) := (Attempt.run_bind_ok ran).trans rfl
  have adjusts : Leads Harmless between (setDynamic.apply (setRoot.apply between)) :=
    .trans (.single setRoot (fun _ => id) trivial) (.single setDynamic (fun _ => id) trivial)
  exact ⟨var, _, (Attempt.run_bind_ok rooted).trans rfl, leads.trans adjusts,
    adjusts.onward.varThere there⟩

theorem internSpace_leads (positive : 0 < machine.limit) (orderly : Orderly world)
    (present : world.registries.get? registry.index = some content) (name : Symbol) :
    ∃ space after, internSpace registry name machine world = some (space, after) ∧
      Leads Harmless world after ∧ after.registered registry name = some space := by
  rcases internSpace_cases positive orderly present name with
    ⟨found, isRegistered, ran⟩ | ⟨-, core, -, ran, leads⟩
  · exact ⟨found, world, ran, .refl world, isRegistered⟩
  · refine ⟨_, _, ran, leads, ?_⟩
    rw [registered_founding present, if_pos ⟨rfl, rfl⟩]

/-- The core namespace begins with two vars. -/
theorem coreVars_run (machine : Machine) (orderly : Orderly world) (name : Symbol)
    (length : Value) :
    ∃ currentSpace printLength second third,
      (Space.internDynamic ⟨world.spaces.next⟩ (.unqualifiedName "*ns*") .nil).run machine
          ((Change.addSpace name).apply world) = some (.ok currentSpace, second) ∧
      (Space.internDynamic ⟨world.spaces.next⟩ (.unqualifiedName "*print-length*") length).run
          machine second = some (.ok printLength, third) ∧
      Leads Harmless world third ∧ currentSpace.index < third.vars.next ∧
      ∃ core, third.spaces.get? world.spaces.next = some core ∧ core.name = name := by
  have addsSpace : Leads Harmless world ((Change.addSpace name).apply world) :=
    .single _ trivial trivial
  have corePresent : ((Change.addSpace name).apply world).spaces.get?
      (Ref.mk world.spaces.next : Space.Cell).index = some ⟨name, [], []⟩ :=
    Store.get?_push_next ..
  rcases internDynamic_run machine (addsSpace.orderly orderly) corePresent
    (show (Symbol.unqualifiedName "*ns*").isQualified = false from rfl) .nil with
    ⟨currentSpace, second, ranSecond, addsCurrent, currentThere⟩
  have leads := addsSpace.trans addsCurrent
  rcases addsCurrent.onward.space corePresent with ⟨core, corePresent, named⟩
  rcases internDynamic_run machine (leads.orderly orderly) corePresent
    (show (Symbol.unqualifiedName "*print-length*").isQualified = false from rfl) length with
    ⟨printLength, third, ranThird, addsLength, -⟩
  rcases addsLength.onward.space corePresent with ⟨later, corePresent, sameName⟩
  exact ⟨currentSpace, printLength, second, third, ranSecond, ranThird, leads.trans addsLength,
    addsLength.onward.varThere currentThere, later, corePresent, sameName.trans named⟩

/-- The print length and the hierarchy are kept elsewhere. -/
theorem shared_run (machine : Machine) (world : World) (length : Option Nat) :
    ∃ old between hierarchy after,
      Run.setPrintLength length machine world = some (old, between) ∧
      Taxonomy.create .empty machine between = some (hierarchy, after) ∧
      Leads Harmless world after :=
  let change := Change.elsewhere fun world => { world with
    printLengths := world.printLengths.set world.thread length
    hierarchies := world.hierarchies.push ⟨.empty, 0⟩ }
  ⟨_, _, ⟨world.hierarchies.next⟩, change.apply world, rfl, rfl,
    .single change (Nat.le_refl _) trivial⟩

/-- A new registry can always be made. -/
theorem create_run (positive : 0 < machine.limit) (orderly : Orderly world)
    (configuration : Configuration) :
    ∃ registry after, (create configuration).run machine world = some (.ok registry, after) ∧
      Leads Harmless world after := by
  let coreName := Symbol.unqualifiedName configuration.core
  have made : Space.create coreName machine world =
      some (⟨world.spaces.next⟩, (Change.addSpace coreName).apply world) := rfl
  rcases coreVars_run machine orderly coreName (lengthValue configuration.printLength) with
    ⟨currentSpace, printLength, _, third, ranCurrent, ranLength, leads, currentThere, core,
      corePresent, coreNamed⟩
  rcases shared_run machine third configuration.printLength with
    ⟨_, _, hierarchy, last, limits, shares, elsewhere⟩
  rcases elsewhere.onward.space corePresent with ⟨later, corePresent, sameName⟩
  let content : RegistryCell := ⟨configuration, ⟨world.spaces.next⟩, currentSpace, printLength,
    hierarchy, [(coreName, ⟨world.spaces.next⟩)]⟩
  have isAllowed : Change.Allowed last (.addRegistry content) := by
    refine ⟨elsewhere.onward.varThere currentThere, later, corePresent, ?_⟩
    rw [sameName, coreNamed]
  have leads := leads.trans (elsewhere.trans (.single _ isAllowed trivial))
  have present : ((Change.addRegistry content).apply last).registries.get?
      (Ref.mk last.registries.next : Registry.Cell).index = some content :=
    Store.get?_push_next ..
  rcases internSpace_leads positive (leads.orderly orderly) present
    (Symbol.unqualifiedName configuration.user) with ⟨user, _, ranUser, addsUser, -⟩
  let enters := Change.adjust currentSpace fun var => { var with root := some (.space user) }
  refine ⟨⟨last.registries.next⟩, _, ?_,
    leads.trans (addsUser.trans (.single enters (fun _ => id) trivial))⟩
  rw [create, Attempt.run_first made, Attempt.run_bind_ok ranCurrent,
    Attempt.run_bind_ok ranLength, Attempt.run_first limits, Attempt.run_first shares]
  refine (Attempt.run_first (show (get : Run World) machine last = _ from rfl)).trans ?_
  refine (Attempt.run_first (show (set _ : Run PUnit) machine last =
    some (.unit, (Change.addRegistry content).apply last) from rfl)).trans ?_
  exact (Attempt.run_first ranUser).trans rfl

end Registry

end LispRuntime
