import LispRuntime.Proofs.Namespace.Registries

/-! Vars, namespaces and registries over their whole life. The commands are what is done with
them; whatever else goes on between the commands changes nothing about them. Threads, and their
bindings of the current namespace, are among the rest. -/

namespace LispRuntime.Naming

inductive Command where
  | createRegistry (configuration : Configuration)
  | internSpace (registry : Registry.Cell) (name : Symbol)
  | enter (registry : Registry.Cell) (name : Symbol)
  | removeSpace (registry : Registry.Cell) (name : Symbol)
  | internVar (registry : Registry.Cell) (symbol : Symbol)
  | createSpace (name : Symbol)
  | intern (space : Space.Cell) (symbol : Symbol)
  | refer (space : Space.Cell) (symbol : Symbol) (var : Ref .var)
  | referAll (space source : Space.Cell)
  | unmap (space : Space.Cell) (symbol : Symbol)
  | addAlias (space : Space.Cell) (symbol : Symbol) (target : Space.Cell)
  | removeAlias (space : Space.Cell) (symbol : Symbol)
  | bindRoot (var : Ref .var) (value : Value)
  | unbindRoot (var : Ref .var)
  | setDynamic (var : Ref .var) (isDynamic : Bool)
  | setMetadata (var : Ref .var) (metadata : Option Value)
  /-- A change to anything but vars, namespaces and registries. No transient is taken away. -/
  | elsewhere (change : World → World)

/-- What is referred to is there. -/
def lookAtTransient : Option Value → Run Unit
  | some (.transient cell) => do discard <| Run.transientAt cell
  | _ => return ()

/-- A command may fail, and then what it did before that remains done. -/
def perform : Command → Run Unit
  | .createRegistry configuration => do discard <| Run.outcome (Registry.create configuration)
  | .internSpace registry name => do discard <| Registry.internSpace registry name
  | .enter registry name => do discard <| Run.outcome (Registry.enter registry name)
  | .removeSpace registry name => do discard <| Run.outcome (Registry.removeSpace registry name)
  | .internVar registry symbol => do discard <| Run.outcome (Registry.internVar registry symbol)
  | .createSpace name => do discard <| Space.create name
  | .intern space symbol => do discard <| Run.outcome (Space.intern space symbol)
  | .refer space symbol var => do
      discard <| Run.varAt var
      discard <| Run.outcome (Space.refer space symbol var)
  | .referAll space source => do
      discard <| Run.spaceAt space
      discard <| Run.outcome (Space.referAll space source)
  | .unmap space symbol => do discard <| Space.unmap space symbol
  | .addAlias space symbol target => do
      discard <| Run.spaceAt target
      discard <| Run.outcome (Space.addAlias space symbol target)
  | .removeAlias space symbol => do discard <| Space.removeAlias space symbol
  | .bindRoot var value => Var.bindRoot var value
  | .unbindRoot var => Var.unbindRoot var
  | .setDynamic var isDynamic => Var.setDynamic var isDynamic
  | .setMetadata var metadata => do
      lookAtTransient metadata
      Var.setMetadata var metadata
  | .elsewhere change => do
      let world ← get
      let changed := change world
      if world.transients.next ≤ changed.transients.next then
        set { changed with
          vars := world.vars
          spaces := world.spaces
          registries := world.registries }
      else Run.stuck

def performAll (commands : List Command) : Run Unit := commands.forM perform

/-- Nothing that is done here calls a function. -/
def quiet : Machine := ⟨fun _ _ _ _ => none, [], 1⟩

/-! ## What a command comes to -/

/-- The changes that a command makes. Nothing is given up or struck off but on demand. -/
inductive Command.Makes (world : World) : Command → Change → Prop
  | harmless {command : Command} {change : Change} :
      Harmless world change → Makes world command change
  | unmap (space : Space.Cell) (symbol : Symbol) :
      Makes world (.unmap space symbol) (.unmap space symbol)
  | strike (registry : Registry.Cell) (name : Symbol) :
      Makes world (.removeSpace registry name) (.strike registry name)
  | refer (space : Space.Cell) (symbol : Symbol) (var : Ref .var) :
      Makes world (.refer space symbol var) (.refer space symbol var)
  | addAlias (space : Space.Cell) (symbol : Symbol) {target : Space.Cell}
      (there : target.index < world.spaces.next) :
      Makes world (.addAlias space symbol target)
        (.realias space (Space.insertSymbol symbol target))
  | removeAlias (space : Space.Cell) (symbol : Symbol) :
      Makes world (.removeAlias space symbol) (.realias space (Space.eraseSymbol symbol))

variable {machine : Machine} {world after : World}

/-- A command begins with a look at a cell. -/
theorem exists_of_look {α : Type} {look : World → Option α} {rest : Run Unit}
    (ran : (do
      discard <| (do Run.found (look (← get)) : Run α)
      rest : Run Unit) machine world = some ((), after)) :
    ∃ content, look world = some content ∧ rest machine world = some ((), after) := by
  rcases Run.exists_of_bind ran with ⟨_, between, looked, last⟩
  rcases Run.exists_of_discard looked with ⟨content, looked⟩
  rcases Run.eq_some_of_found looked with ⟨present, rfl⟩
  exact ⟨content, present, last⟩

theorem there_of_findSpace {registry : Registry.Cell} {name : Symbol}
    {answer : Option Space.Cell}
    (ran : Registry.findSpace registry name machine world = some (answer, after)) :
    ∃ content, world.registries.get? registry.index = some content := by
  rcases Run.exists_of_bind ran with ⟨content, _, looked, -⟩
  exact ⟨content, (Run.eq_some_of_found looked).1⟩

theorem there_of_internSpace {registry : Registry.Cell} {name : Symbol} {answer : Space.Cell}
    (ran : Registry.internSpace registry name machine world = some (answer, after)) :
    ∃ content, world.registries.get? registry.index = some content := by
  rcases Run.exists_of_bind ran with ⟨_, _, sought, -⟩
  exact there_of_findSpace sought

theorem there_of_spaceFor {registry : Registry.Cell} {symbol : Symbol}
    {outcome : Except Error Space.Cell}
    (ran : (Registry.spaceFor registry symbol).run machine world = some (outcome, after)) :
    ∃ content, world.registries.get? registry.index = some content := by
  unfold Registry.spaceFor at ran
  split at ran
  · rcases Attempt.exists_of_first ran with ⟨content, _, looked, -⟩
    exact ⟨content, (Run.eq_some_of_found looked).1⟩
  · rcases Attempt.exists_of_first ran with ⟨_, _, sought, -⟩
    exact there_of_findSpace sought

theorem there_of_lookup {space : Space.Cell} {symbol : Symbol} {answer : Option (Ref .var)}
    (ran : Space.lookup space symbol machine world = some (answer, after)) :
    ∃ content, world.spaces.get? space.index = some content := by
  rcases Run.exists_of_bind ran with ⟨content, _, looked, -⟩
  exact ⟨content, (Run.eq_some_of_found looked).1⟩

theorem there_of_findAlias {space : Space.Cell} {symbol : Symbol} {answer : Option Space.Cell}
    (ran : Space.findAlias space symbol machine world = some (answer, after)) :
    ∃ content, world.spaces.get? space.index = some content := by
  rcases Run.exists_of_bind ran with ⟨content, _, looked, -⟩
  exact ⟨content, (Run.eq_some_of_found looked).1⟩

theorem there_of_publics {space : Space.Cell} {answer : List Space.Mapping}
    (ran : Space.publics space machine world = some (answer, after)) :
    ∃ content, world.spaces.get? space.index = some content := by
  rcases Run.exists_of_bind ran with ⟨_, _, interned, -⟩
  rcases Run.exists_of_bind interned with ⟨_, _, mapped, -⟩
  rcases Run.exists_of_bind mapped with ⟨content, _, looked, -⟩
  exact ⟨content, (Run.eq_some_of_found looked).1⟩

theorem there_of_lookAtTransient {metadata : Option Value}
    (ran : lookAtTransient metadata machine world = some ((), after)) :
    after = world ∧ ∀ cell, metadata = some (.transient cell) →
      cell.index < world.transients.next := by
  unfold lookAtTransient at ran
  split at ran
  case h_1 cell =>
    rcases Run.exists_of_discard ran with ⟨_, looked⟩
    rcases Run.eq_some_of_found looked with ⟨present, rfl⟩
    refine ⟨rfl, fun other same => ?_⟩
    cases same
    exact Store.lt_next_of_get? present
  case h_2 other =>
    cases ran
    exact ⟨rfl, fun cell same => absurd same (other cell)⟩

/-- A reference is turned down, and nothing changes, or it is made. -/
theorem refer_performed (orderly : Orderly world) {space : Space.Cell} {symbol : Symbol}
    {var : Ref .var} (ran : perform (.refer space symbol var) machine world = some ((), after)) :
    (∃ error, (Space.refer space symbol var).run machine world = some (.error error, after) ∧
      after = world) ∨
    (Space.refer space symbol var).run machine world = some (.ok (), after) ∧
      after = (Change.refer space symbol var).apply world ∧
      Change.Allowed world (.refer space symbol var) ∧
      ∃ content, world.spaces.get? space.index = some content := by
  rcases exists_of_look ran with ⟨varContent, varPresent, rest⟩
  rcases Run.exists_of_discard rest with ⟨outcome, referred⟩
  rcases Attempt.exists_of_first referred with ⟨_, _, sought, -⟩
  rcases Run.exists_of_bind sought with ⟨_, _, lookedUp, -⟩
  rcases there_of_lookup lookedUp with ⟨content, present⟩
  rcases Space.refer_cases machine orderly present symbol var with
    ⟨_, error, -, -, again⟩ | ⟨free, again⟩
  · cases referred.symm.trans again
    exact .inl ⟨error, referred, rfl⟩
  · cases referred.symm.trans again
    exact .inr ⟨referred, rfl, ⟨Store.lt_next_of_get? varPresent, free⟩, content, present⟩

theorem leads_of_adjust {command : Command} (var : Ref .var) (change : VarCell → VarCell)
    (there : ∀ content, world.MetadataThere content → world.MetadataThere (change content)) :
    Leads (fun between => Command.Makes between command) world
      ((Change.adjust var change).apply world) :=
  .single (.adjust var change) there (.harmless trivial)

/-! A command that has ended has found its registry and its namespaces, so nothing needs to be
known about them beforehand. -/

theorem internSpace_ran (positive : 0 < machine.limit) (orderly : Orderly world)
    {registry : Registry.Cell} {name : Symbol} {space : Space.Cell}
    (ran : Registry.internSpace registry name machine world = some (space, after)) :
    ∃ content, world.registries.get? registry.index = some content ∧
      Leads Harmless world after := by
  rcases there_of_internSpace ran with ⟨content, present⟩
  rcases Registry.internSpace_leads positive orderly present name with ⟨_, _, again, leads, -⟩
  cases ran.symm.trans again
  exact ⟨content, present, leads⟩

theorem enter_ran (positive : 0 < machine.limit) (orderly : Orderly world)
    {registry : Registry.Cell} {name : Symbol} {outcome : Except Error Space.Cell}
    (ran : (Registry.enter registry name).run machine world = some (outcome, after)) :
    Leads Harmless world after := by
  rcases Attempt.exists_of_first ran with ⟨_, _, interned, -⟩
  rcases internSpace_ran positive orderly interned with ⟨content, present, leads⟩
  rcases Registry.enter_run machine orderly present leads interned with ⟨_, _, again, onward, -⟩
  cases ran.symm.trans again
  exact leads.trans onward

theorem internVar_ran (orderly : Orderly world) {registry : Registry.Cell} {symbol : Symbol}
    {outcome : Except Error (Ref .var)}
    (ran : (Registry.internVar registry symbol).run machine world = some (outcome, after)) :
    Leads Harmless world after := by
  have asked : ∃ answer between,
      (Registry.spaceFor registry symbol).run machine world = some (answer, between) := by
    rcases Run.exists_of_bind ran with ⟨answer, between, asked, -⟩
    exact ⟨answer, between, asked⟩
  rcases asked with ⟨_, _, asked⟩
  rcases there_of_spaceFor asked with ⟨content, present⟩
  exact Registry.internVar_leads orderly present ran

theorem referAll_ran (positive : 0 < machine.limit) (orderly : Orderly world)
    {space source : Space.Cell} {content : SpaceCell} {outcome : Except Error Unit}
    (present : world.spaces.get? space.index = some content)
    (ran : (Space.referAll space source).run machine world = some (outcome, after)) :
    Leads Harmless world after := by
  rcases Attempt.exists_of_first ran with ⟨_, _, listed, -⟩
  rcases there_of_publics listed with ⟨sourceContent, sourcePresent⟩
  rcases Space.referAll_leads positive orderly present sourcePresent with ⟨_, _, again, leads⟩
  cases ran.symm.trans again
  exact leads.weaken fun _ _ => Space.Refers.harmless

/-- A change of anything else goes through only if no transient is lost. -/
theorem elsewhere_performed {change : World → World}
    (ran : perform (.elsewhere change) machine world = some ((), after)) :
    world.transients.next ≤ (change world).transients.next ∧
      after = (Change.elsewhere change).apply world := by
  have ran : (if world.transients.next ≤ (change world).transients.next then
      (set { change world with
        vars := world.vars
        spaces := world.spaces
        registries := world.registries } : Run Unit)
    else Run.stuck) machine world = some ((), after) := ran
  split at ran
  case isTrue grows =>
    cases ran
    exact ⟨grows, rfl⟩
  case isFalse => cases ran

/-- What a command comes to in an orderly world. -/
theorem perform_leads (positive : 0 < machine.limit) (orderly : Orderly world) {command : Command}
    (ran : perform command machine world = some ((), after)) :
    Leads (fun between => Command.Makes between command) world after := by
  have harmless : ∀ {first last : World}, Leads Harmless first last →
      Leads (fun between => Command.Makes between command) first last :=
    fun leads => leads.weaken fun _ _ => .harmless
  cases command with
  | createRegistry configuration =>
      rcases Run.exists_of_discard ran with ⟨_, created⟩
      rcases Registry.create_run positive orderly configuration with ⟨_, _, again, leads⟩
      cases created.symm.trans again
      exact harmless leads
  | internSpace registry name =>
      rcases Run.exists_of_discard ran with ⟨_, interned⟩
      rcases internSpace_ran positive orderly interned with ⟨_, _, leads⟩
      exact harmless leads
  | enter registry name =>
      rcases Run.exists_of_discard ran with ⟨_, entered⟩
      exact harmless (enter_ran positive orderly entered)
  | removeSpace registry name =>
      rcases Run.exists_of_discard ran with ⟨_, removed⟩
      rcases Attempt.exists_of_first removed with ⟨content, _, looked, -⟩
      rcases Registry.removeSpace_cases orderly (Run.eq_some_of_found looked).1 removed with
        ⟨_, -, rfl⟩ | ⟨-, rfl, isAllowed, -⟩
      · exact .refl _
      · exact .single _ isAllowed (.strike registry name)
  | internVar registry symbol =>
      rcases Run.exists_of_discard ran with ⟨_, interned⟩
      exact harmless (internVar_ran orderly interned)
  | createSpace name =>
      cases ran
      exact .single (.addSpace name) trivial (.harmless trivial)
  | intern space symbol =>
      rcases Run.exists_of_discard ran with ⟨_, interned⟩
      exact harmless (Space.intern_leads orderly interned)
  | refer space symbol var =>
      rcases refer_performed orderly ran with ⟨_, -, rfl⟩ | ⟨-, rfl, isAllowed, -⟩
      · exact .refl _
      · exact .single _ isAllowed (.refer space symbol var)
  | referAll space source =>
      rcases exists_of_look ran with ⟨content, present, rest⟩
      rcases Run.exists_of_discard rest with ⟨_, referred⟩
      exact harmless (referAll_ran positive orderly present referred)
  | unmap space symbol =>
      rcases Run.exists_of_discard ran with ⟨_, unmapped⟩
      rcases Run.exists_of_bind unmapped with ⟨_, _, lookedUp, -⟩
      rcases there_of_lookup lookedUp with ⟨content, present⟩
      cases unmapped.symm.trans (Space.unmap_run machine present symbol)
      exact .single _ trivial (.unmap space symbol)
  | addAlias space symbol target =>
      rcases exists_of_look ran with ⟨_, targetPresent, rest⟩
      rcases Run.exists_of_discard rest with ⟨_, added⟩
      rcases Attempt.exists_of_first added with ⟨_, _, sought, -⟩
      rcases there_of_findAlias sought with ⟨content, present⟩
      rcases Space.addAlias_cases present added with rfl | rfl
      · exact .refl _
      · exact .single _ trivial
          (.addAlias space symbol (Store.lt_next_of_get? targetPresent))
  | removeAlias space symbol =>
      rcases Run.exists_of_discard ran with ⟨_, removed⟩
      rcases Run.exists_of_bind removed with ⟨_, _, sought, -⟩
      rcases there_of_findAlias sought with ⟨content, present⟩
      cases removed.symm.trans (Space.removeAlias_run machine present symbol)
      exact .single _ trivial (.removeAlias space symbol)
  | bindRoot var value =>
      cases ran
      exact leads_of_adjust var (fun content => { content with root := some value }) fun _ => id
  | unbindRoot var =>
      cases ran
      exact leads_of_adjust var (fun content => { content with root := none }) fun _ => id
  | setDynamic var isDynamic =>
      cases ran
      exact leads_of_adjust var (fun content => { content with isDynamic := isDynamic }) fun _ => id
  | setMetadata var metadata =>
      rcases Run.exists_of_bind ran with ⟨_, _, looked, set⟩
      rcases there_of_lookAtTransient looked with ⟨rfl, there⟩
      cases set
      exact leads_of_adjust var (fun content => { content with metadata := metadata })
        fun _ _ => there
  | elsewhere change =>
      rcases elsewhere_performed ran with ⟨grows, rfl⟩
      exact .single (.elsewhere change) grows (.harmless trivial)

/-! ## What a run comes to -/

/-- In a run of the commands this one is performed in the world `between`. -/
def Occurs (machine : Machine) (world : World) (commands : List Command) (command : Command)
    (between : World) : Prop :=
  ∃ earlier later, commands = earlier ++ command :: later ∧
    performAll earlier machine world = some ((), between)

theorem performAll_append (earlier later : List Command) :
    performAll (earlier ++ later) = (do
      performAll earlier
      performAll later) :=
  List.forM_append

namespace Occurs

variable {between moment : World} {command other : Command} {rest : List Command}

theorem first (machine : Machine) (world : World) (command : Command) (rest : List Command) :
    Occurs machine world (command :: rest) command world :=
  ⟨[], rest, rfl, rfl⟩

theorem later (ran : perform command machine world = some ((), between))
    (occurs : Occurs machine between rest other moment) :
    Occurs machine world (command :: rest) other moment := by
  rcases occurs with ⟨earlier, last, rfl, reached⟩
  exact ⟨command :: earlier, last, rfl, (Run.run_bind ran).trans reached⟩

theorem append (occurs : Occurs machine world rest command between) (others : List Command) :
    Occurs machine world (rest ++ others) command between := by
  rcases occurs with ⟨earlier, last, rfl, reached⟩
  exact ⟨earlier, last ++ others, List.append_assoc .., reached⟩

theorem mem (occurs : Occurs machine world rest command between) : command ∈ rest := by
  rcases occurs with ⟨earlier, last, rfl, -⟩
  exact List.mem_append_right _ (List.mem_cons_self ..)

end Occurs

/-- What every command keeps where it is performed, the run keeps. -/
theorem performAll_keeps {motive : World → Prop} (positive : 0 < machine.limit)
    {commands : List Command} (orderly : Orderly world) (start : motive world)
    (step : ∀ {command between next}, Occurs machine world commands command between →
      Orderly between → motive between → perform command machine between = some ((), next) →
      motive next)
    (ran : performAll commands machine world = some ((), after)) : motive after := by
  induction commands generalizing world with
  | nil =>
      cases ran
      exact start
  | cons command rest induction =>
      rcases Run.exists_of_bind ran with ⟨_, between, stepped, others⟩
      have reached : motive between :=
        step (.first machine world command rest) orderly start stepped
      refine induction ((perform_leads positive orderly stepped).orderly orderly) reached ?_ others
      exact fun occurs => step (occurs.later stepped)

theorem orderly_of_performAll (positive : 0 < machine.limit) (orderly : Orderly world)
    {commands : List Command} (ran : performAll commands machine world = some ((), after)) :
    Orderly after :=
  performAll_keeps positive orderly orderly
    (fun _ before _ stepped => (perform_leads positive before stepped).orderly before) ran

end LispRuntime.Naming
