import LispRuntime.Proofs.Namespace.Commands

/-! What a registry knows under a name, and what a namespace has interned under a symbol, stays
what it is until it is given up on demand. Between the commands anything else may happen,
threads and their bindings of the current namespace included. -/

namespace LispRuntime

open Naming

variable {machine : Machine} {world after : World} {registry : Registry.Cell} {name : Symbol}
  {content : RegistryCell} {space : Space.Cell} {symbol : Symbol} {var : Ref .var}
  {commands : List Command}

/-! ## What is registered -/

namespace Registry

/-- Is the namespace removed in the course of the commands? -/
def IsRemoved (machine : Machine) (world : World) (registry : Cell) (name : Symbol)
    (space : Space.Cell) (commands : List Command) : Prop :=
  ∃ between after, Occurs machine world commands (.removeSpace registry name) between ∧
    (removeSpace registry name).run machine between = some (.ok (some space), after)

/-- Who asks for the namespace of the name gets this one. -/
structure Answers (machine : Machine) (world : World) (registry : Cell) (name : Symbol)
    (space : Space.Cell) : Prop where
  found : findSpace registry name machine world = some (some space, world)
  interned : internSpace registry name machine world = some (space, world)
  entered : ∀ {answer after},
    (enter registry name).run machine world = some (.ok answer, after) → answer = space

theorem registered_of_leads (leads : Leads Harmless world after)
    (isRegistered : world.registered registry name = some space) :
    after.registered registry name = some space := by
  refine leads.keeps (motive := fun world => world.registered registry name = some space)
    isRegistered fun between change before isAllowed harmless => ?_
  refine registered_kept isAllowed before ?_
  rintro rfl
  exact harmless

/-- What is registered stays so until it is removed. -/
theorem registered_stays (positive : 0 < machine.limit) (orderly : Orderly world)
    (isRegistered : world.registered registry name = some space)
    (notRemoved : ¬ IsRemoved machine world registry name space commands)
    (ran : performAll commands machine world = some ((), after)) :
    after.registered registry name = some space := by
  refine performAll_keeps (motive := fun world => world.registered registry name = some space)
    positive orderly isRegistered (fun {command between next} occurs before found stepped => ?_) ran
  by_cases removal : command = .removeSpace registry name
  · subst removal
    rcases World.registered_eq_some_iff.mp found with ⟨content, present, -⟩
    rcases Run.exists_of_discard stepped with ⟨outcome, removed⟩
    rcases removeSpace_cases before present removed with ⟨error, -, rfl⟩ | ⟨rfl, -⟩
    · exact found
    · rw [found] at removed
      exact absurd ⟨between, next, occurs, removed⟩ notRemoved
  · refine (perform_leads positive before stepped).keeps
      (motive := fun world => world.registered registry name = some space) found ?_
    intro middle change foundThere isAllowed makes
    refine registered_kept isAllowed foundThere ?_
    rintro rfl
    cases makes with
    | harmless never => exact never
    | strike => exact removal rfl

theorem answers_of_registered (positive : 0 < machine.limit) (orderly : Orderly world)
    (isRegistered : world.registered registry name = some space) :
    Answers machine world registry name space := by
  rcases World.registered_eq_some_iff.mp isRegistered with ⟨content, present, -⟩
  have interned : internSpace registry name machine world = some (space, world) := by
    rcases internSpace_cases positive orderly present name with ⟨found, again, ran⟩ | ⟨free, -⟩
    · cases isRegistered.symm.trans again
      exact ran
    · cases isRegistered.symm.trans free
  refine ⟨?_, interned, fun {answer after} entered => ?_⟩
  · rw [findSpace_run machine present, isRegistered]
  · rcases enter_run machine orderly present (.refl world) interned with ⟨_, _, again, -, same⟩
    cases entered.symm.trans again
    exact same answer rfl

/-- What holds of a registry wherever a run has led to. -/
structure Steady (machine : Machine) (world : World) (registry : Cell)
    (content : RegistryCell) : Prop where
  /-- Namespaces are registered under their own names. -/
  named : ∀ {name space}, findSpace registry name machine world = some (some space, world) →
    Space.name space machine world = some (name, world)
  listed : ∃ spaces, allSpaces registry machine world = some (spaces, world) ∧
    ∀ space, space ∈ spaces ↔
      ∃ name, findSpace registry name machine world = some (some space, world)
  core : ∃ name, Space.name content.core machine world = some (name, world) ∧
    findSpace registry name machine world = some (some content.core, world)
  interned : ∀ name, ∃ space after, internSpace registry name machine world = some (space, after) ∧
    Answers machine after registry name space
  entered : ∀ name, ∃ outcome after,
    (enter registry name).run machine world = some (outcome, after) ∧
      ∀ space, outcome = .ok space → Answers machine after registry name space
  /-- Whoever has got a namespace gets it again until it is removed. -/
  kept : ∀ {name space}, findSpace registry name machine world = some (some space, world) →
    ∀ {later last}, performAll later machine world = some ((), last) →
      ¬ IsRemoved machine world registry name space later →
      Answers machine last registry name space
  /-- A new namespace refers to all that is public in the core namespace just then. -/
  fresh : ∀ {name}, findSpace registry name machine world = some (none, world) →
    ∃ space after publics referred,
      internSpace registry name machine world = some (space, after) ∧
      world.spaces.get? space.index = none ∧
      Space.publics content.core machine world = some (publics, world) ∧
      Space.refers space machine after = some (referred, after) ∧
      ∀ entry ∈ publics, entry ∈ referred ∧
        Space.lookup space entry.1 machine after = some (some entry.2, after)
  /-- A removal gives up what it answers, and neither the core namespace nor the current one. -/
  removal : ∀ {name outcome after},
    (removeSpace registry name).run machine world = some (outcome, after) →
      (∀ removed, outcome = .ok removed →
        findSpace registry name machine world = some (removed, world) ∧
        findSpace registry name machine after = some (none, after)) ∧
      ∀ spared, spared = content.core ∨
          (current registry).run machine world = some (.ok spared, world) →
        outcome ≠ .ok (some spared) ∧
        ∀ other, findSpace registry other machine world = some (some spared, world) →
          findSpace registry other machine after = some (some spared, after)

theorem registered_strike (present : world.registries.get? registry.index = some content)
    (name : Symbol) :
    ((Change.strike registry name).apply world).registered registry name = none := by
  have presentAfter : ((Change.strike registry name).apply world).registries.get? registry.index =
      some { content with spaces := Space.eraseSymbol name content.spaces } :=
    Store.get?_modify_eq_some.mpr ⟨content, present, (if_pos rfl).symm⟩
  rw [World.registered, presentAfter, Option.bind_some, Space.findSymbol_eraseSymbol, if_pos rfl]

theorem removal_spares (orderly : Orderly world)
    (present : world.registries.get? registry.index = some content)
    {outcome : Except Error (Option Space.Cell)}
    (ran : (removeSpace registry name).run machine world = some (outcome, after)) :
    (∀ removed, outcome = .ok removed → world.registered registry name = removed ∧
      after.registered registry name = none) ∧
    ∀ spared, spared = content.core ∨
        (current registry).run machine world = some (.ok spared, world) →
      outcome ≠ .ok (some spared) ∧
      ∀ other, world.registered registry other = some spared →
        after.registered registry other = some spared := by
  rcases removeSpace_cases orderly present ran with
    ⟨error, rfl, rfl⟩ | ⟨rfl, rfl, isAllowed, space, spaceContent, asked, spacePresent, different⟩
  · exact ⟨nofun, fun spared _ => ⟨nofun, fun _ => id⟩⟩
  refine ⟨fun removed same => ⟨Except.ok.inj same, registered_strike present name⟩, ?_⟩
  intro spared isSpared
  -- What is spared has another name, and is registered under that alone.
  have otherName : ∃ sparedContent, world.spaces.get? spared.index = some sparedContent ∧
      sparedContent.name ≠ name := by
    rcases isSpared with rfl | isCurrent
    · rcases (orderly.registry present).core with ⟨core, corePresent, -⟩
      exact ⟨core, corePresent, isAllowed content core present corePresent⟩
    · cases asked.symm.trans isCurrent
      exact ⟨spaceContent, spacePresent, different⟩
  rcases otherName with ⟨sparedContent, sparedPresent, different⟩
  have registeredApart : ∀ other, world.registered registry other = some spared → other ≠ name := by
    rintro other isRegistered rfl
    rcases named_of_registered orderly isRegistered with ⟨again, againPresent, rfl⟩
    cases sparedPresent.symm.trans againPresent
    exact different rfl
  refine ⟨fun same => registeredApart name (Except.ok.inj same) rfl, fun other isRegistered => ?_⟩
  refine registered_kept isAllowed isRegistered ?_
  rintro ⟨⟩
  exact registeredApart name isRegistered rfl

theorem fresh_refers (positive : 0 < machine.limit) (orderly : Orderly world)
    (present : world.registries.get? registry.index = some content)
    (free : world.registered registry name = none) :
    ∃ space after publics referred,
      internSpace registry name machine world = some (space, after) ∧
      world.spaces.get? space.index = none ∧
      Space.publics content.core machine world = some (publics, world) ∧
      Space.refers space machine after = some (referred, after) ∧
      ∀ entry ∈ publics, entry ∈ referred ∧
        Space.lookup space entry.1 machine after = some (some entry.2, after) := by
  rcases internSpace_cases positive orderly present name with
    ⟨found, again, -⟩ | ⟨-, core, corePresent, ran, leads⟩
  · cases free.symm.trans again
  have isRegistered := registered_founding present name
    (Space.listing machine world content.core core) registry name
  rw [if_pos ⟨rfl, rfl⟩] at isRegistered
  have mapped := founding_maps machine orderly corePresent registry name
  have orderlyAfter := leads.orderly orderly
  rcases named_of_registered orderlyAfter isRegistered with ⟨spaceContent, spacePresent, -⟩
  have isNew : world.spaces.get? world.spaces.next = none := by
    cases found : world.spaces.get? world.spaces.next with
    | none => rfl
    | some content => exact absurd (Store.lt_next_of_get? found) (Nat.lt_irrefl _)
  refine ⟨_, _, _, _, ran, isNew, Space.publics_run positive orderly corePresent,
    Space.refers_run machine orderlyAfter spacePresent, fun entry member => ⟨?_, ?_⟩⟩
  · have isOwn := leads.onward.isOwn (Space.mem_listing member).2
    have notOwn : (founding world registry name (Space.listing machine world content.core
        core)).isOwn ⟨world.spaces.next⟩ entry.2 = false := by
      refine Bool.eq_false_iff.mpr fun isOwnToo => ?_
      rw [Space.eq_of_isOwn isOwn isOwnToo] at corePresent
      cases isNew.symm.trans corePresent
    rcases World.mapped_eq_some_iff.mp (mapped entry member) with ⟨again, againPresent, found⟩
    cases spacePresent.symm.trans againPresent
    exact List.mem_filter.mpr ⟨Space.mem_of_findSymbol found, by rw [notOwn]; rfl⟩
  · rw [Space.lookup_run machine spacePresent, mapped entry member]

/-- The namespaces of a registry are those that it finds under some name. -/
theorem allSpaces_lists (machine : Machine) (orderly : Orderly world)
    (present : world.registries.get? registry.index = some content) :
    ∃ spaces, allSpaces registry machine world = some (spaces, world) ∧
      ∀ space, space ∈ spaces ↔
        ∃ name, findSpace registry name machine world = some (some space, world) := by
  refine ⟨content.spaces.map Prod.snd, Run.run_bind (registryAt_run machine present), ?_⟩
  intro space
  constructor
  · intro member
    rcases List.mem_map.mp member with ⟨⟨name, stored⟩, inside, rfl⟩
    refine ⟨name, (findSpace_run machine present name).trans ?_⟩
    rw [World.registered, present, Option.bind_some,
      (orderly.registry present).distinct.findSymbol_of_mem inside]
  · rintro ⟨name, found⟩
    have isRegistered := registered_of_findSpace present found
    rw [World.registered, present] at isRegistered
    exact List.mem_map.mpr ⟨_, Space.mem_of_findSymbol isRegistered, rfl⟩

/-- A registry is still there when something has been removed from it, or nothing has. -/
theorem present_of_removeSpace (orderly : Orderly world)
    (present : world.registries.get? registry.index = some content)
    {outcome : Except Error (Option Space.Cell)}
    (ran : (removeSpace registry name).run machine world = some (outcome, after)) :
    ∃ later, after.registries.get? registry.index = some later := by
  rcases removeSpace_cases orderly present ran with ⟨_, -, rfl⟩ | ⟨-, rfl, isAllowed, -⟩
  · exact ⟨content, present⟩
  · rcases (Change.onward isAllowed).registry present with ⟨later, presentLater, -⟩
    exact ⟨later, presentLater⟩

/-- In an orderly world every registry is steady. -/
theorem steady_of_orderly (positive : 0 < machine.limit) (orderly : Orderly world)
    (present : world.registries.get? registry.index = some content) :
    Steady machine world registry content where
  named {name space} found := by
    have isRegistered := registered_of_findSpace present found
    rcases named_of_registered orderly isRegistered with ⟨_, spacePresent, rfl⟩
    exact Space.name_run machine spacePresent
  listed := allSpaces_lists machine orderly present
  core := by
    rcases (orderly.registry present).core with ⟨core, corePresent, isRegistered⟩
    refine ⟨core.name, Space.name_run machine corePresent, ?_⟩
    rw [findSpace_run machine present, World.registered, present, Option.bind_some, isRegistered]
  interned name := by
    rcases internSpace_leads positive orderly present name with
      ⟨space, after, ran, leads, isRegistered⟩
    exact ⟨space, after, ran,
      answers_of_registered positive (leads.orderly orderly) isRegistered⟩
  entered name := by
    rcases internSpace_leads positive orderly present name with
      ⟨space, between, ran, leads, isRegistered⟩
    rcases enter_run machine orderly present leads ran with
      ⟨outcome, after, entered, onward, same⟩
    refine ⟨outcome, after, entered, fun answer isOk => ?_⟩
    rw [same answer isOk]
    exact answers_of_registered positive (onward.orderly (leads.orderly orderly))
      (registered_of_leads onward isRegistered)
  kept {name space} found later last ran notRemoved := by
    have isRegistered := registered_of_findSpace present found
    exact answers_of_registered positive (orderly_of_performAll positive orderly ran)
      (registered_stays positive orderly isRegistered notRemoved ran)
  fresh found := fresh_refers positive orderly present (registered_of_findSpace present found)
  removal {name outcome after} ran := by
    rcases present_of_removeSpace orderly present ran with ⟨later, presentAfter⟩
    rcases removal_spares orderly present ran with ⟨removes, spares⟩
    constructor
    · intro removed isOk
      rcases removes removed isOk with ⟨before, nothing⟩
      rw [findSpace_run machine present, findSpace_run machine presentAfter, before, nothing]
      exact ⟨rfl, rfl⟩
    · intro spared isSpared
      rcases spares spared isSpared with ⟨notRemoved, kept⟩
      refine ⟨notRemoved, fun other found => ?_⟩
      rw [findSpace_run machine presentAfter,
        kept other (registered_of_findSpace present found)]

end Registry

/-! ## What is interned -/

namespace Space

/-- The symbol stands for this var, which is at home here. -/
structure Holds (machine : Machine) (world : World) (space : Cell) (symbol : Symbol)
    (var : Ref .var) : Prop where
  looked : lookup space symbol machine world = some (some var, world)
  found : findVar space symbol machine world = some (some var, world)
  interned : (intern space symbol).run machine world = some (.ok var, world)

/-- What is interned stays so until it is unmapped. -/
theorem ownVar_stays (positive : 0 < machine.limit) (orderly : Orderly world)
    (isOwn : world.ownVar space symbol = some var) (notUnmapped : .unmap space symbol ∉ commands)
    (ran : performAll commands machine world = some ((), after)) :
    after.ownVar space symbol = some var := by
  refine performAll_keeps (motive := fun world => world.ownVar space symbol = some var)
    positive orderly isOwn (fun {command between next} occurs before found stepped => ?_) ran
  refine (perform_leads positive before stepped).keeps
    (motive := fun world => world.ownVar space symbol = some var) found ?_
  intro middle change foundThere isAllowed makes
  refine ownVar_kept isAllowed foundThere ?_
  rintro rfl
  cases makes with
  | harmless never => exact never
  | unmap => exact notUnmapped occurs.mem

theorem holds_of_ownVar (machine : Machine) (orderly : Orderly world)
    (isOwn : world.ownVar space symbol = some var)
    (unqualified : symbol.isQualified = false) : Holds machine world space symbol var := by
  have mapped := (World.ownVar_eq_some_iff.mp isOwn).1
  rcases World.mapped_eq_some_iff.mp mapped with ⟨content, present, -⟩
  refine ⟨?_, ?_, ?_⟩
  · rw [lookup_run machine present, mapped]
  · rw [findVar_run machine orderly present, isOwn]
  · rcases intern_cases machine orderly present symbol with
      ⟨qualified, -⟩ | ⟨-, own, found, ran⟩ | ⟨-, free, -⟩
    · cases unqualified.symm.trans qualified
    · cases isOwn.symm.trans found
      exact ran
    · cases isOwn.symm.trans free

end Space

namespace Naming

/-- In every world that commands lead to, registries are steady, and what has been interned is
what the symbol stands for until it is unmapped, whatever else is referred to. -/
theorem performAll_steady (positive : 0 < machine.limit)
    (ran : performAll commands machine World.initial = some ((), world)) :
    (∀ (registry : Registry.Cell) content,
      world.registries.get? registry.index = some content →
      Registry.Steady machine world registry content) ∧
    ∀ (space : Space.Cell) symbol var between,
      (Space.intern space symbol).run machine world = some (.ok var, between) →
      ∀ later last, performAll later machine between = some ((), last) →
        .unmap space symbol ∉ later → Space.Holds machine last space symbol var := by
  have orderly := orderly_of_performAll positive .initial ran
  refine ⟨fun registry content => Registry.steady_of_orderly positive orderly, ?_⟩
  intro space symbol var between interned later last ranLater notUnmapped
  rcases Space.intern_ran orderly interned with
    ⟨-, ⟨_, refused⟩, -⟩ | ⟨unqualified, _, isOk, leads, isOwn⟩
  · cases refused
  cases isOk
  have orderlyBetween := leads.orderly orderly
  exact Space.holds_of_ownVar machine (orderly_of_performAll positive orderlyBetween ranLater)
    (Space.ownVar_stays positive orderlyBetween isOwn notUnmapped ranLater) unqualified

/-- A namespace besides those that a registry begins with. -/
def openingCommands : List Command :=
  [.createRegistry Registry.defaultConfiguration, .internSpace ⟨0⟩ (.unqualifiedName "app")]

/-- Vars of the core namespace are referred, one of them under a symbol that is taken, and
another namespace is removed. -/
def contendingCommands : List Command :=
  [.referAll ⟨2⟩ ⟨0⟩, .refer ⟨2⟩ (.unqualifiedName "x") ⟨0⟩, .enter ⟨0⟩ (.unqualifiedName "app"),
    .removeSpace ⟨0⟩ (.unqualifiedName "user")]

/-- What is contended for stays where it is. -/
theorem contended_stays : ∃ world var between last,
    performAll openingCommands quiet World.initial = some ((), world) ∧
    (Space.intern ⟨2⟩ (.unqualifiedName "x")).run quiet world = some (.ok var, between) ∧
    performAll contendingCommands quiet between = some ((), last) ∧
    Space.Holds quiet last ⟨2⟩ (.unqualifiedName "x") var ∧
    Registry.Answers quiet last ⟨0⟩ (.unqualifiedName "app") ⟨2⟩ := by
  have ends : ((performAll openingCommands quiet World.initial).bind
      fun start => do
        let interned ← (Space.intern ⟨2⟩ (.unqualifiedName "x")).run quiet start.2
        let _ ← performAll contendingCommands quiet interned.2
        return (interned.1.toOption, start.2.registered ⟨0⟩ (.unqualifiedName "app"))) =
      some (some ⟨2⟩, some ⟨2⟩) := by decide +kernel
  rcases Option.bind_eq_some_iff.mp ends with ⟨⟨_, world⟩, ran, rest⟩
  rcases Option.bind_eq_some_iff.mp rest with ⟨⟨outcome, between⟩, interned, rest⟩
  rcases Option.bind_eq_some_iff.mp rest with ⟨⟨_, last⟩, contended, seen⟩
  simp only [pure, Option.some.injEq, Prod.mk.injEq] at seen
  rcases seen with ⟨isOk, isRegistered⟩
  cases outcome with
  | error error => cases isOk
  | ok var =>
      rcases World.registered_eq_some_iff.mp isRegistered with ⟨content, present, -⟩
      rcases performAll_steady Nat.one_pos ran with ⟨steady, holds⟩
      refine ⟨world, var, between, last, ran, interned, contended, ?_, ?_⟩
      · exact holds ⟨2⟩ _ var between interned _ last contended (by simp [contendingCommands])
      · have found := Registry.findSpace_run quiet present (.unqualifiedName "app")
        rw [isRegistered] at found
        have stepped : perform (.intern ⟨2⟩ (.unqualifiedName "x")) quiet world =
            some ((), between) :=
          (Run.run_discard ..).trans (congrArg (Option.map _) interned)
        have goesOn : performAll (.intern ⟨2⟩ (.unqualifiedName "x") :: contendingCommands) quiet
            world = some ((), last) := (Run.run_bind stepped).trans contended
        refine (steady ⟨0⟩ content present).kept found goesOn ?_
        rintro ⟨_, _, occurs, -⟩
        simpa [contendingCommands, Symbol.unqualifiedName] using occurs.mem

end Naming

end LispRuntime
