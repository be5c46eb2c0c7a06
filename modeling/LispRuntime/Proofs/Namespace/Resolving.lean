import LispRuntime.Proofs.Namespace.Commands

/-! Where the var that a symbol stands for is looked for. Without a qualifier it is what the
current namespace maps the symbol to. A qualifier leads to the namespace that is registered under
it, and to the one that the current namespace means by it. The second is not looked into once
there is a first, so that it can have a var that is not found. -/

namespace LispRuntime

open Naming

variable {machine : Machine} {world after : World} {space : Space.Cell} {content : SpaceCell}
  {registry : Registry.Cell} {symbol : Symbol}

/-! ## Aliases -/

/-- Aliases lead to namespaces that are there. -/
def World.AliasesThere (world : World) : Prop :=
  ∀ (space : Space.Cell) content, world.spaces.get? space.index = some content →
    ∀ entry ∈ content.aliases, entry.2.index < world.spaces.next

namespace Naming

theorem Onward.spaceThere (onward : Onward world after) {index : Nat}
    (there : index < world.spaces.next) : index < after.spaces.next := by
  rcases Store.exists_of_lt_next there with ⟨content, found⟩
  rcases onward.space found with ⟨later, foundLater, -⟩
  exact Store.lt_next_of_get? foundLater

theorem aliasesThere_initial : World.initial.AliasesThere := by
  intro space content found
  cases Store.lt_next_of_get? found

/-- It suffices to look at the aliases that are new. -/
theorem aliasesThere_onward (onward : Onward world after) (before : world.AliasesThere)
    (entries : ∀ {space : Space.Cell} {content},
      after.spaces.get? space.index = some content → ∀ entry ∈ content.aliases,
      (∃ old, world.spaces.get? space.index = some old ∧ entry ∈ old.aliases) ∨
        entry.2.index < world.spaces.next) : after.AliasesThere := by
  intro space content found entry member
  refine onward.spaceThere ?_
  rcases entries found entry member with ⟨old, foundOld, inside⟩ | there
  · exact before space old foundOld entry inside
  · exact there

/-- What has an alias after a change in one namespace. -/
theorem aliasesThere_inSpace (before : world.AliasesThere) (space : Space.Cell)
    {change : SpaceCell → SpaceCell} (name : ∀ content, (change content).name = content.name)
    (entries : ∀ content, world.spaces.get? space.index = some content →
      ∀ entry ∈ (change content).aliases,
        entry ∈ content.aliases ∨ entry.2.index < world.spaces.next) :
    (Change.inSpace world space change).AliasesThere := by
  refine aliasesThere_onward (.inSpace world space name) before fun found entry member => ?_
  rcases Store.get?_modify_eq_some.mp found with ⟨old, foundOld, rfl⟩
  split at member
  case isFalse => exact .inl ⟨old, foundOld, member⟩
  case isTrue here =>
    rw [here] at foundOld
    refine (entries old foundOld entry member).imp_left fun inside => ⟨old, ?_, inside⟩
    rw [here, foundOld]

/-- An alias is only made for a namespace that is there. -/
theorem aliasesThere_apply {command : Command} {change : Change} (isAllowed : change.Allowed world)
    (makes : command.Makes world change) (before : world.AliasesThere) :
    (change.apply world).AliasesThere := by
  have onward := Change.onward isAllowed
  cases change with
  | addSpace name =>
      refine aliasesThere_onward onward before fun found entry member => ?_
      rcases Store.get?_push_eq_some.mp found with ⟨-, rfl⟩ | old
      · cases member
      · exact .inl ⟨_, old, member⟩
  | addVar home homeName symbol =>
      refine aliasesThere_onward onward before fun found entry member => ?_
      rcases Store.get?_modify_eq_some.mp found with ⟨old, foundOld, rfl⟩
      split at member <;> exact .inl ⟨old, foundOld, member⟩
  | refer space | unmap space =>
      exact aliasesThere_inSpace before space (fun _ => rfl) fun _ _ _ => .inl
  | realias space change =>
      refine aliasesThere_inSpace before space (fun _ => rfl) fun content _ entry member => ?_
      cases makes with
      | harmless never => exact never.elim
      | addAlias _ _ there =>
          rcases Space.mem_of_mem_insertSymbol member with rfl | inside
          · exact .inr there
          · exact .inl inside
      | removeAlias => exact .inl (Space.mem_of_mem_eraseSymbol member)
  | adjust | addRegistry | enroll | strike | elsewhere =>
      exact aliasesThere_onward onward before fun found entry member => .inl ⟨_, found, member⟩

theorem aliasesThere_of_performAll (positive : 0 < machine.limit) {commands : List Command}
    (ran : performAll commands machine World.initial = some ((), world)) : world.AliasesThere :=
  performAll_keeps positive .initial aliasesThere_initial
    (fun _ orderly before stepped => (perform_leads positive orderly stepped).keeps before
      fun _ _ before isAllowed makes => aliasesThere_apply isAllowed makes before) ran

end Naming

/-! ## What a symbol stands for -/

namespace World

/-- The namespace that another one means by a qualifier: itself by its own name, and otherwise
the one that has the qualifier for an alias. -/
def meant (world : World) (space : Space.Cell) (qualifier : Symbol) : Option Space.Cell :=
  (world.spaces.get? space.index).bind fun content =>
    if qualifier = content.name then some space else Space.findSymbol qualifier content.aliases

/-- The var that the namespace itself finds for a symbol. -/
def resolvedWithin (world : World) (space : Space.Cell) (symbol : Symbol) : Option (Ref .var) :=
  match symbol.qualifierSymbol with
  | none => world.mapped space symbol
  | some qualifier =>
      (world.meant space qualifier).bind fun named => world.ownVar named symbol.unqualified

/-- The namespace that is registered under the qualifier of a symbol. -/
def registeredFor (world : World) (registry : Registry.Cell) (symbol : Symbol) :
    Option Space.Cell :=
  symbol.qualifierSymbol.bind (world.registered registry)

/-- The var that is found if all places are gone through in order: the registered namespace, and
then what the current namespace means by the symbol. -/
def resolvedInOrder (world : World) (registry : Registry.Cell) (current : Space.Cell)
    (symbol : Symbol) : Option (Ref .var) :=
  ((world.registeredFor registry symbol).bind fun space =>
    world.ownVar space symbol.unqualified).or (world.resolvedWithin current symbol)

/-- The registered namespace has no such var, and hides one that the current namespace means. -/
def Hides (world : World) (registry : Registry.Cell) (current : Space.Cell)
    (symbol : Symbol) : Prop :=
  ∃ space var, world.registeredFor registry symbol = some space ∧
    world.ownVar space symbol.unqualified = none ∧
    world.resolvedWithin current symbol = some var

end World

theorem Space.resolve_run (machine : Machine) (orderly : Orderly world)
    (aliasesThere : world.AliasesThere) (present : world.spaces.get? space.index = some content)
    (symbol : Symbol) :
    Space.resolve space symbol machine world = some (world.resolvedWithin space symbol, world) := by
  unfold Space.resolve World.resolvedWithin
  cases symbol.qualifierSymbol with
  | none => exact lookup_run machine present symbol
  | some qualifier =>
      have meant : world.meant space qualifier =
          if qualifier = content.name then some space
          else findSymbol qualifier content.aliases := by
        rw [World.meant, present, Option.bind_some]
      dsimp only
      rw [Run.run_bind (name_run machine present), meant]
      by_cases ownName : qualifier = content.name
      · rw [if_pos ownName, if_pos ownName]
        exact findVar_run machine orderly present symbol.unqualified
      · rw [if_neg ownName, if_neg ownName,
          Run.run_bind (findAlias_run machine present qualifier)]
        cases found : findSymbol qualifier content.aliases with
        | none => rfl
        | some target =>
            have there := aliasesThere space content present _ (mem_of_findSymbol found)
            rcases Store.exists_of_lt_next there with ⟨targetContent, targetPresent⟩
            exact findVar_run machine orderly targetPresent symbol.unqualified

namespace Registry

variable {registryContent : RegistryCell} {current : Space.Cell}

/-- What is answered for a var that was looked for. -/
def orUndefined (symbol : Symbol) (found : Option (Ref .var)) : Except Error (Ref .var) :=
  found.elim (.error (.undefinedSymbol symbol)) .ok

/-- What follows once the var has been looked for. -/
private theorem answer_run {look : Run (Option (Ref .var))} {found : Option (Ref .var)}
    (looked : look machine world = some (found, world)) (symbol : Symbol) :
    ((liftM look : Attempt _) >>= fun found => match found with
      | some var => pure var
      | none => throw (.undefinedSymbol symbol) : Attempt (Ref .var)).run machine world =
        some (orUndefined symbol found, world) := by
  rw [Attempt.run_first looked]
  cases found <;> rfl

/-- The current namespace is asked only if the qualifier is not registered. -/
theorem resolve_run (machine : Machine) (orderly : Orderly world)
    (aliasesThere : world.AliasesThere)
    (registryPresent : world.registries.get? registry.index = some registryContent)
    (isCurrent : (Registry.current registry).run machine world = some (.ok current, world))
    (present : world.spaces.get? current.index = some content) (symbol : Symbol) :
    (resolve registry symbol).run machine world =
      some (orUndefined symbol (match world.registeredFor registry symbol with
        | some space => world.ownVar space symbol.unqualified
        | none => world.resolvedWithin current symbol), world) := by
  have asked := Space.resolve_run machine orderly aliasesThere present symbol
  rw [resolve, Attempt.run_bind_ok isCurrent, World.registeredFor]
  cases symbol.qualifierSymbol with
  | none => exact answer_run asked symbol
  | some name =>
      refine (Attempt.run_first (findSpace_run machine registryPresent name)).trans ?_
      rw [Option.bind_some]
      cases isRegistered : world.registered registry name with
      | none => exact answer_run asked symbol
      | some space =>
          rcases named_of_registered orderly isRegistered with ⟨_, spacePresent, -⟩
          have found := Space.findVar_run machine orderly spacePresent symbol.unqualified
          exact answer_run found symbol

theorem orUndefined_injective (symbol : Symbol) : Function.Injective (orUndefined symbol) := by
  rintro (_ | left) (_ | right) same <;> cases same <;> rfl

/-- In every world that commands lead to, a symbol stands for the first var that is found in
order, unless one is hidden; then none is found. -/
theorem resolve_inOrder_iff (positive : 0 < machine.limit) {commands : List Command}
    (ran : performAll commands machine World.initial = some ((), world))
    (registryPresent : world.registries.get? registry.index = some registryContent)
    (symbol : Symbol) :
    (∀ error, (Registry.current registry).run machine world = some (.error error, world) →
      (resolve registry symbol).run machine world = some (.error error, world)) ∧
    ∀ current content, (Registry.current registry).run machine world = some (.ok current, world) →
      world.spaces.get? current.index = some content →
      ((resolve registry symbol).run machine world =
          some (orUndefined symbol (world.resolvedInOrder registry current symbol), world) ↔
        ¬ world.Hides registry current symbol) ∧
      (world.Hides registry current symbol →
        (resolve registry symbol).run machine world =
          some (.error (.undefinedSymbol symbol), world)) := by
  have orderly := orderly_of_performAll positive .initial ran
  have aliasesThere := aliasesThere_of_performAll positive ran
  refine ⟨fun error failed => Attempt.run_bind_error failed, ?_⟩
  intro current content isCurrent present
  have answered := resolve_run machine orderly aliasesThere registryPresent isCurrent present symbol
  cases registered : world.registeredFor registry symbol with
  | none =>
      -- There is only the current namespace to look into.
      rw [registered] at answered
      have nothingHidden : ¬ world.Hides registry current symbol := by
        rintro ⟨space, _, again, -⟩
        cases registered.symm.trans again
      refine ⟨iff_of_true ?_ nothingHidden, fun hides => absurd hides nothingHidden⟩
      rw [answered, World.resolvedInOrder, registered]
      rfl
  | some space =>
      -- The answer is what this namespace has, and the current one is never asked.
      rw [registered] at answered
      dsimp only at answered
      have hides_iff : world.Hides registry current symbol ↔
          world.ownVar space symbol.unqualified = none ∧
            ∃ var, world.resolvedWithin current symbol = some var := by
        simp [World.Hides, registered]
      have inOrder : world.resolvedInOrder registry current symbol =
          (world.ownVar space symbol.unqualified).or (world.resolvedWithin current symbol) := by
        rw [World.resolvedInOrder, registered, Option.bind_some]
      constructor
      · rw [answered, inOrder, hides_iff, Option.some.injEq, Prod.mk.injEq,
          and_iff_left rfl, (orUndefined_injective symbol).eq_iff]
        cases world.ownVar space symbol.unqualified <;>
          cases world.resolvedWithin current symbol <;> simp
      · intro hides
        rw [answered, (hides_iff.mp hides).1]
        rfl

/-- The current namespace has the name of another one for an alias. -/
def hidingCommands : List Command :=
  [.createRegistry defaultConfiguration, .internSpace ⟨0⟩ (.unqualifiedName "q"),
    .internSpace ⟨0⟩ (.unqualifiedName "other"), .intern ⟨3⟩ (.unqualifiedName "n"),
    .addAlias ⟨1⟩ (.unqualifiedName "q") ⟨3⟩]

/-- The current namespace itself resolves the symbol, and the registry does not. -/
theorem aliased_var_hidden : ∃ world, performAll hidingCommands quiet World.initial =
      some ((), world) ∧
    (Registry.current ⟨0⟩).run quiet world = some (.ok ⟨1⟩, world) ∧
    world.resolvedInOrder ⟨0⟩ ⟨1⟩ (.qualifiedName "q" "n") = some ⟨2⟩ ∧
    Space.resolve ⟨1⟩ (.qualifiedName "q" "n") quiet world = some (some ⟨2⟩, world) ∧
    (resolve ⟨0⟩ (.qualifiedName "q" "n")).run quiet world =
      some (.error (.undefinedSymbol (.qualifiedName "q" "n")), world) := by
  have ends : ((performAll hidingCommands quiet World.initial).bind fun reached => do
      let _ ← reached.2.registries.get? 0
      let _ ← reached.2.spaces.get? 1
      let answered ← (Registry.current ⟨0⟩).run quiet reached.2
      return (answered.1.toOption, reached.2.registeredFor ⟨0⟩ (.qualifiedName "q" "n"),
        reached.2.ownVar ⟨2⟩ (.unqualifiedName "n"),
        reached.2.resolvedWithin ⟨1⟩ (.qualifiedName "q" "n"))) =
      some (some ⟨1⟩, some ⟨2⟩, none, some ⟨2⟩) := by decide +kernel
  rcases Option.bind_eq_some_iff.mp ends with ⟨⟨_, world⟩, ran, rest⟩
  rcases Option.bind_eq_some_iff.mp rest with ⟨registryContent, registryPresent, rest⟩
  rcases Option.bind_eq_some_iff.mp rest with ⟨content, present, rest⟩
  rcases Option.bind_eq_some_iff.mp rest with ⟨⟨outcome, later⟩, asked, seen⟩
  simp only [pure, Option.some.injEq, Prod.mk.injEq] at seen
  rcases seen with ⟨isOk, registered, absent, within⟩
  have orderly := orderly_of_performAll Nat.one_pos .initial ran
  have existing : world.registries.get? (⟨0⟩ : Ref .registry).index = some registryContent :=
    registryPresent
  rcases current_run quiet orderly existing with ⟨answer, again⟩
  cases asked.symm.trans again
  cases outcome with
  | error error => cases isOk
  | ok space =>
      cases isOk
      have hides : world.Hides ⟨0⟩ ⟨1⟩ (.qualifiedName "q" "n") :=
        ⟨⟨2⟩, ⟨2⟩, registered, absent, within⟩
      have aliasesThere := aliasesThere_of_performAll Nat.one_pos ran
      refine ⟨world, ran, asked, ?_, ?_, ?_⟩
      · rw [World.resolvedInOrder, registered, Option.bind_some, within]
        exact congrArg (Option.or · _) absent
      · rw [Space.resolve_run quiet orderly aliasesThere present, within]
      · exact ((resolve_inOrder_iff Nat.one_pos ran existing _).2 ⟨1⟩ content asked present).2
          hides

end Registry

end LispRuntime
