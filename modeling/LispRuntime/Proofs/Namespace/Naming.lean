import LispRuntime.Proofs.Namespace.Commands

/-! Whether the vars of a namespace have the names they are found under, and whether they are
found again by their full names. Interning names a new var rightly. It is `refer` alone that can
map another symbol to a var that is at home in the namespace itself. -/

namespace LispRuntime

open Naming

variable {machine : Machine} {world after : World} {space : Space.Cell} {symbol : Symbol}
  {var : Ref .var} {content : SpaceCell}

/-! ## Right names -/

namespace World

/-- If the var is at home in the namespace, the symbol is its name. -/
def RightName (world : World) (space : Space.Cell) (entry : Space.Mapping) : Prop :=
  ∀ var, world.vars.get? entry.2.index = some var → var.home = space → var.name = entry.1

def RightNames (world : World) : Prop :=
  ∀ (space : Space.Cell) content, world.spaces.get? space.index = some content →
    ∀ entry ∈ content.mappings, world.RightName space entry

end World

namespace Naming

theorem rightNames_initial : World.initial.RightNames := by
  intro space content found
  cases Store.lt_next_of_get? found

/-- It suffices to look at what is mapped anew. -/
theorem rightNames_onward (orderly : Orderly world) (onward : Onward world after)
    (before : world.RightNames)
    (entries : ∀ {space : Space.Cell} {content},
      after.spaces.get? space.index = some content → ∀ entry ∈ content.mappings,
      (∃ old, world.spaces.get? space.index = some old ∧ entry ∈ old.mappings) ∨
        after.RightName space entry) :
    after.RightNames := by
  intro space content found entry member
  rcases entries found entry member with ⟨old, foundOld, inside⟩ | rightly
  · intro var varFound isHome
    rcases Store.exists_of_lt_next ((orderly.space foundOld).mapped entry inside) with
      ⟨oldVar, oldFound⟩
    rcases onward.var oldFound with ⟨later, foundLater, home, -, name⟩
    cases varFound.symm.trans foundLater
    exact name.trans (before space old foundOld entry inside oldVar oldFound (home ▸ isHome))
  · exact rightly

/-- What is mapped after a change in one namespace. -/
theorem rightNames_inSpace (orderly : Orderly world) (before : world.RightNames)
    (space : Space.Cell) {change : SpaceCell → SpaceCell}
    (name : ∀ content, (change content).name = content.name)
    (entries : ∀ content, world.spaces.get? space.index = some content →
      ∀ entry ∈ (change content).mappings, entry ∈ content.mappings ∨
        world.RightName space entry) :
    (Change.inSpace world space change).RightNames := by
  refine rightNames_onward orderly (.inSpace world space name) before ?_
  intro other content found entry member
  rcases Store.get?_modify_eq_some.mp found with ⟨old, foundOld, rfl⟩
  split at member
  case isFalse => exact .inl ⟨old, foundOld, member⟩
  case isTrue here =>
    cases Ref.index_inj.mp here
    exact (entries old foundOld entry member).imp (fun inside => ⟨old, foundOld, inside⟩) id

theorem rightNames_apply (orderly : Orderly world) (before : world.RightNames) {change : Change}
    (isAllowed : change.Allowed world)
    (refers : ∀ {space symbol var}, change = .refer space symbol var →
      world.RightName space (symbol, var)) :
    (change.apply world).RightNames := by
  have onward := Change.onward isAllowed
  cases change with
  | addSpace name =>
      refine rightNames_onward orderly onward before fun found entry member => ?_
      rcases Store.get?_push_eq_some.mp found with ⟨-, rfl⟩ | old
      · cases member
      · exact .inl ⟨_, old, member⟩
  | addVar home homeName symbol =>
      refine rightNames_onward orderly onward before fun found entry member => ?_
      rcases Store.get?_modify_eq_some.mp found with ⟨old, foundOld, rfl⟩
      split at member
      case isFalse => exact .inl ⟨old, foundOld, member⟩
      case isTrue =>
        rcases Space.mem_of_mem_insertSymbol member with rfl | inside
        · refine .inr fun var varFound _ => ?_
          cases varFound.symm.trans (Store.get?_push_next ..)
          rfl
        · exact .inl ⟨old, foundOld, inside⟩
  | refer space symbol var =>
      refine rightNames_inSpace orderly before space (fun _ => rfl) fun _ _ entry member => ?_
      rcases Space.mem_of_mem_insertSymbol member with rfl | inside
      · exact .inr (refers rfl)
      · exact .inl inside
  | unmap space symbol =>
      refine rightNames_inSpace orderly before space (fun _ => rfl) fun _ _ entry member => ?_
      exact .inl (Space.mem_of_mem_eraseSymbol member)
  | realias space change =>
      exact rightNames_inSpace orderly before space (fun _ => rfl) fun _ _ _ => .inl
  | adjust | addRegistry | enroll | strike | elsewhere =>
      exact rightNames_onward orderly onward before fun found entry member =>
        .inl ⟨_, found, member⟩

/-- A reference to a var of the namespace itself, under a symbol that is not its name, that is
not turned down. -/
def Renames (machine : Machine) (world : World) (space : Space.Cell) (symbol : Symbol)
    (var : Ref .var) : Prop :=
  ∃ content after, Run.varAt var machine world = some (content, world) ∧
    content.home = space ∧ content.name ≠ symbol ∧
    (Space.refer space symbol var).run machine world = some (.ok (), after)

/-- Every command names rightly but a reference that renames. -/
theorem rightNames_perform (positive : 0 < machine.limit) (orderly : Orderly world)
    (before : world.RightNames) {command : Command}
    (notRenamed : ∀ {space symbol var}, command = .refer space symbol var →
      ¬ Renames machine world space symbol var)
    (ran : perform command machine world = some ((), after)) : after.RightNames := by
  by_cases reference : ∃ space symbol var, command = .refer space symbol var
  · rcases reference with ⟨space, symbol, var, rfl⟩
    rcases refer_performed orderly ran with ⟨_, -, rfl⟩ | ⟨referred, rfl, isAllowed, -⟩
    · exact before
    · refine rightNames_apply orderly before isAllowed ?_
      rintro _ _ _ ⟨⟩ varContent found isHome
      by_contra different
      exact notRenamed rfl
        ⟨varContent, _, varAt_run machine found, isHome, different, referred⟩
  · have keeps := (perform_leads positive orderly ran).keeps
      (motive := fun world => Orderly world ∧ world.RightNames) ⟨orderly, before⟩
    refine (keeps fun between change ⟨orderlyBetween, rightly⟩ isAllowed makes => ?_).2
    refine ⟨orderlyBetween.apply isAllowed, rightNames_apply orderlyBetween rightly isAllowed ?_⟩
    rintro space symbol var rfl varContent found isHome
    cases makes with
    | harmless own =>
        have mapped := own (World.isOwn_iff.mpr ⟨varContent, found, isHome⟩)
        rcases World.mapped_eq_some_iff.mp mapped with ⟨content, present, foundThere⟩
        exact rightly space content present _ (Space.mem_of_findSymbol foundThere) varContent
          found isHome
    | refer => exact absurd ⟨_, _, _, rfl⟩ reference

/-- In every namespace all that is interned is named by the symbol it is found under. -/
def WellNamed (machine : Machine) (world : World) : Prop :=
  ∀ space name, Space.name space machine world = some (name, world) →
    ∃ interned, Space.interns space machine world = some (interned, world) ∧
      ∀ entry ∈ interned, ∃ var, Run.varAt entry.2 machine world = some (var, world) ∧
        var.name = entry.1

theorem wellNamed_iff (machine : Machine) (orderly : Orderly world) :
    WellNamed machine world ↔ world.RightNames := by
  constructor
  · intro wellNamed space content present entry member var found isHome
    rcases wellNamed space content.name (Space.name_run machine present) with
      ⟨_, ran, named⟩
    cases ran.symm.trans (Space.interns_run machine orderly present)
    have isOwn : world.isOwn space entry.2 = true := World.isOwn_iff.mpr ⟨var, found, isHome⟩
    rcases named entry (List.mem_filter.mpr ⟨member, isOwn⟩) with ⟨again, looked, name⟩
    cases looked.symm.trans (varAt_run machine found)
    exact name
  · intro rightly space name ran
    rcases Registry.name_keeps ran with ⟨-, content, present, -⟩
    refine ⟨_, Space.interns_run machine orderly present, fun entry member => ?_⟩
    rcases List.mem_filter.mp member with ⟨inside, isOwn⟩
    rcases World.isOwn_iff.mp isOwn with ⟨var, found, isHome⟩
    exact ⟨var, varAt_run machine found,
      rightly space content present entry inside var found isHome⟩

/-- Names are right all along a run exactly if nothing is renamed in it. -/
theorem wellNamed_always_iff (positive : 0 < machine.limit) {commands : List Command}
    (ran : performAll commands machine World.initial = some ((), world)) :
    (∀ earlier later between, commands = earlier ++ later →
      performAll earlier machine World.initial = some ((), between) → WellNamed machine between) ↔
    ∀ space symbol var between,
      Occurs machine World.initial commands (.refer space symbol var) between →
      ¬ Renames machine between space symbol var := by
  constructor
  · rintro always space symbol var between ⟨earlier, later, rfl, reached⟩
      ⟨content, next, looked, isHome, different, referred⟩
    rw [performAll_append] at ran
    rcases Run.exists_of_bind ran with ⟨_, _, again, rest⟩
    cases reached.symm.trans again
    rcases Run.exists_of_bind rest with ⟨_, _, stepped, -⟩
    have orderly := orderly_of_performAll positive .initial reached
    rcases refer_performed orderly stepped with
      ⟨_, refused, -⟩ | ⟨-, rfl, -, spaceContent, present⟩
    · cases referred.symm.trans refused
    have reachedNext : performAll (earlier ++ [.refer space symbol var]) machine World.initial =
        some ((), (Change.refer space symbol var).apply between) := by
      rw [performAll_append]
      exact (Run.run_bind reached).trans (Run.run_bind stepped)
    have rightly := (wellNamed_iff machine (orderly_of_performAll positive .initial reachedNext)).mp
      (always _ later _ (by rw [List.append_assoc]; rfl) reachedNext)
    have mapped : ((Change.refer space symbol var).apply between).mapped space symbol = some var :=
      (mapped_mapTo present symbol symbol var space).trans (if_pos ⟨rfl, rfl⟩)
    rcases World.mapped_eq_some_iff.mp mapped with ⟨later, presentLater, found⟩
    exact different (rightly space later presentLater _ (Space.mem_of_findSymbol found) content
      (Run.eq_some_of_found looked).1 isHome)
  · rintro notRenamed earlier later between rfl reached
    refine (wellNamed_iff machine (orderly_of_performAll positive .initial reached)).mpr ?_
    refine performAll_keeps positive .initial rightNames_initial
      (fun occurs before rightly stepped => ?_) reached
    refine rightNames_perform positive before rightly ?_ stepped
    rintro space symbol var rfl
    exact notRenamed space symbol var _ (occurs.append later)

/-! ## Full names -/

variable {registry : Registry.Cell} {registryContent : RegistryCell} {name : Symbol}

theorem unqualifiedName_name (unqualified : symbol.isQualified = false) :
    Symbol.unqualifiedName symbol.name = symbol := by
  rcases symbol with ⟨_ | _, _⟩
  · rfl
  · cases unqualified

/-- By the full name of the var one finds the var. -/
def LeadsBack (machine : Machine) (world : World) (registry : Registry.Cell) (var : Ref .var) :
    Prop :=
  ∃ symbol, Var.symbol var machine world = some (symbol, world) ∧
    (Registry.findVar registry symbol).run machine world = some (.ok (some var), world)

/-- The name of the namespace must be unqualified, and the var be found there by its own name. -/
theorem leadsBack_iff (machine : Machine) (orderly : Orderly world) {varContent : VarCell}
    (present : world.registries.get? registry.index = some registryContent)
    (isRegistered : world.registered registry name = some space)
    (found : world.vars.get? var.index = some varContent) (isHome : varContent.home = space) :
    LeadsBack machine world registry var ↔
      name.isQualified = false ∧ world.ownVar space varContent.name = some var := by
  subst isHome
  have isOwn : world.isOwn varContent.home var = true :=
    World.isOwn_iff.mpr ⟨varContent, found, rfl⟩
  have inOrder := orderly.var found
  have homeName : varContent.homeName = name := by
    rcases inOrder.home with ⟨home, homePresent, homeName⟩
    rcases Registry.named_of_registered orderly isRegistered with ⟨content, spacePresent, named⟩
    cases homePresent.symm.trans spacePresent
    exact homeName.symm.trans named
  have fullName : Var.symbol var machine world =
      some (.qualifiedName name.name varContent.name.name, world) := by
    rw [Var.symbol, Run.run_bind (varAt_run machine found), homeName]
    rfl
  have sought := Registry.findVar_run machine orderly present name.name varContent.name.name
  rw [unqualifiedName_name inOrder.unqualified] at sought
  constructor
  · rintro ⟨symbol, named, answered⟩
    cases named.symm.trans fullName
    rw [sought] at answered
    cases other : world.registered registry (.unqualifiedName name.name) with
    | none =>
        rw [other] at answered
        cases answered
    | some otherSpace =>
        rw [other] at answered
        have ownThere : world.ownVar otherSpace varContent.name = some var := by
          simpa using answered
        cases Space.eq_of_isOwn isOwn (World.ownVar_eq_some_iff.mp ownThere).2
        rcases Registry.named_of_registered orderly isRegistered with ⟨content, spacePresent, rfl⟩
        rcases Registry.named_of_registered orderly other with ⟨_, again, sameName⟩
        cases spacePresent.symm.trans again
        refine ⟨?_, ownThere⟩
        rw [sameName]
        rfl
  · rintro ⟨unqualified, ownThere⟩
    refine ⟨_, fullName, sought.trans ?_⟩
    rw [unqualifiedName_name unqualified, isRegistered, Option.elim_some, ownThere]

theorem own_leadsBack_iff (machine : Machine) (orderly : Orderly world)
    (present : world.registries.get? registry.index = some registryContent)
    (isRegistered : world.registered registry name = some space) :
    ∃ interned, Space.interns space machine world = some (interned, world) ∧
      ∀ entry ∈ interned, ∃ var, Run.varAt entry.2 machine world = some (var, world) ∧
        (LeadsBack machine world registry entry.2 ↔ name.isQualified = false ∧
          (var.name = entry.1 ∨
            Space.findVar space var.name machine world = some (some entry.2, world))) := by
  rcases Registry.named_of_registered orderly isRegistered with ⟨content, spacePresent, -⟩
  refine ⟨_, Space.interns_run machine orderly spacePresent, fun entry member => ?_⟩
  rcases List.mem_filter.mp member with ⟨inside, isOwn⟩
  rcases World.isOwn_iff.mp isOwn with ⟨var, found, isHome⟩
  have mapped : world.mapped space entry.1 = some entry.2 :=
    World.mapped_eq_some_iff.mpr
      ⟨content, spacePresent, (orderly.space spacePresent).distinct.findSymbol_of_mem inside⟩
  refine ⟨var, varAt_run machine found, ?_⟩
  rw [leadsBack_iff machine orderly present isRegistered found isHome,
    Space.findVar_run machine orderly spacePresent]
  refine and_congr_right fun _ => ⟨fun own => .inr (by rw [own]), ?_⟩
  rintro (same | own)
  · rw [same]
    exact World.ownVar_eq_some_iff.mpr ⟨mapped, isOwn⟩
  · simpa using own

/-! ## The names of what is interned -/

theorem intern_named (machine : Machine) (orderly : Orderly world)
    (present : world.spaces.get? space.index = some content)
    (unqualified : symbol.isQualified = false) :
    ∃ var varContent after, (Space.intern space symbol).run machine world = some (.ok var, after) ∧
      Run.varAt var machine after = some (varContent, after) ∧ varContent.home = space ∧
      (WellNamed machine world → varContent.name = symbol) := by
  rcases Space.intern_cases machine orderly present symbol with
    ⟨qualified, -⟩ | ⟨-, own, found, ran⟩ | ⟨-, -, ran⟩
  · cases unqualified.symm.trans qualified
  · rcases World.ownVar_eq_some_iff.mp found with ⟨mapped, isOwn⟩
    rcases World.isOwn_iff.mp isOwn with ⟨varContent, varFound, isHome⟩
    refine ⟨own, varContent, world, ran, varAt_run machine varFound, isHome, fun wellNamed => ?_⟩
    rcases World.mapped_eq_some_iff.mp mapped with ⟨content, present, foundThere⟩
    exact (wellNamed_iff machine orderly).mp wellNamed space content present _
      (Space.mem_of_findSymbol foundThere) varContent varFound isHome
  · exact ⟨_, _, _, ran, varAt_run machine (Store.get?_push_next ..), rfl, fun _ => rfl⟩

/-- All along a run names are right exactly if no var is referred under another name in its own
namespace. A var that is interned in a registered namespace is found by its full name exactly
if the name of the namespace is unqualified, and the var is found under its own name there.
What `intern` answers has the name that was asked for as long as names are right. -/
theorem performAll_names (positive : 0 < machine.limit) {commands : List Command}
    (ran : performAll commands machine World.initial = some ((), world)) :
    ((∀ earlier later between, commands = earlier ++ later →
        performAll earlier machine World.initial = some ((), between) →
        WellNamed machine between) ↔
      ∀ space symbol var between,
        Occurs machine World.initial commands (.refer space symbol var) between →
        ¬ Renames machine between space symbol var) ∧
    (∀ registry name space,
      Registry.findSpace registry name machine world = some (some space, world) →
      ∃ interned, Space.interns space machine world = some (interned, world) ∧
        ∀ entry ∈ interned, ∃ var, Run.varAt entry.2 machine world = some (var, world) ∧
          (LeadsBack machine world registry entry.2 ↔ name.isQualified = false ∧
            (var.name = entry.1 ∨
              Space.findVar space var.name machine world = some (some entry.2, world)))) ∧
    ∀ space name symbol, Space.name space machine world = some (name, world) →
      symbol.isQualified = false →
      ∃ var varContent after,
        (Space.intern space symbol).run machine world = some (.ok var, after) ∧
        Run.varAt var machine after = some (varContent, after) ∧ varContent.home = space ∧
        (WellNamed machine world → varContent.name = symbol) := by
  have orderly := orderly_of_performAll positive .initial ran
  refine ⟨wellNamed_always_iff positive ran, ?_, ?_⟩
  · intro registry name space found
    rcases there_of_findSpace found with ⟨content, present⟩
    exact own_leadsBack_iff machine orderly present (Registry.registered_of_findSpace present found)
  · intro space name symbol named unqualified
    rcases Registry.name_keeps named with ⟨-, content, present, -⟩
    exact intern_named machine orderly present unqualified

/-- A var of the namespace `app` is interned, and then referred there under another symbol. -/
def renamingCommands : List Command :=
  [.createRegistry Registry.defaultConfiguration, .internSpace ⟨0⟩ (.unqualifiedName "app"),
    .intern ⟨2⟩ (.unqualifiedName "x")] ++
  [.refer ⟨2⟩ (.unqualifiedName "y") ⟨2⟩]

/-- The reference is not turned down, and it makes a name wrong. -/
theorem own_var_renamed : ∃ world, performAll renamingCommands quiet World.initial =
      some ((), world) ∧
    ¬ ∀ earlier later between, renamingCommands = earlier ++ later →
      performAll earlier quiet World.initial = some ((), between) → WellNamed quiet between := by
  have ends : ((performAll [.createRegistry Registry.defaultConfiguration,
      .internSpace ⟨0⟩ (.unqualifiedName "app"), .intern ⟨2⟩ (.unqualifiedName "x")] quiet
      World.initial).bind fun start => do
        let var ← start.2.vars.get? 2
        let referred ← (Space.refer ⟨2⟩ (.unqualifiedName "y") ⟨2⟩).run quiet start.2
        return (var.home, var.name, referred.1.toOption)) =
      some (⟨2⟩, .unqualifiedName "x", some ()) := by decide +kernel
  rcases Option.bind_eq_some_iff.mp ends with ⟨⟨_, between⟩, reached, rest⟩
  rcases Option.bind_eq_some_iff.mp rest with ⟨var, found, rest⟩
  rcases Option.bind_eq_some_iff.mp rest with ⟨⟨outcome, world⟩, referred, seen⟩
  simp only [pure, Option.some.injEq, Prod.mk.injEq] at seen
  rcases seen with ⟨isHome, named, isOk⟩
  cases outcome with
  | error error => cases isOk
  | ok _ =>
      have looked : Run.varAt ⟨2⟩ quiet between = some (var, between) := varAt_run quiet found
      have stepped : perform (.refer ⟨2⟩ (.unqualifiedName "y") ⟨2⟩) quiet between =
          some ((), world) := by
        refine (Run.run_bind ((Run.run_discard ..).trans (congrArg (Option.map _) looked))).trans ?_
        exact (Run.run_discard ..).trans (congrArg (Option.map _) referred)
      have ran : performAll renamingCommands quiet World.initial = some ((), world) := by
        rw [renamingCommands, performAll_append]
        exact (Run.run_bind reached).trans (Run.run_bind stepped)
      refine ⟨world, ran, fun always => ?_⟩
      have notRenamed := (performAll_names Nat.one_pos ran).1.mp always
      refine notRenamed ⟨2⟩ (.unqualifiedName "y") ⟨2⟩ between ⟨_, [], rfl, reached⟩ ?_
      exact ⟨var, world, looked, isHome, by rw [named]; decide, referred⟩

end Naming

end LispRuntime
