import LispRuntime.Proofs.Namespace.Changes

/-! The order that vars, namespaces and registries are in, and stay in whatever happens to them:
whatever is referred to is there, and names are where they belong. -/

namespace LispRuntime

variable {world after : World} {space other : Space.Cell} {symbol key : Symbol} {var own : Ref .var}
  {registry : Registry.Cell} {name : Symbol} {content : SpaceCell}

/-! ## What is found after a change -/

namespace World

theorem mapped_eq_some_iff : world.mapped space symbol = some var ↔
    ∃ content, world.spaces.get? space.index = some content ∧
      Space.findSymbol symbol content.mappings = some var :=
  Option.bind_eq_some_iff

theorem isOwn_iff : world.isOwn space var = true ↔
    ∃ content, world.vars.get? var.index = some content ∧ content.home = space := by
  simp [isOwn, Option.any_eq_true]

theorem ownVar_eq_some_iff : world.ownVar space symbol = some own ↔
    world.mapped space symbol = some own ∧ world.isOwn space own = true :=
  Option.filter_eq_some_iff

theorem registered_eq_some_iff {registered : Space.Cell} :
    world.registered registry name = some registered ↔
      ∃ content, world.registries.get? registry.index = some content ∧
        Space.findSymbol name content.spaces = some registered :=
  Option.bind_eq_some_iff

end World

namespace Naming

open World

theorem Onward.isOwn (onward : Onward world after) (isOwn : world.isOwn space var = true) :
    after.isOwn space var = true := by
  rcases isOwn_iff.mp isOwn with ⟨content, found, home⟩
  rcases onward.var found with ⟨later, foundLater, sameHome, -⟩
  exact isOwn_iff.mpr ⟨later, foundLater, sameHome.trans home⟩

theorem mapped_inSpace (world : World) (space : Space.Cell) (change : SpaceCell → SpaceCell)
    (other : Space.Cell) (key : Symbol) :
    (Change.inSpace world space change).mapped other key =
      if other = space then
        (world.spaces.get? space.index).bind fun content =>
          Space.findSymbol key (change content).mappings
      else world.mapped other key := by
  unfold World.mapped Change.inSpace
  rw [Store.get?_modify]
  by_cases here : other = space
  · subst here
    rw [if_pos rfl, if_pos rfl]
    cases world.spaces.get? other.index <;> rfl
  · rw [if_neg (here ∘ Ref.index_inj.mp), if_neg here]

theorem mapped_mapTo (present : world.spaces.get? space.index = some content)
    (symbol key : Symbol) (var : Ref .var) (other : Space.Cell) :
    (Change.mapTo world space symbol var).mapped other key =
      if other = space ∧ key = symbol then some var else world.mapped other key := by
  rw [Change.mapTo, mapped_inSpace, present, Option.bind_some]
  by_cases here : other = space
  · subst here
    rw [if_pos rfl, Space.findSymbol_insertSymbol, World.mapped, present, Option.bind_some]
    simp
  · rw [if_neg here, if_neg fun both => here both.1]

/-- What a symbol is mapped to stays when a namespace changes, unless that one does otherwise. -/
theorem mapped_inSpace_of_kept {change : SpaceCell → SpaceCell}
    (isMapped : world.mapped space symbol = some var)
    (kept : other = space → ∀ content, world.spaces.get? space.index = some content →
      Space.findSymbol symbol content.mappings = some var →
      Space.findSymbol symbol (change content).mappings = some var) :
    (Change.inSpace world other change).mapped space symbol = some var := by
  rw [mapped_inSpace]
  split
  case isFalse => exact isMapped
  case isTrue here =>
    subst here
    rcases mapped_eq_some_iff.mp isMapped with ⟨content, present, found⟩
    rw [present]
    exact kept rfl content present found

/-- What one has interned is given up by unmapping it only. -/
theorem ownVar_kept {change : Change} (isAllowed : change.Allowed world)
    (found : world.ownVar space symbol = some own) (notUnmapped : change ≠ .unmap space symbol) :
    (change.apply world).ownVar space symbol = some own := by
  rcases ownVar_eq_some_iff.mp found with ⟨isMapped, isOwn⟩
  refine ownVar_eq_some_iff.mpr ⟨?_, (Change.onward isAllowed).isOwn isOwn⟩
  cases change with
  | addSpace name =>
      rcases mapped_eq_some_iff.mp isMapped with ⟨content, present, foundThere⟩
      exact mapped_eq_some_iff.mpr
        ⟨content, Store.get?_push_eq_some.mpr (.inr present), foundThere⟩
  | addVar home homeName key =>
      rcases isAllowed with ⟨-, free, homeContent, homePresent, -⟩
      refine (mapped_mapTo homePresent key symbol _ space).trans ?_
      rw [if_neg]
      · exact isMapped
      · rintro ⟨rfl, rfl⟩
        cases found.symm.trans free
  | refer other key var =>
      refine mapped_inSpace_of_kept isMapped fun here content _ foundThere => ?_
      subst here
      rw [Space.findSymbol_insertSymbol]
      split
      case isFalse => exact foundThere
      case isTrue same => rw [isAllowed.2 own (same ▸ found)]
  | unmap other key =>
      refine mapped_inSpace_of_kept isMapped fun here content _ foundThere => ?_
      subst here
      rw [Space.findSymbol_eraseSymbol, if_neg]
      · exact foundThere
      · rintro rfl
        exact notUnmapped rfl
  | realias other change =>
      exact mapped_inSpace_of_kept isMapped fun _ _ _ foundThere => foundThere
  | adjust | addRegistry | enroll | strike | elsewhere => exact isMapped

/-- What is registered stays when a registry changes, unless that one does otherwise. -/
theorem registered_inRegistry_of_kept {other : Registry.Cell} {found : Space.Cell}
    {change : List (Symbol × Space.Cell) → List (Symbol × Space.Cell)}
    (isRegistered : world.registered registry name = some found)
    (kept : other = registry → ∀ spaces, Space.findSymbol name spaces = some found →
      Space.findSymbol name (change spaces) = some found) :
    (Change.inRegistry world other change).registered registry name = some found := by
  rcases registered_eq_some_iff.mp isRegistered with ⟨content, present, foundThere⟩
  refine registered_eq_some_iff.mpr
    ⟨_, Store.get?_modify_eq_some.mpr ⟨content, present, rfl⟩, ?_⟩
  split
  case isFalse => exact foundThere
  case isTrue same => exact kept (Ref.index_inj.mp same.symm) _ foundThere

/-- What is registered is given up by striking it off only. -/
theorem registered_kept {change : Change} {found : Space.Cell} (isAllowed : change.Allowed world)
    (isRegistered : world.registered registry name = some found)
    (notStruck : change ≠ .strike registry name) :
    (change.apply world).registered registry name = some found := by
  cases change with
  | addRegistry new =>
      rcases registered_eq_some_iff.mp isRegistered with ⟨content, present, foundThere⟩
      exact registered_eq_some_iff.mpr
        ⟨content, Store.get?_push_eq_some.mpr (.inr present), foundThere⟩
  | enroll other key space =>
      refine registered_inRegistry_of_kept isRegistered fun here spaces foundThere => ?_
      subst here
      rw [Space.findSymbol_insertSymbol, if_neg]
      · exact foundThere
      · rintro rfl
        cases isRegistered.symm.trans isAllowed.1
  | strike other key =>
      refine registered_inRegistry_of_kept isRegistered fun here spaces foundThere => ?_
      subst here
      rw [Space.findSymbol_eraseSymbol, if_neg]
      · exact foundThere
      · rintro rfl
        exact notStruck rfl
  | addSpace | addVar | refer | unmap | realias | adjust | elsewhere => exact isRegistered

/-! ## Order -/

/-- A namespace maps no symbol twice, and what it maps symbols to is there. -/
structure SpaceOrderly (world : World) (content : SpaceCell) : Prop where
  distinct : Space.Distinct content.mappings
  mapped : ∀ entry ∈ content.mappings, entry.2.index < world.vars.next

/-- A var has an unqualified name and a home, whose name it knows. -/
structure VarOrderly (world : World) (var : VarCell) : Prop where
  unqualified : var.name.isQualified = false
  home : ∃ content, world.spaces.get? var.home.index = some content ∧ content.name = var.homeName
  metadata : world.MetadataThere var

/-- A registry has its namespaces under their own names, the core namespace among them. -/
structure RegistryOrderly (world : World) (registry : RegistryCell) : Prop where
  distinct : Space.Distinct registry.spaces
  named : ∀ entry ∈ registry.spaces, ∃ content,
    world.spaces.get? entry.2.index = some content ∧ content.name = entry.1
  core : ∃ content, world.spaces.get? registry.core.index = some content ∧
    Space.findSymbol content.name registry.spaces = some registry.core
  currentSpace : registry.currentSpace.index < world.vars.next

structure Orderly (world : World) : Prop where
  space : ∀ {index content}, world.spaces.get? index = some content → SpaceOrderly world content
  var : ∀ {index var}, world.vars.get? index = some var → VarOrderly world var
  registry : ∀ {index registry}, world.registries.get? index = some registry →
    RegistryOrderly world registry

section

variable {content : RegistryCell}

theorem SpaceOrderly.insert {content : SpaceCell} (orderly : SpaceOrderly world content)
    (symbol : Symbol) (there : var.index < world.vars.next) :
    SpaceOrderly world
      { content with mappings := Space.insertSymbol symbol var content.mappings } where
  distinct := orderly.distinct.insertSymbol symbol var
  mapped entry member := by
    rcases Space.mem_of_mem_insertSymbol member with rfl | old
    · exact there
    · exact orderly.mapped entry old

theorem SpaceOrderly.erase {content : SpaceCell} (orderly : SpaceOrderly world content)
    (symbol : Symbol) :
    SpaceOrderly world
      { content with mappings := Space.eraseSymbol symbol content.mappings } where
  distinct := orderly.distinct.eraseSymbol symbol
  mapped entry member := orderly.mapped entry (Space.mem_of_mem_eraseSymbol member)

/-- A registry begins with the core namespace alone. -/
theorem registryOrderly_of_core {core : SpaceCell}
    (currentSpace : content.currentSpace.index < world.vars.next)
    (found : world.spaces.get? content.core.index = some core)
    (onlyCore : content.spaces = [(core.name, content.core)]) :
    RegistryOrderly world content where
  distinct := by
    rw [onlyCore]
    exact List.nodup_singleton _
  named entry member := by
    rw [onlyCore, List.mem_singleton] at member
    subst member
    exact ⟨core, found, rfl⟩
  core := by
    refine ⟨core, found, ?_⟩
    rw [onlyCore]
    simp [Space.findSymbol]
  currentSpace := currentSpace

theorem RegistryOrderly.insert (orderly : RegistryOrderly world content)
    (free : ∀ registered, Space.findSymbol name content.spaces ≠ some registered)
    (named : ∃ found, world.spaces.get? space.index = some found ∧ found.name = name) :
    RegistryOrderly world
      { content with spaces := Space.insertSymbol name space content.spaces } where
  distinct := orderly.distinct.insertSymbol name space
  named entry member := by
    rcases Space.mem_of_mem_insertSymbol member with rfl | old
    · exact named
    · exact orderly.named entry old
  core := by
    rcases orderly.core with ⟨core, found, isRegistered⟩
    refine ⟨core, found, ?_⟩
    rw [Space.findSymbol_insertSymbol, if_neg]
    · exact isRegistered
    · rintro rfl
      exact free _ isRegistered
  currentSpace := orderly.currentSpace

theorem RegistryOrderly.erase (orderly : RegistryOrderly world content)
    (notCore : ∀ core, world.spaces.get? content.core.index = some core → core.name ≠ name) :
    RegistryOrderly world
      { content with spaces := Space.eraseSymbol name content.spaces } where
  distinct := orderly.distinct.eraseSymbol name
  named entry member := orderly.named entry (Space.mem_of_mem_eraseSymbol member)
  core := by
    rcases orderly.core with ⟨core, found, isRegistered⟩
    refine ⟨core, found, ?_⟩
    rw [Space.findSymbol_eraseSymbol, if_neg (notCore core found)]
    exact isRegistered
  currentSpace := orderly.currentSpace

end

namespace Onward

variable {world after : World}

theorem varThere (onward : Onward world after) {index : Nat} (there : index < world.vars.next) :
    index < after.vars.next := by
  rcases Store.exists_of_lt_next there with ⟨content, found⟩
  rcases onward.var found with ⟨later, foundLater, -⟩
  exact Store.lt_next_of_get? foundLater

theorem spaceNamed (onward : Onward world after) {index : Nat} {name : Symbol}
    (there : ∃ content, world.spaces.get? index = some content ∧ content.name = name) :
    ∃ content, after.spaces.get? index = some content ∧ content.name = name := by
  rcases there with ⟨content, found, rfl⟩
  exact onward.space found

theorem spaceOrderly (onward : Onward world after) {content : SpaceCell}
    (orderly : SpaceOrderly world content) : SpaceOrderly after content where
  distinct := orderly.distinct
  mapped entry member := onward.varThere (orderly.mapped entry member)

theorem varOrderly (onward : Onward world after) {var : VarCell}
    (orderly : VarOrderly world var) : VarOrderly after var where
  unqualified := orderly.unqualified
  home := onward.spaceNamed orderly.home
  metadata cell carried := Nat.lt_of_lt_of_le (orderly.metadata cell carried) onward.transients

theorem registryOrderly (onward : Onward world after) {registry : RegistryCell}
    (orderly : RegistryOrderly world registry) : RegistryOrderly after registry where
  distinct := orderly.distinct
  named entry member := onward.spaceNamed (orderly.named entry member)
  core := by
    rcases orderly.core with ⟨content, found, isRegistered⟩
    rcases onward.space found with ⟨later, foundLater, name⟩
    exact ⟨later, foundLater, name ▸ isRegistered⟩
  currentSpace := onward.varThere orderly.currentSpace

end Onward

namespace Orderly

theorem initial : Orderly World.initial where
  space found := by cases Store.lt_next_of_get? found
  var found := by cases Store.lt_next_of_get? found
  registry found := by cases Store.lt_next_of_get? found

/-- It suffices to look at what has changed. -/
theorem onward (orderly : Orderly world) (onward : Onward world after)
    (space : ∀ {index content}, after.spaces.get? index = some content →
      world.spaces.get? index = some content ∨ SpaceOrderly after content)
    (var : ∀ {index var}, after.vars.get? index = some var →
      world.vars.get? index = some var ∨ VarOrderly after var)
    (registry : ∀ {index registry}, after.registries.get? index = some registry →
      world.registries.get? index = some registry ∨ RegistryOrderly after registry) :
    Orderly after where
  space found := (space found).elim (fun old => onward.spaceOrderly (orderly.space old)) id
  var found := (var found).elim (fun old => onward.varOrderly (orderly.var old)) id
  registry found :=
    (registry found).elim (fun old => onward.registryOrderly (orderly.registry old)) id

/-- A change in one namespace. -/
theorem inSpace (orderly : Orderly world) (space : Space.Cell) {change : SpaceCell → SpaceCell}
    (name : ∀ content, (change content).name = content.name)
    (changed : ∀ content, world.spaces.get? space.index = some content →
      SpaceOrderly world (change content)) :
    Orderly (Change.inSpace world space change) := by
  refine orderly.onward (.inSpace world space name) ?_ .inl .inl
  intro index content found
  rcases Store.get?_modify_eq_some.mp found with ⟨old, foundOld, rfl⟩
  split
  case isFalse => exact .inl foundOld
  case isTrue here =>
    subst here
    exact .inr (Onward.spaceOrderly (.inSpace world space name) (changed old foundOld))

theorem mapTo (orderly : Orderly world) (space : Space.Cell) (symbol : Symbol)
    (there : var.index < world.vars.next) : Orderly (Change.mapTo world space symbol var) :=
  orderly.inSpace space (fun _ => rfl) fun _ found => (orderly.space found).insert symbol there

/-- A change of the namespaces of one registry. -/
theorem inRegistry (orderly : Orderly world) (registry : Registry.Cell)
    {change : List (Symbol × Space.Cell) → List (Symbol × Space.Cell)}
    (changed : ∀ content, world.registries.get? registry.index = some content →
      RegistryOrderly world { content with spaces := change content.spaces }) :
    Orderly (Change.inRegistry world registry change) := by
  refine orderly.onward (.inRegistry world registry change) .inl .inl ?_
  intro index content found
  rcases Store.get?_modify_eq_some.mp found with ⟨old, foundOld, rfl⟩
  split
  case isFalse => exact .inl foundOld
  case isTrue here =>
    subst here
    exact .inr (Onward.registryOrderly (.inRegistry world registry change) (changed old foundOld))

theorem addSpace (orderly : Orderly world) (name : Symbol) :
    Orderly ((Change.addSpace name).apply world) := by
  refine orderly.onward (Change.onward trivial) (fun found => ?_) .inl .inl
  rcases Store.get?_push_eq_some.mp found with ⟨-, rfl⟩ | old
  · exact .inr ⟨List.nodup_nil, nofun⟩
  · exact .inl old

theorem addVar (orderly : Orderly world) {home : Space.Cell} {homeName : Symbol}
    (unqualified : symbol.isQualified = false)
    (homeThere : ∃ content, world.spaces.get? home.index = some content ∧
      content.name = homeName) :
    Orderly ((Change.addVar home homeName symbol).apply world) := by
  refine Orderly.mapTo ?_ home symbol ?_
  · refine orderly.onward ?_ .inl (fun found => ?_) .inl
    · exact { Onward.refl world with
        var := fun found => ⟨_, Store.get?_push_eq_some.mpr (.inr found), rfl, rfl, rfl⟩ }
    · rcases Store.get?_push_eq_some.mp found with ⟨-, rfl⟩ | old
      · exact .inr ⟨unqualified, homeThere, nofun⟩
      · exact .inl old
  · rw [Store.next_push]
    exact Nat.lt_succ_self _

theorem adjust (orderly : Orderly world) {change : VarCell → VarCell}
    (isAllowed : (Change.adjust var change).Allowed world) :
    Orderly ((Change.adjust var change).apply world) := by
  refine orderly.onward (Change.onward isAllowed) .inl (fun found => ?_) .inl
  rcases Store.get?_modify_eq_some.mp found with ⟨old, foundOld, rfl⟩
  split
  · have before := orderly.var foundOld
    exact .inr ⟨before.unqualified, before.home, isAllowed old before.metadata⟩
  · exact .inl foundOld

theorem addRegistry (orderly : Orderly world) {content : RegistryCell}
    (isAllowed : (Change.addRegistry content).Allowed world) :
    Orderly ((Change.addRegistry content).apply world) := by
  have onward := Change.onward isAllowed
  rcases isAllowed with ⟨currentSpace, core, found, onlyCore⟩
  refine orderly.onward onward .inl .inl (fun foundRegistry => ?_)
  rcases Store.get?_push_eq_some.mp foundRegistry with ⟨-, rfl⟩ | old
  · exact .inr (registryOrderly_of_core currentSpace found onlyCore)
  · exact .inl old

/-- What is in order stays so by every change that is allowed. -/
theorem apply (orderly : Orderly world) {change : Change} (isAllowed : change.Allowed world) :
    Orderly (change.apply world) := by
  cases change with
  | addSpace name => exact orderly.addSpace name
  | addVar home homeName symbol => exact orderly.addVar isAllowed.1 isAllowed.2.2
  | refer space symbol var => exact orderly.mapTo space symbol isAllowed.1
  | unmap space symbol =>
      exact orderly.inSpace space (fun _ => rfl) fun _ found => (orderly.space found).erase symbol
  | realias space change =>
      exact orderly.inSpace space (fun _ => rfl) fun _ found =>
        ⟨(orderly.space found).distinct, (orderly.space found).mapped⟩
  | adjust var change => exact orderly.adjust isAllowed
  | addRegistry content => exact orderly.addRegistry isAllowed
  | enroll registry name space =>
      refine orderly.inRegistry registry fun content found => ?_
      refine (orderly.registry found).insert (fun registered isRegistered => ?_) isAllowed.2
      cases isAllowed.1.symm.trans (registered_eq_some_iff.mpr ⟨content, found, isRegistered⟩)
  | strike registry name =>
      exact orderly.inRegistry registry fun content found =>
        (orderly.registry found).erase fun core => isAllowed content core found
  | elsewhere change => exact orderly.onward (Change.onward isAllowed) .inl .inl .inl

end Orderly

theorem Leads.orderly {condition : World → Change → Prop} (leads : Leads condition world after)
    (orderly : Orderly world) : Orderly after :=
  leads.keeps orderly fun _ _ before isAllowed _ => before.apply isAllowed

end Naming

end LispRuntime
