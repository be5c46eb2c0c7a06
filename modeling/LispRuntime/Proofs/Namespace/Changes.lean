import LispRuntime.Namespace.Registry
import LispRuntime.Proofs.Namespace.Looking
import LispRuntime.Proofs.Namespace.Tables
import Mathlib.Logic.Relation

/-! What can happen to vars, namespaces and registries. However it is done, it comes to changes
of a few kinds, each of which is made on a condition. What every change keeps holds of
everything that is done. -/

namespace LispRuntime

namespace Store

variable {α : Type} {store : Store α} {index other : Nat} {cell : α}

theorem get?_push_eq_some {new : α} : (store.push new).get? index = some cell ↔
    index = store.next ∧ cell = new ∨ store.get? index = some cell := by
  rw [get?_push]
  by_cases here : index = store.next
  · rw [if_pos here]
    constructor
    · rintro ⟨⟩
      exact .inl ⟨here, rfl⟩
    · rintro (⟨-, rfl⟩ | found)
      · rfl
      · exact absurd (lt_next_of_get? found) (here ▸ Nat.lt_irrefl _)
  · rw [if_neg here]
    exact (or_iff_right fun new => here new.1).symm

theorem get?_modify_eq_some {change : α → α} : (store.modify index change).get? other = some cell ↔
    ∃ old, store.get? other = some old ∧ cell = if other = index then change old else old := by
  rw [get?_modify]
  by_cases here : other = index
  · simp only [here, if_true, Option.map_eq_some_iff, eq_comm (a := cell)]
  · simp only [if_neg here]
    exact ⟨fun found => ⟨cell, found, rfl⟩, fun ⟨_, found, same⟩ => same ▸ found⟩

end Store

/-! ## What is where -/

namespace World

/-- The var that a symbol is mapped to in a namespace. -/
def mapped (world : World) (space : Space.Cell) (symbol : Symbol) : Option (Ref .var) :=
  (world.spaces.get? space.index).bind fun content => Space.findSymbol symbol content.mappings

/-- Is the var at home in the namespace? -/
def isOwn (world : World) (space : Space.Cell) (var : Ref .var) : Bool :=
  (world.vars.get? var.index).any fun content => content.home == space

/-- The var of its own that a namespace has under a symbol. -/
def ownVar (world : World) (space : Space.Cell) (symbol : Symbol) : Option (Ref .var) :=
  (world.mapped space symbol).filter (world.isOwn space)

/-- The namespace that is registered under a name. -/
def registered (world : World) (registry : Registry.Cell) (name : Symbol) : Option Space.Cell :=
  (world.registries.get? registry.index).bind fun content => Space.findSymbol name content.spaces

end World

namespace Naming

inductive Change where
  /-- A new namespace, without mappings. -/
  | addSpace (name : Symbol)
  /-- A new var under a symbol. -/
  | addVar (home : Space.Cell) (homeName symbol : Symbol)
  | refer (space : Space.Cell) (symbol : Symbol) (var : Ref .var)
  | unmap (space : Space.Cell) (symbol : Symbol)
  | realias (space : Space.Cell)
      (change : List (Symbol × Space.Cell) → List (Symbol × Space.Cell))
  /-- A change to anything but the name and the home of a var. -/
  | adjust (var : Ref .var) (change : VarCell → VarCell)
  | addRegistry (content : RegistryCell)
  | enroll (registry : Registry.Cell) (name : Symbol) (space : Space.Cell)
  | strike (registry : Registry.Cell) (name : Symbol)
  /-- A change to anything but vars, namespaces and registries. -/
  | elsewhere (change : World → World)

namespace Change

def inSpace (world : World) (space : Space.Cell) (change : SpaceCell → SpaceCell) : World :=
  { world with spaces := world.spaces.modify space.index change }

theorem inSpace_inSpace (world : World) (space : Space.Cell)
    (first second : SpaceCell → SpaceCell) :
    inSpace (inSpace world space first) space second =
      inSpace world space fun content => second (first content) := by
  unfold inSpace
  rw [Store.modify_modify]

def mapTo (world : World) (space : Space.Cell) (symbol : Symbol) (var : Ref .var) : World :=
  inSpace world space fun content =>
    { content with mappings := Space.insertSymbol symbol var content.mappings }

def inRegistry (world : World) (registry : Registry.Cell)
    (change : List (Symbol × Space.Cell) → List (Symbol × Space.Cell)) : World :=
  { world with
    registries := world.registries.modify registry.index fun content =>
      { content with spaces := change content.spaces } }

def apply (world : World) : Change → World
  | addSpace name => { world with spaces := world.spaces.push ⟨name, [], []⟩ }
  | addVar home homeName symbol =>
      mapTo { world with vars := world.vars.push ⟨home, homeName, symbol, none, false, none⟩ }
        home symbol ⟨world.vars.next⟩
  | refer space symbol var => mapTo world space symbol var
  | unmap space symbol => inSpace world space fun content =>
      { content with mappings := Space.eraseSymbol symbol content.mappings }
  | realias space change => inSpace world space fun content =>
      { content with aliases := change content.aliases }
  | adjust var change =>
      { world with
        vars := world.vars.modify var.index fun content =>
          { change content with
            home := content.home
            homeName := content.homeName
            name := content.name } }
  | addRegistry content => { world with registries := world.registries.push content }
  | enroll registry name space => inRegistry world registry (Space.insertSymbol name space)
  | strike registry name => inRegistry world registry (Space.eraseSymbol name)
  | elsewhere change =>
      { change world with
        vars := world.vars
        spaces := world.spaces
        registries := world.registries }

/-- The condition on which a change is made. -/
def Allowed (world : World) : Change → Prop
  | addSpace _ | unmap .. | realias .. => True
  | addVar home homeName symbol =>
      symbol.isQualified = false ∧ world.ownVar home symbol = none ∧
        ∃ content, world.spaces.get? home.index = some content ∧ content.name = homeName
  | refer space symbol var =>
      var.index < world.vars.next ∧
        ∀ own, world.ownVar space symbol = some own → own = var
  | adjust _ change =>
      ∀ content, world.MetadataThere content → world.MetadataThere (change content)
  | addRegistry content =>
      content.currentSpace.index < world.vars.next ∧
        ∃ core, world.spaces.get? content.core.index = some core ∧
          content.spaces = [(core.name, content.core)]
  | enroll registry name space =>
      world.registered registry name = none ∧
        ∃ content, world.spaces.get? space.index = some content ∧ content.name = name
  | strike registry name =>
      ∀ content core, world.registries.get? registry.index = some content →
        world.spaces.get? content.core.index = some core → core.name ≠ name
  -- No transient is ever taken away.
  | elsewhere change => world.transients.next ≤ (change world).transients.next

end Change

/-- What gives up nothing, leaves aliases alone, and maps no var of a namespace's own unless it
is there already. -/
def Harmless (world : World) : Change → Prop
  | .unmap .. | .strike .. | .realias .. => False
  | .refer space symbol var =>
      world.isOwn space var = true → world.mapped space symbol = some var
  | _ => True

/-- A number of changes, each of which is made on its condition and on one more. -/
def Leads (condition : World → Change → Prop) : World → World → Prop :=
  Relation.ReflTransGen fun before after =>
    ∃ change : Change, change.Allowed before ∧ condition before change ∧
      after = change.apply before

namespace Leads

variable {condition weaker : World → Change → Prop} {world between after : World}

theorem refl (world : World) : Leads condition world world := Relation.ReflTransGen.refl

theorem trans (leads : Leads condition world between) (onward : Leads condition between after) :
    Leads condition world after := Relation.ReflTransGen.trans leads onward

theorem single (change : Change) (isAllowed : change.Allowed world)
    (holds : condition world change) : Leads condition world (change.apply world) :=
  Relation.ReflTransGen.single ⟨change, isAllowed, holds, rfl⟩

theorem weaken (leads : Leads condition world after)
    (implies : ∀ between change, condition between change → weaker between change) :
    Leads weaker world after :=
  Relation.ReflTransGen.mono
    (fun _ _ ⟨change, isAllowed, holds, same⟩ => ⟨change, isAllowed, implies _ change holds, same⟩)
    _ _ leads

/-- What every change keeps, all of them keep. -/
theorem keeps {motive : World → Prop} (leads : Leads condition world after)
    (start : motive world)
    (step : ∀ between change, motive between → Change.Allowed between change →
      condition between change → motive (change.apply between)) : motive after := by
  induction leads with
  | refl => exact start
  | tail _ made induction =>
      rcases made with ⟨change, isAllowed, holds, rfl⟩
      exact step _ change induction isAllowed holds

end Leads

/-! ## What stays -/

/-- What is there stays there: namespaces with their names, vars with their homes and names,
and registries with their namespaces and vars of their own. -/
structure Onward (world after : World) : Prop where
  space : ∀ {index content}, world.spaces.get? index = some content →
    ∃ later, after.spaces.get? index = some later ∧ later.name = content.name
  var : ∀ {index content}, world.vars.get? index = some content →
    ∃ later, after.vars.get? index = some later ∧ later.home = content.home ∧
      later.homeName = content.homeName ∧ later.name = content.name
  registry : ∀ {index content}, world.registries.get? index = some content →
    ∃ later, after.registries.get? index = some later ∧ later.core = content.core ∧
      later.currentSpace = content.currentSpace
  transients : world.transients.next ≤ after.transients.next

namespace Onward

variable {world between after : World}

theorem refl (world : World) : Onward world world :=
  ⟨fun found => ⟨_, found, rfl⟩, fun found => ⟨_, found, rfl, rfl, rfl⟩,
    fun found => ⟨_, found, rfl, rfl⟩, Nat.le_refl _⟩

theorem trans (first : Onward world between) (second : Onward between after) :
    Onward world after where
  space found := by
    rcases first.space found with ⟨_, foundBetween, name⟩
    rcases second.space foundBetween with ⟨later, foundLater, sameName⟩
    exact ⟨later, foundLater, sameName.trans name⟩
  var found := by
    rcases first.var found with ⟨_, foundBetween, home, homeName, name⟩
    rcases second.var foundBetween with ⟨later, foundLater, sameHome, sameHomeName, sameName⟩
    exact ⟨later, foundLater, sameHome.trans home, sameHomeName.trans homeName,
      sameName.trans name⟩
  registry found := by
    rcases first.registry found with ⟨_, foundBetween, core, current⟩
    rcases second.registry foundBetween with ⟨later, foundLater, sameCore, sameCurrent⟩
    exact ⟨later, foundLater, sameCore.trans core, sameCurrent.trans current⟩
  transients := Nat.le_trans first.transients second.transients

theorem inSpace (world : World) (space : Space.Cell) {change : SpaceCell → SpaceCell}
    (name : ∀ content, (change content).name = content.name) :
    Onward world (Change.inSpace world space change) := by
  refine { Onward.refl world with space := ?_ }
  intro index content found
  refine ⟨_, Store.get?_modify_eq_some.mpr ⟨content, found, rfl⟩, ?_⟩
  split
  · exact name content
  · rfl

theorem inRegistry (world : World) (registry : Registry.Cell)
    (change : List (Symbol × Space.Cell) → List (Symbol × Space.Cell)) :
    Onward world (Change.inRegistry world registry change) := by
  refine { Onward.refl world with registry := ?_ }
  intro index content found
  refine ⟨_, Store.get?_modify_eq_some.mpr ⟨content, found, rfl⟩, ?_⟩
  split <;> exact ⟨rfl, rfl⟩

end Onward

theorem Change.onward {world : World} {change : Change} (isAllowed : change.Allowed world) :
    Onward world (change.apply world) := by
  cases change with
  | addSpace name =>
      exact { Onward.refl world with
        space := fun found => ⟨_, Store.get?_push_eq_some.mpr (.inr found), rfl⟩ }
  | addVar home homeName symbol =>
      refine Onward.trans ?_ (.inSpace _ home fun _ => rfl)
      exact { Onward.refl world with
        var := fun found => ⟨_, Store.get?_push_eq_some.mpr (.inr found), rfl, rfl, rfl⟩ }
  | refer space symbol var => exact .inSpace world space fun _ => rfl
  | unmap space symbol => exact .inSpace world space fun _ => rfl
  | realias space change => exact .inSpace world space fun _ => rfl
  | adjust var change =>
      refine { Onward.refl world with var := ?_ }
      intro index content found
      refine ⟨_, Store.get?_modify_eq_some.mpr ⟨content, found, rfl⟩, ?_⟩
      split <;> exact ⟨rfl, rfl, rfl⟩
  | addRegistry content =>
      exact { Onward.refl world with
        registry := fun found => ⟨_, Store.get?_push_eq_some.mpr (.inr found), rfl, rfl⟩ }
  | enroll registry name space => exact .inRegistry world registry _
  | strike registry name => exact .inRegistry world registry _
  | elsewhere change => exact { Onward.refl world with transients := isAllowed }

theorem Leads.onward {condition : World → Change → Prop} {world after : World}
    (leads : Leads condition world after) : Onward world after :=
  leads.keeps (.refl world) fun _ _ onward isAllowed _ => onward.trans (Change.onward isAllowed)

end Naming

end LispRuntime
