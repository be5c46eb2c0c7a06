import LispRuntime.Multimethod.Basic
import LispRuntime.Proofs.Dispatch.Cache
import LispRuntime.Proofs.World.Running

/-! Hierarchies and the multimethods on top of them, over their whole life. The commands are
what is done with them once dispatch values have become tags. Whatever else goes on between
them, such as the functions that hashing a dispatch value calls, is made up of commands and
of changes elsewhere in the world. -/

namespace LispRuntime

namespace World

/-- Gives a multimethod other tables. -/
def withTables (world : World) (cell : Multimethod.Cell)
    (tables : Dispatch.Tables Value Value) : World :=
  { world with
    multimethods := world.multimethods.modify cell.index fun multimethod =>
      { multimethod with tables := tables } }

def withTaxonomy (world : World) (cell : Taxonomy.Cell) (taxonomy : HierarchyCell) : World :=
  { world with hierarchies := world.hierarchies.modify cell.index fun _ => taxonomy }

end World

/-- A change that is turned down is no new version, and neither is the removal of a link that
was not there. -/
def HierarchyCell.rearrange (taxonomy : HierarchyCell) :
    Hierarchy.Change Value → Option HierarchyCell
  | .derive child parent =>
      (taxonomy.hierarchy.derive child parent).map fun
        | .ok changed => ⟨changed, taxonomy.version + 1⟩
        | .error _ => taxonomy
  | .underive child parent =>
      (taxonomy.hierarchy.underive child parent).map fun (isRemoved, changed) =>
        if isRemoved then ⟨changed, taxonomy.version + 1⟩ else taxonomy

namespace Multimethod

/-- What can be done with one multimethod. It may be asked by a version of its hierarchy that
was read some changes ago. To dispatch is to refresh, to have an answer, and then to call it,
which amounts to further commands. -/
inductive Action where
  | add (tag : Tag Value) (method : Value)
  | remove (tag : Tag Value)
  | removeAll
  | prefer (preferred other : Tag Value)
  | refresh (age : Nat)
  | answer (age : Nat) (sought : Tag Value)

inductive Command where
  | newHierarchy
  | copyHierarchy (cell : Taxonomy.Cell)
  | rearrange (cell : Taxonomy.Cell) (change : Hierarchy.Change Value)
  | create (name : Symbol) (dispatch default : Value) (hierarchy : Taxonomy.Cell)
  | act (cell : Cell) (action : Action)
  /-- A change to anything but hierarchies and multimethods. -/
  | elsewhere (change : World → World)

/-- The version of the multimethod's hierarchy. -/
def versionFor (cell : Cell) : Run Nat := do
  Taxonomy.version (← Run.multimethodAt cell).hierarchy

def Action.perform (cell : Cell) (default : Tag Value) : Action → Run Unit
  | .add tag method => addFor cell tag method
  | .remove tag => do discard <| removeFor cell tag
  | .removeAll => Multimethod.removeAll cell
  | .prefer preferred other => do discard <| preferOver cell preferred other
  | .refresh age => do Multimethod.refresh cell ((← versionFor cell) - age)
  | .answer age sought => do
      discard <| Multimethod.answer cell ((← versionFor cell) - age) default sought

/-- Every multimethod has a default tag. -/
def perform (defaults : Cell → Tag Value) : Command → Run Unit
  | .newHierarchy => do discard <| Taxonomy.create .empty
  | .copyHierarchy cell => do discard <| Taxonomy.create (← Taxonomy.snapshot cell)
  | .rearrange cell (.derive child parent) => do discard <| Taxonomy.link cell child parent
  | .rearrange cell (.underive child parent) => do discard <| Taxonomy.unlink cell child parent
  | .create name dispatch default hierarchy => do
      discard <| Run.hierarchyAt hierarchy
      discard <| Multimethod.create name dispatch default hierarchy
  | .act cell action => action.perform cell (defaults cell)
  | .elsewhere change => Run.update fun world =>
      { change world with
        hierarchies := world.hierarchies
        multimethods := world.multimethods }

/-- Multimethods are asked for the given tags only. -/
def Command.AsksOnly (asked : Set (Tag Value)) : Command → Prop
  | .act _ (.answer _ sought) => sought ∈ asked
  | _ => True

def performAll (defaults : Cell → Tag Value) (commands : List Command) : Run Unit :=
  commands.forM (perform defaults)

/-! ## Actions on tables -/

namespace Action

variable {tables after : Dispatch.Tables Value Value} {hierarchy : Hierarchy Value}
  {version : Nat} {default : Tag Value} {cell : Cell}

/-- What becomes of the tables of a multimethod. -/
def change (hierarchy : Hierarchy Value) (version : Nat) (default : Tag Value)
    (tables : Dispatch.Tables Value Value) : Action → Option (Dispatch.Tables Value Value)
  | .add tag method => some (tables.addMethod tag method)
  | .remove tag => some (tables.removeMethod tag).2
  | .removeAll => some tables.removeAll
  | .prefer preferred other =>
      (tables.prefer hierarchy preferred other).map fun changed => changed.getD tables
  | .refresh age => some (tables.sync (version - age))
  | .answer age sought =>
      (tables.resolve hierarchy (version - age) default sought).map Prod.snd

/-- Is the action part of a dispatch? -/
def dispatches : Action → Bool
  | .refresh _ | .answer .. => true
  | .add .. | .remove _ | .removeAll | .prefer .. => false

/-- Every action keeps the cache right. -/
theorem change_fresh (action : Action) (fresh : tables.Fresh hierarchy version default)
    (changed : action.change hierarchy version default tables = some after) :
    after.Fresh hierarchy version default := by
  cases action with
  | add | removeAll =>
      cases changed
      exact .of_forgotten hierarchy default fresh.reached
  | remove tag =>
      cases changed
      exact fresh.removeMethod tag
  | prefer preferred other =>
      rcases Option.map_eq_some_iff.mp changed with ⟨_ | preferring, ran, rfl⟩
      · exact fresh
      · exact fresh.prefer ran
  | refresh age =>
      cases changed
      exact fresh.sync (Nat.sub_le version age)
  | answer age sought =>
      rcases Option.map_eq_some_iff.mp changed with ⟨⟨answer, asked⟩, ran, rfl⟩
      exact fresh.resolve (Nat.sub_le version age) ran

/-- What is in a cache has been asked for. -/
theorem change_asked (action : Action) {asked : Set (Tag Value)}
    (asks : (Command.act cell action).AsksOnly asked)
    (before : ∀ entry ∈ tables.cache, entry.1 ∈ asked)
    (changed : action.change hierarchy version default tables = some after) :
    ∀ entry ∈ after.cache, entry.1 ∈ asked := by
  cases action with
  | add | removeAll =>
      cases changed
      exact fun _ => nofun
  | remove tag =>
      cases changed
      unfold Dispatch.Tables.removeMethod
      split
      · exact fun _ => nofun
      · exact before
  | prefer preferred other =>
      rcases Option.map_eq_some_iff.mp changed with ⟨_ | preferring, ran, rfl⟩
      · exact before
      · intro entry member
        rw [Option.getD_some, Dispatch.Tables.prefer_eq_some ran] at member
        cases member
  | refresh age =>
      cases changed
      exact fun entry member => before entry (Dispatch.Tables.mem_of_mem_sync member)
  | answer age sought =>
      rcases Option.map_eq_some_iff.mp changed with ⟨⟨answer, _⟩, ran, rfl⟩
      intro entry member
      rcases Dispatch.Tables.mem_cache_resolve ran member with old | new
      · exact before entry old
      · rw [new]
        exact asks

end Action

/-! ## Commands in the world -/

variable {machine : Machine} {world after : World} {cell : Cell} {default : Tag Value}
  {multimethod : MultimethodCell} {taxonomy : HierarchyCell}

theorem multimethodAt_run (machine : Machine) (cell : Cell) (world : World) :
    Run.multimethodAt cell machine world =
      (world.multimethods.get? cell.index).map fun multimethod => (multimethod, world) := by
  change Run.found (world.multimethods.get? cell.index) machine world = _
  cases world.multimethods.get? cell.index <;> rfl

theorem hierarchyAt_run (machine : Machine) (cell : Taxonomy.Cell) (world : World) :
    Run.hierarchyAt cell machine world =
      (world.hierarchies.get? cell.index).map fun taxonomy => (taxonomy, world) := by
  change Run.found (world.hierarchies.get? cell.index) machine world = _
  cases world.hierarchies.get? cell.index <;> rfl

theorem snapshot_run (machine : Machine) {cell : Taxonomy.Cell}
    (present : world.hierarchies.get? cell.index = some taxonomy) :
    Taxonomy.snapshot cell machine world = some (taxonomy.hierarchy, world) := by
  have here := hierarchyAt_run machine cell world
  rw [present] at here
  rw [Taxonomy.snapshot, Run.run_bind here]
  rfl

theorem versionFor_run (machine : Machine)
    (present : world.multimethods.get? cell.index = some multimethod)
    (above : world.hierarchies.get? multimethod.hierarchy.index = some taxonomy) :
    versionFor cell machine world = some (taxonomy.version, world) := by
  have here := multimethodAt_run machine cell world
  have there := hierarchyAt_run machine multimethod.hierarchy world
  rw [present] at here
  rw [above] at there
  rw [versionFor, Run.run_bind here, Taxonomy.version, Run.run_bind there]
  rfl

theorem answer_run (machine : Machine) (version : Nat) (default sought : Tag Value)
    (present : world.multimethods.get? cell.index = some multimethod)
    (above : world.hierarchies.get? multimethod.hierarchy.index = some taxonomy) :
    answer cell version default sought machine world =
      (multimethod.tables.resolve taxonomy.hierarchy version default sought).map fun answered =>
        (answered.1, world.withTables cell answered.2) := by
  have here := multimethodAt_run machine cell world
  rw [present] at here
  rw [answer, Run.run_bind here, Run.run_bind (snapshot_run machine above)]
  cases multimethod.tables.resolve taxonomy.hierarchy version default sought <;> rfl

theorem withTables_self (present : world.multimethods.get? cell.index = some multimethod) :
    world.withTables cell multimethod.tables = world := by
  have same : ∀ other, world.multimethods.get? cell.index = some other →
      { other with tables := multimethod.tables } = other := by
    intro other found
    cases present.symm.trans found
    rfl
  rw [World.withTables, Store.modify_eq_self same]

theorem preferOver_run (machine : Machine) (preferred other : Tag Value)
    (present : world.multimethods.get? cell.index = some multimethod)
    (above : world.hierarchies.get? multimethod.hierarchy.index = some taxonomy) :
    preferOver cell preferred other machine world =
      (multimethod.tables.prefer taxonomy.hierarchy preferred other).map fun changed =>
        (changed.isSome, world.withTables cell (changed.getD multimethod.tables)) := by
  have here := multimethodAt_run machine cell world
  rw [present] at here
  rw [preferOver, Run.run_bind here, Run.run_bind (snapshot_run machine above)]
  rcases multimethod.tables.prefer taxonomy.hierarchy preferred other with _ | _ | changed
  · rfl
  · change some (false, world) = some (false, world.withTables cell multimethod.tables)
    rw [withTables_self present]
  · rfl

theorem Action.perform_run (machine : Machine) (action : Action)
    (present : world.multimethods.get? cell.index = some multimethod)
    (above : world.hierarchies.get? multimethod.hierarchy.index = some taxonomy) :
    action.perform cell default machine world =
      (action.change taxonomy.hierarchy taxonomy.version default multimethod.tables).map
        fun tables => ((), world.withTables cell tables) := by
  have here := multimethodAt_run machine cell world
  rw [present] at here
  have read := versionFor_run machine present above
  cases action with
  | add tag method =>
      rw [perform, addFor, Run.run_bind here]
      rfl
  | remove tag =>
      rw [perform, Run.run_discard, removeFor, Run.run_bind here]
      rfl
  | removeAll =>
      rw [perform, Multimethod.removeAll, Run.run_bind here]
      rfl
  | prefer preferred other =>
      rw [perform, Run.run_discard, preferOver_run machine preferred other present above, change,
        Option.map_map, Option.map_map]
      rfl
  | refresh age =>
      rw [perform, Run.run_bind read, Multimethod.refresh, Run.run_bind here]
      rfl
  | answer age sought =>
      rw [perform, Run.run_bind read, Run.run_discard,
        answer_run machine _ default sought present above, change, Option.map_map,
        Option.map_map]
      rfl

theorem Action.perform_stuck (action : Action) (default : Tag Value)
    (absent : Run.multimethodAt cell machine world = none) :
    action.perform cell default machine world = none := by
  cases action with
  | add | removeAll => exact Run.run_bind_none absent
  | remove | prefer =>
      rw [perform, Run.run_discard, Option.map_eq_none_iff]
      exact Run.run_bind_none absent
  | refresh | answer => exact Run.run_bind_none (Run.run_bind_none absent)

theorem withTaxonomy_self {cell : Taxonomy.Cell}
    (present : world.hierarchies.get? cell.index = some taxonomy) :
    world.withTaxonomy cell taxonomy = world := by
  have same : ∀ other, world.hierarchies.get? cell.index = some other → taxonomy = other := by
    intro other found
    cases present.symm.trans found
    rfl
  rw [World.withTaxonomy, Store.modify_eq_self same]

theorem install_run {α : Type} (machine : Machine) {cell : Taxonomy.Cell}
    (changed : Hierarchy Value) (answer : α)
    (present : world.hierarchies.get? cell.index = some taxonomy) :
    (do Taxonomy.install cell changed; return answer : Run α) machine world =
      some (answer, world.withTaxonomy cell ⟨changed, taxonomy.version + 1⟩) := by
  have same : (world.hierarchies.modify cell.index fun old => ⟨changed, old.version + 1⟩) =
      world.hierarchies.modify cell.index fun _ => ⟨changed, taxonomy.version + 1⟩ := by
    simp [Store.modify, present]
  change some (answer, { world with hierarchies := _ }) = _
  rw [same]
  rfl

theorem copyHierarchy_run (machine : Machine) (defaults : Cell → Tag Value)
    (cell : Taxonomy.Cell) (world : World) :
    perform defaults (.copyHierarchy cell) machine world =
      (world.hierarchies.get? cell.index).map fun taxonomy =>
        ((), { world with hierarchies := world.hierarchies.push ⟨taxonomy.hierarchy, 0⟩ }) := by
  cases present : world.hierarchies.get? cell.index with
  | none =>
      have absent := hierarchyAt_run machine cell world
      rw [present] at absent
      exact Run.run_bind_none (Run.run_bind_none absent)
  | some taxonomy =>
      rw [perform, Run.run_bind (snapshot_run machine present)]
      rfl

theorem create_run (machine : Machine) (defaults : Cell → Tag Value) (name : Symbol)
    (dispatch default : Value) (hierarchy : Taxonomy.Cell) (world : World) :
    perform defaults (.create name dispatch default hierarchy) machine world =
      (world.hierarchies.get? hierarchy.index).map fun _ =>
        ((), { world with
          multimethods :=
            world.multimethods.push ⟨name, dispatch, default, hierarchy, .empty⟩ }) := by
  have looked := Run.run_discard (Run.hierarchyAt hierarchy) machine world
  rw [hierarchyAt_run, Option.map_map] at looked
  cases present : world.hierarchies.get? hierarchy.index with
  | none =>
      rw [present] at looked
      exact Run.run_bind_none looked
  | some taxonomy =>
      rw [present] at looked
      rw [perform, Run.run_bind looked]
      rfl

theorem rearrange_run (machine : Machine) (defaults : Cell → Tag Value) (cell : Taxonomy.Cell)
    (change : Hierarchy.Change Value) (world : World) :
    perform defaults (.rearrange cell change) machine world =
      (world.hierarchies.get? cell.index).bind fun taxonomy =>
        (taxonomy.rearrange change).map fun changed => ((), world.withTaxonomy cell changed) := by
  cases present : world.hierarchies.get? cell.index with
  | none =>
      have absent := hierarchyAt_run machine cell world
      rw [present] at absent
      cases change
      all_goals
        rw [perform, Run.run_discard, Option.bind_none, Option.map_eq_none_iff]
        exact Run.run_bind_none (Run.run_bind_none absent)
  | some taxonomy =>
      have seen := snapshot_run machine present
      cases change with
      | derive child parent =>
          rw [perform, Run.run_discard, Taxonomy.link, Run.run_bind seen, Option.bind_some,
            HierarchyCell.rearrange]
          rcases taxonomy.hierarchy.derive child parent with _ | refusal | changed
          · rfl
          · rw [Option.map_some, Option.map_some, withTaxonomy_self present]
            rfl
          · exact congrArg (Option.map fun answered => ((), answered.2))
              (install_run machine changed (Except.ok ()) present)
      | underive child parent =>
          rw [perform, Run.run_discard, Taxonomy.unlink, Run.run_bind seen, Option.bind_some,
            HierarchyCell.rearrange]
          rcases taxonomy.hierarchy.underive child parent with _ | ⟨_ | _, changed⟩
          · rfl
          · change some ((), world) = some ((), world.withTaxonomy cell taxonomy)
            rw [withTaxonomy_self present]
          · exact congrArg (Option.map fun answered => ((), answered.2))
              (install_run machine changed true present)

/-- Either nothing has changed, or it is a new version. -/
theorem rearrange_cases {change : Hierarchy.Change Value} {changed : HierarchyCell}
    (ran : taxonomy.rearrange change = some changed) :
    changed = taxonomy ∨ taxonomy.hierarchy.perform change = some changed.hierarchy ∧
      taxonomy.version < changed.version := by
  cases change with
  | derive child parent =>
      rcases Option.map_eq_some_iff.mp ran with ⟨refusal | hierarchy, answer, rfl⟩
      · exact .inl rfl
      · exact .inr ⟨by rw [Hierarchy.perform, answer]; rfl, Nat.lt_succ_self _⟩
  | underive child parent =>
      rcases Option.map_eq_some_iff.mp ran with ⟨⟨_ | _, hierarchy⟩, answer, rfl⟩
      · exact .inl rfl
      · exact .inr ⟨by rw [Hierarchy.perform, answer]; rfl, Nat.lt_succ_self _⟩

/-! ## What every command keeps -/

/-- Every hierarchy has come about by changes, and the cache of every multimethod is right
for the hierarchy as it is. -/
structure Consistent (defaults : Cell → Tag Value) (asked : Set (Tag Value)) (world : World) :
    Prop where
  reached : ∀ index taxonomy, world.hierarchies.get? index = some taxonomy →
    ∃ changes, Hierarchy.performAll changes = some taxonomy.hierarchy
  fresh : ∀ index multimethod, world.multimethods.get? index = some multimethod →
    ∃ taxonomy, world.hierarchies.get? multimethod.hierarchy.index = some taxonomy ∧
      multimethod.tables.Fresh taxonomy.hierarchy taxonomy.version (defaults ⟨index⟩)
  asked : ∀ index multimethod, world.multimethods.get? index = some multimethod →
    ∀ entry ∈ multimethod.tables.cache, entry.1 ∈ asked

namespace Consistent

variable {defaults : Cell → Tag Value} {asked : Set (Tag Value)}

theorem initial : Consistent defaults asked World.initial where
  reached _ _ found := by cases Store.lt_next_of_get? found
  fresh _ _ found := by cases Store.lt_next_of_get? found
  asked _ _ found := by cases Store.lt_next_of_get? found

/-- Only hierarchies and multimethods count. -/
theorem congr (consistent : Consistent defaults asked world)
    (hierarchies : after.hierarchies = world.hierarchies)
    (multimethods : after.multimethods = world.multimethods) :
    Consistent defaults asked after where
  reached := by simpa only [hierarchies] using consistent.reached
  fresh := by simpa only [hierarchies, multimethods] using consistent.fresh
  asked := by simpa only [multimethods] using consistent.asked

theorem create_hierarchy (consistent : Consistent defaults asked world)
    {hierarchy : Hierarchy Value}
    (reached : ∃ changes, Hierarchy.performAll changes = some hierarchy) :
    Consistent defaults asked
      { world with hierarchies := world.hierarchies.push ⟨hierarchy, 0⟩ } where
  reached index taxonomy found := by
    dsimp only at found
    rw [Store.get?_push] at found
    split at found
    · cases found
      exact reached
    · exact consistent.reached index taxonomy found
  fresh index multimethod found := by
    rcases consistent.fresh index multimethod found with ⟨taxonomy, above, fresh⟩
    exact ⟨taxonomy, (Store.get?_push_of_lt _ _ (Store.lt_next_of_get? above)).trans above, fresh⟩
  asked := consistent.asked

theorem rearrange (consistent : Consistent defaults asked world) {cell : Taxonomy.Cell}
    {change : Hierarchy.Change Value} {changed : HierarchyCell}
    (present : world.hierarchies.get? cell.index = some taxonomy)
    (ran : taxonomy.rearrange change = some changed) :
    Consistent defaults asked (world.withTaxonomy cell changed) := by
  rcases rearrange_cases ran with rfl | ⟨performed, newer⟩
  · rw [withTaxonomy_self present]
    exact consistent
  constructor
  case reached =>
    intro index other found
    dsimp only [World.withTaxonomy] at found
    rw [Store.get?_modify, present] at found
    split at found
    · cases found
      rcases consistent.reached _ taxonomy present with ⟨changes, reached⟩
      exact ⟨changes ++ [change], by
        rw [Hierarchy.performAll, List.foldlM_append, ← Hierarchy.performAll, reached]
        simpa using performed⟩
    · exact consistent.reached index other found
  case fresh =>
    intro index multimethod found
    rcases consistent.fresh index multimethod found with ⟨other, above, fresh⟩
    dsimp only [World.withTaxonomy]
    rw [Store.get?_modify, present]
    split
    case isTrue here =>
      rw [here, present] at above
      cases above
      exact ⟨changed, rfl, fresh.outdated newer _⟩
    case isFalse => exact ⟨other, above, fresh⟩
  case asked => exact consistent.asked

theorem create (consistent : Consistent defaults asked world) {name : Symbol}
    {dispatch default : Value} {hierarchy : Taxonomy.Cell}
    (present : world.hierarchies.get? hierarchy.index = some taxonomy) :
    Consistent defaults asked { world with
      multimethods := world.multimethods.push ⟨name, dispatch, default, hierarchy, .empty⟩ } where
  reached := consistent.reached
  fresh index multimethod found := by
    dsimp only at found
    rw [Store.get?_push] at found
    split at found
    · cases found
      exact ⟨taxonomy, present, .empty _ _ _⟩
    · exact consistent.fresh index multimethod found
  asked index multimethod found := by
    dsimp only at found
    rw [Store.get?_push] at found
    split at found
    · cases found
      exact fun _ => nofun
    · exact consistent.asked index multimethod found

theorem withTables (consistent : Consistent defaults asked world)
    {tables : Dispatch.Tables Value Value}
    (present : world.multimethods.get? cell.index = some multimethod)
    (above : world.hierarchies.get? multimethod.hierarchy.index = some taxonomy)
    (fresh : tables.Fresh taxonomy.hierarchy taxonomy.version (defaults cell))
    (known : ∀ entry ∈ tables.cache, entry.1 ∈ asked) :
    Consistent defaults asked (world.withTables cell tables) where
  reached := consistent.reached
  fresh index other found := by
    dsimp only [World.withTables] at found
    rw [Store.get?_modify, present] at found
    split at found
    case isTrue here =>
      cases here
      cases found
      exact ⟨taxonomy, above, fresh⟩
    case isFalse => exact consistent.fresh index other found
  asked index other found := by
    dsimp only [World.withTables] at found
    rw [Store.get?_modify, present] at found
    split at found
    · cases found
      exact known
    · exact consistent.asked index other found

/-- In a consistent world an action finds its multimethod and the hierarchy of that, and
changes the tables of that one. -/
theorem exists_of_act (consistent : Consistent defaults asked world) {action : Action}
    (ran : action.perform cell (defaults cell) machine world = some ((), after)) :
    ∃ multimethod taxonomy tables,
      world.multimethods.get? cell.index = some multimethod ∧
      world.hierarchies.get? multimethod.hierarchy.index = some taxonomy ∧
      action.change taxonomy.hierarchy taxonomy.version (defaults cell) multimethod.tables =
        some tables ∧
      after = world.withTables cell tables := by
  cases present : world.multimethods.get? cell.index with
  | none =>
      have here := multimethodAt_run machine cell world
      rw [present] at here
      cases (action.perform_stuck (defaults cell) here).symm.trans ran
  | some multimethod =>
      rcases consistent.fresh _ multimethod present with ⟨taxonomy, above, -⟩
      rw [action.perform_run machine present above] at ran
      rcases Option.map_eq_some_iff.mp ran with ⟨tables, changed, pair⟩
      cases pair
      exact ⟨multimethod, taxonomy, tables, rfl, above, changed, rfl⟩

theorem perform (consistent : Consistent defaults asked world) {command : Command}
    (asks : command.AsksOnly asked)
    (ran : Multimethod.perform defaults command machine world = some ((), after)) :
    Consistent defaults asked after := by
  cases command with
  | newHierarchy =>
      cases ran
      exact consistent.create_hierarchy ⟨[], rfl⟩
  | copyHierarchy cell =>
      rw [copyHierarchy_run] at ran
      rcases Option.map_eq_some_iff.mp ran with ⟨taxonomy, present, pair⟩
      cases pair
      exact consistent.create_hierarchy (consistent.reached _ taxonomy present)
  | rearrange cell change =>
      rw [rearrange_run] at ran
      rcases Option.bind_eq_some_iff.mp ran with ⟨taxonomy, present, rest⟩
      rcases Option.map_eq_some_iff.mp rest with ⟨changed, rearranged, pair⟩
      cases pair
      exact consistent.rearrange present rearranged
  | create name dispatch default hierarchy =>
      rw [create_run] at ran
      rcases Option.map_eq_some_iff.mp ran with ⟨taxonomy, present, pair⟩
      cases pair
      exact consistent.create present
  | act cell action =>
      rcases consistent.exists_of_act ran with
        ⟨multimethod, taxonomy, tables, present, above, changed, rfl⟩
      rcases consistent.fresh _ multimethod present with ⟨same, sameAbove, fresh⟩
      cases above.symm.trans sameAbove
      exact consistent.withTables present above (action.change_fresh fresh changed)
        (action.change_asked asks (consistent.asked _ multimethod present) changed)
  | elsewhere change =>
      cases ran
      exact consistent.congr rfl rfl

theorem performAll (consistent : Consistent defaults asked world) {commands : List Command}
    (asks : ∀ command ∈ commands, command.AsksOnly asked)
    (ran : Multimethod.performAll defaults commands machine world = some ((), after)) :
    Consistent defaults asked after := by
  induction commands generalizing world with
  | nil =>
      cases ran
      exact consistent
  | cons command rest induction =>
      rcases Run.exists_of_bind ran with ⟨_, between, first, others⟩
      rcases List.forall_mem_cons.mp asks with ⟨asksFirst, asksOthers⟩
      exact induction (consistent.perform asksFirst first) asksOthers others

end Consistent

/-- A tag that has nothing but a label. -/
def bare (label : Nat) : Tag Value := .plain label .nil

def sharingCommands : List Command :=
  [.newHierarchy,
    .rearrange ⟨0⟩ (.derive (bare 0) (bare 1)),
    .create ⟨none, "first"⟩ .nil .nil ⟨0⟩,
    .create ⟨none, "second"⟩ .nil .nil ⟨0⟩,
    .act ⟨0⟩ (.add (bare 1) (.boolean true)),
    .act ⟨0⟩ (.refresh 0),
    .act ⟨0⟩ (.answer 0 (bare 0)),
    .rearrange ⟨0⟩ (.derive (bare 0) (bare 1)),
    .act ⟨1⟩ (.prefer (bare 2) (bare 3)),
    .act ⟨0⟩ (.refresh 0),
    .act ⟨0⟩ (.answer 0 (bare 0)),
    .act ⟨0⟩ (.answer 0 (bare 2))]

end Multimethod

end LispRuntime
