import LispRuntime.Proofs.Hierarchy.Alike
import LispRuntime.Proofs.Multimethod.Commands

/-! Can one tell from the answers of a multimethod what it was asked before? A cache finds an
answer by the label alone, while an answer is worked out by what the tag is a kind of. So
what was answered before can be told exactly where tags with one label are not alike. -/

namespace LispRuntime

namespace World

/-- The multimethod has its methods and preferences, but no answers from before. -/
def emptied (world : World) (cell : Multimethod.Cell) : World :=
  { world with
    multimethods := world.multimethods.modify cell.index fun multimethod =>
      { multimethod with tables := multimethod.tables.forget } }

end World

namespace Multimethod

open Dispatch.Tables

/-- Asks for the method of a tag. -/
def ask (cell : Cell) (default sought : Tag Value) :
    Run (Except (Tie Value) (Option Value)) := do
  let version ← versionFor cell
  Multimethod.refresh cell version
  answer cell version default sought

/-- The answer in a world, whatever becomes of the world. -/
def answerIn (machine : Machine) (world : World) (cell : Cell) (default sought : Tag Value) :
    Option (Except (Tie Value) (Option Value)) :=
  (ask cell default sought machine world).map Prod.fst

def Command.dispatches : Command → Bool
  | .act _ action => action.dispatches
  | _ => false

/-- In whatever way the multimethods have been used, as long as they were asked for the given
tags only: each of these tags has an answer, which is the answer of a cache that has been
emptied, and the answer if nothing had ever been dispatched. -/
def Unobservable (asked : Set (Tag Value)) : Prop :=
  ∀ machine defaults commands world (cell : Cell) multimethod,
    (∀ command ∈ commands, Command.AsksOnly asked command) →
    performAll defaults commands machine World.initial = some ((), world) →
    world.multimethods.get? cell.index = some multimethod →
    ∀ sought ∈ asked, ∃ answered undispatched,
      answerIn machine world cell (defaults cell) sought = some answered ∧
      answerIn machine (world.emptied cell) cell (defaults cell) sought = some answered ∧
      performAll defaults (commands.filter fun command => !command.dispatches) machine
        World.initial = some ((), undispatched) ∧
      answerIn machine undispatched cell (defaults cell) sought = some answered

variable {machine : Machine} {world other after : World} {cell : Cell}
  {default sought : Tag Value} {multimethod : MultimethodCell} {taxonomy : HierarchyCell}
  {defaults : Cell → Tag Value} {asked : Set (Tag Value)}

theorem refresh_run (machine : Machine) (version : Nat)
    (present : world.multimethods.get? cell.index = some multimethod) :
    Multimethod.refresh cell version machine world =
      some ((), world.withTables cell (multimethod.tables.sync version)) := by
  have here := multimethodAt_run machine cell world
  rw [present] at here
  rw [Multimethod.refresh, Run.run_bind here]
  rfl

theorem answerIn_eq (machine : Machine) (default sought : Tag Value)
    (present : world.multimethods.get? cell.index = some multimethod)
    (above : world.hierarchies.get? multimethod.hierarchy.index = some taxonomy) :
    answerIn machine world cell default sought =
      (multimethod.tables.resolve taxonomy.hierarchy taxonomy.version default sought).map
        Prod.fst := by
  have refreshed := refresh_run machine taxonomy.version present
  have still : (world.withTables cell
      (multimethod.tables.sync taxonomy.version)).multimethods.get? cell.index =
        some { multimethod with tables := multimethod.tables.sync taxonomy.version } := by
    rw [World.withTables, Store.get?_modify, if_pos rfl, present]
    rfl
  rw [answerIn, ask, Run.run_bind (versionFor_run machine present above),
    Run.run_bind refreshed, answer_run machine taxonomy.version default sought still above,
    Option.map_map, resolve_sync]
  rfl

/-- What the rules of the tables make of the tag. -/
theorem answerIn_emptied (machine : Machine) (default sought : Tag Value)
    (present : world.multimethods.get? cell.index = some multimethod)
    (above : world.hierarchies.get? multimethod.hierarchy.index = some taxonomy) :
    answerIn machine (world.emptied cell) cell default sought =
      multimethod.tables.uncached taxonomy.hierarchy default sought := by
  have still : (world.emptied cell).multimethods.get? cell.index =
      some { multimethod with tables := multimethod.tables.forget } := by
    rw [World.emptied, Store.get?_modify, if_pos rfl, present]
    rfl
  rw [answerIn_eq machine default sought still above]
  exact resolve_forget ..

/-- A dispatch value is asked for as a tag. To make it one leaves hierarchies and
multimethods alone, unless it calls a function that does not. -/
theorem methodFor_run {dispatchValue : Value} {half tagged : World} {method : Option Value}
    (present : world.multimethods.get? cell.index = some multimethod)
    (above : world.hierarchies.get? multimethod.hierarchy.index = some taxonomy)
    (nonempty : multimethod.tables.methods.isEmpty = false)
    (tagging : dispatchValue.toTag machine
      (world.withTables cell (multimethod.tables.sync taxonomy.version)) = some (sought, half))
    (taggingDefault : multimethod.default.toTag machine half = some (default, tagged))
    (hierarchies : tagged.hierarchies = world.hierarchies)
    (multimethods : tagged.multimethods =
      (world.withTables cell (multimethod.tables.sync taxonomy.version)).multimethods)
    (answered : answerIn machine world cell default sought = some (.ok method)) :
    ((methodFor cell dispatchValue).run machine world).map Prod.fst = some (.ok method) := by
  have here := multimethodAt_run machine cell world
  have there := hierarchyAt_run machine multimethod.hierarchy world
  rw [present] at here
  rw [above] at there
  have version : Taxonomy.version multimethod.hierarchy machine world =
      some (taxonomy.version, world) := by
    rw [Taxonomy.version, Run.run_bind there]
    rfl
  have refreshed := refresh_run machine taxonomy.version present
  have still : tagged.multimethods.get? cell.index =
      some { multimethod with tables := multimethod.tables.sync taxonomy.version } := by
    rw [multimethods, World.withTables, Store.get?_modify, if_pos rfl, present]
    rfl
  rw [answerIn_eq machine default sought present above, ← resolve_sync] at answered
  rcases Option.map_eq_some_iff.mp answered with ⟨⟨_, tables⟩, resolved, rfl⟩
  have asked := answer_run machine taxonomy.version default sought still
    (hierarchies ▸ above)
  rw [resolved] at asked
  rw [methodFor, Attempt.run_first here, Attempt.run_first version,
    Attempt.run_first refreshed, if_neg (Bool.eq_false_iff.mp nonempty),
    Attempt.run_first tagging, Attempt.run_first taggingDefault]
  exact congrArg (Option.map Prod.fst) (Attempt.run_first asked)

/-! ## Rules without caches -/

namespace Action

variable {tables right left : Dispatch.Tables Value Value} {hierarchy : Hierarchy Value}
  {version : Nat}

/-- Dispatching leaves the methods and the preferences as they are. -/
theorem change_of_dispatches {action : Action} (dispatching : action.dispatches = true)
    (changed : action.change hierarchy version default tables = some left) :
    SameRules left tables := by
  cases action with
  | refresh age =>
      cases changed
      exact .sync tables _
  | answer age sought =>
      rcases Option.map_eq_some_iff.mp changed with ⟨⟨answer, _⟩, ran, rfl⟩
      exact .resolve ran
  | add | remove | removeAll | prefer => cases dispatching

/-- What else is done goes by the methods and the preferences alone. -/
theorem change_congr {action : Action} (changing : action.dispatches = false)
    {leftAfter : Dispatch.Tables Value Value} (rules : SameRules left right)
    (changed : action.change hierarchy version default left = some leftAfter) :
    ∃ rightAfter, action.change hierarchy version default right = some rightAfter ∧
      SameRules leftAfter rightAfter := by
  cases action with
  | add tag method =>
      cases changed
      exact ⟨_, rfl, congrArg (TagTable.insert · tag method) rules.methods, rules.preferences⟩
  | remove tag =>
      cases changed
      refine ⟨_, rfl, ?_⟩
      unfold Dispatch.Tables.removeMethod
      rw [← rules.methods]
      split
      · exact ⟨rfl, rules.preferences⟩
      · exact rules
  | removeAll =>
      cases changed
      exact ⟨_, rfl, rfl, rfl⟩
  | prefer preferred other =>
      rw [change, Dispatch.Tables.prefer, rules.prefers_eq, rules.preferences] at changed
      rw [change, Dispatch.Tables.prefer]
      cases searched : right.prefers hierarchy (climbingFuel hierarchy) other preferred with
      | none =>
          rw [searched] at changed
          cases changed
      | some isRefused =>
          rw [searched] at changed
          cases isRefused with
          | true =>
              cases changed
              exact ⟨_, rfl, rules⟩
          | false =>
              cases changed
              exact ⟨_, rfl, rules.methods, rfl⟩
  | refresh | answer => cases changing

end Action

/-! ## Worlds with other caches -/

/-- The multimethods have one hierarchy and the same methods and preferences. -/
structure SameMultimethod (left right : MultimethodCell) : Prop where
  hierarchy : left.hierarchy = right.hierarchy
  rules : SameRules left.tables right.tables

/-- The worlds differ, as far as hierarchies and multimethods go, in caches at most. -/
structure Similar (world other : World) : Prop where
  hierarchies : other.hierarchies = world.hierarchies
  next : other.multimethods.next = world.multimethods.next
  multimethods : ∀ index left right, world.multimethods.get? index = some left →
    other.multimethods.get? index = some right → SameMultimethod left right

namespace Similar

theorem refl (world : World) : Similar world world where
  hierarchies := rfl
  next := rfl
  multimethods index left right found again := by
    cases found.symm.trans again
    exact ⟨rfl, .refl _⟩

theorem exists_multimethod (similar : Similar world other)
    (present : world.multimethods.get? cell.index = some multimethod) :
    ∃ twin, other.multimethods.get? cell.index = some twin ∧ SameMultimethod multimethod twin := by
  have bound : cell.index < other.multimethods.next :=
    similar.next ▸ Store.lt_next_of_get? present
  rcases Store.exists_of_lt_next bound with ⟨twin, found⟩
  exact ⟨twin, found, similar.multimethods _ _ _ present found⟩

theorem withTables (similar : Similar world other) {twin : MultimethodCell}
    {tables twinTables : Dispatch.Tables Value Value}
    (present : world.multimethods.get? cell.index = some multimethod)
    (twinPresent : other.multimethods.get? cell.index = some twin)
    (rules : SameRules tables twinTables) :
    Similar (world.withTables cell tables) (other.withTables cell twinTables) where
  hierarchies := similar.hierarchies
  next := by simp [World.withTables, similar.next]
  multimethods index left right found again := by
    dsimp only [World.withTables] at found again
    rw [Store.get?_modify] at found again
    split at found
    case isTrue here =>
      rw [present] at found
      rw [if_pos here, twinPresent] at again
      cases found
      cases again
      exact ⟨(similar.multimethods _ _ _ present twinPresent).hierarchy, rules⟩
    case isFalse elsewhere =>
      rw [if_neg elsewhere] at again
      exact similar.multimethods index left right found again

theorem push (similar : Similar world other) (multimethod : MultimethodCell) :
    Similar { world with multimethods := world.multimethods.push multimethod }
      { other with multimethods := other.multimethods.push multimethod } where
  hierarchies := similar.hierarchies
  next := by simp [similar.next]
  multimethods index left right found again := by
    dsimp only at found again
    rw [Store.get?_push] at found again
    rw [similar.next] at again
    split at found
    case isTrue here =>
      rw [if_pos here] at again
      cases found
      cases again
      exact ⟨rfl, .refl _⟩
    case isFalse elsewhere =>
      rw [if_neg elsewhere] at again
      exact similar.multimethods index left right found again

/-- Only hierarchies and multimethods count. -/
theorem congr {otherAfter : World} (similar : Similar world other)
    (hierarchies : otherAfter.hierarchies = after.hierarchies)
    (multimethods : after.multimethods = world.multimethods)
    (otherMultimethods : otherAfter.multimethods = other.multimethods) :
    Similar after otherAfter where
  hierarchies := hierarchies
  next := by rw [multimethods, otherMultimethods, similar.next]
  multimethods := by simpa only [multimethods, otherMultimethods] using similar.multimethods

theorem act (similar : Similar world other) (consistent : Consistent defaults asked world)
    {action : Action}
    (ran : action.perform cell (defaults cell) machine world = some ((), after)) :
    if action.dispatches then Similar after other
    else ∃ otherAfter,
      action.perform cell (defaults cell) machine other = some ((), otherAfter) ∧
        Similar after otherAfter := by
  rcases consistent.exists_of_act ran with
    ⟨multimethod, taxonomy, tables, present, above, changed, rfl⟩
  rcases similar.exists_multimethod present with ⟨twin, twinPresent, same⟩
  split
  case isTrue dispatching =>
    rw [← withTables_self twinPresent]
    exact similar.withTables present twinPresent
      ((Action.change_of_dispatches dispatching changed).trans same.rules)
  case isFalse changing =>
    rcases Action.change_congr (Bool.eq_false_iff.mpr changing) same.rules changed with
      ⟨twinTables, twinChanged, rules⟩
    have twinAbove : other.hierarchies.get? twin.hierarchy.index = some taxonomy := by
      rw [similar.hierarchies, ← same.hierarchy, above]
    refine ⟨other.withTables cell twinTables, ?_, similar.withTables present twinPresent rules⟩
    rw [action.perform_run machine twinPresent twinAbove, twinChanged]
    rfl

/-- Dispatching is not seen elsewhere, and everything else goes as if nothing had ever been
dispatched. -/
theorem perform (similar : Similar world other) (consistent : Consistent defaults asked world)
    {command : Command}
    (ran : Multimethod.perform defaults command machine world = some ((), after)) :
    if command.dispatches then Similar after other
    else ∃ otherAfter, Multimethod.perform defaults command machine other =
      some ((), otherAfter) ∧ Similar after otherAfter := by
  cases command with
  | newHierarchy =>
      cases ran
      exact ⟨_, rfl, similar.congr (by rw [similar.hierarchies]) rfl rfl⟩
  | copyHierarchy cell =>
      rw [copyHierarchy_run] at ran
      rcases Option.map_eq_some_iff.mp ran with ⟨taxonomy, present, pair⟩
      cases pair
      have again := copyHierarchy_run machine defaults cell other
      rw [similar.hierarchies, present] at again
      exact ⟨_, again, similar.congr rfl rfl rfl⟩
  | rearrange cell change =>
      rw [rearrange_run] at ran
      rcases Option.bind_eq_some_iff.mp ran with ⟨taxonomy, present, rest⟩
      rcases Option.map_eq_some_iff.mp rest with ⟨changed, rearranged, pair⟩
      cases pair
      refine ⟨other.withTaxonomy cell changed, ?_,
        similar.congr (by simp only [World.withTaxonomy, similar.hierarchies]) rfl rfl⟩
      rw [rearrange_run, similar.hierarchies, present, Option.bind_some, rearranged]
      rfl
  | create name dispatch default hierarchy =>
      rw [create_run] at ran
      rcases Option.map_eq_some_iff.mp ran with ⟨taxonomy, present, pair⟩
      cases pair
      have again := create_run machine defaults name dispatch default hierarchy other
      rw [similar.hierarchies, present] at again
      exact ⟨_, again, (similar.push _).congr rfl rfl rfl⟩
  | act cell action => exact similar.act consistent ran
  | elsewhere change =>
      cases ran
      exact ⟨_, rfl, similar.congr similar.hierarchies rfl rfl⟩

theorem performAll (similar : Similar world other) (consistent : Consistent defaults asked world)
    {commands : List Command} (asks : ∀ command ∈ commands, command.AsksOnly asked)
    (ran : Multimethod.performAll defaults commands machine world = some ((), after)) :
    ∃ otherAfter, Multimethod.performAll defaults
        (commands.filter fun command => !command.dispatches) machine other =
      some ((), otherAfter) ∧ Similar after otherAfter := by
  induction commands generalizing world other with
  | nil =>
      cases ran
      exact ⟨other, rfl, similar⟩
  | cons command rest induction =>
      rcases Run.exists_of_bind ran with ⟨_, between, first, others⟩
      rcases List.forall_mem_cons.mp asks with ⟨asksFirst, asksOthers⟩
      have still := consistent.perform asksFirst first
      have step := similar.perform consistent first
      cases dispatching : command.dispatches with
      | true =>
          rw [if_pos dispatching] at step
          rcases induction step still asksOthers others with ⟨otherAfter, otherRan, last⟩
          exact ⟨otherAfter, by simpa [dispatching] using otherRan, last⟩
      | false =>
          rw [if_neg (Bool.eq_false_iff.mp dispatching)] at step
          rcases step with ⟨otherBetween, otherFirst, middle⟩
          rcases induction middle still asksOthers others with ⟨otherAfter, otherRan, last⟩
          refine ⟨otherAfter, ?_, last⟩
          rw [List.filter_cons_of_pos (by simp [dispatching])]
          exact (Run.run_bind otherFirst).trans otherRan

end Similar

/-! ## Answers from before -/

/-- An answer is worked out for the tag, or was worked out for another one with its label. -/
theorem Consistent.answerIn_eq (consistent : Consistent defaults asked world)
    (alike : ∀ left ∈ asked, ∀ right ∈ asked, left.label = right.label →
      left.alike right = true)
    (among : sought ∈ asked) (machine : Machine)
    (present : world.multimethods.get? cell.index = some multimethod)
    (above : world.hierarchies.get? multimethod.hierarchy.index = some taxonomy) :
    answerIn machine world cell (defaults cell) sought =
        multimethod.tables.uncached taxonomy.hierarchy (defaults cell) sought ∧
      (multimethod.tables.uncached taxonomy.hierarchy (defaults cell) sought).isSome := by
  rcases consistent.fresh _ multimethod present with ⟨same, sameAbove, fresh⟩
  cases above.symm.trans sameAbove
  rcases consistent.reached _ taxonomy above with ⟨changes, reached⟩
  have sound := Hierarchy.sound_of_performAll reached
  refine ⟨?_, uncached_isSome _ sound _ _⟩
  rcases fresh.resolve_eq sound sought with
    ⟨tag, answered, tables, resolved, known, label, worked⟩
  have member : tag ∈ asked := by
    rcases known with rfl | ⟨method, cached⟩
    · exact among
    · exact consistent.asked _ multimethod present _ cached
  rw [Multimethod.answerIn_eq machine _ sought present above, resolved, Option.map_some,
    ← worked]
  exact uncached_congr _ _ label
    (Hierarchy.isa_eq_of_alike _ tag sought · (alike tag member sought among label))

theorem unobservable_of_alike
    (alike : ∀ left ∈ asked, ∀ right ∈ asked, left.label = right.label →
      left.alike right = true) : Unobservable asked := by
  intro machine defaults commands world cell multimethod asks ran present sought among
  have start : Consistent defaults asked World.initial := .initial
  have consistent := start.performAll asks ran
  rcases consistent.fresh _ multimethod present with ⟨taxonomy, above, -⟩
  rcases consistent.answerIn_eq alike among machine present above with ⟨answered, isSome⟩
  rcases Option.isSome_iff_exists.mp isSome with ⟨worked, isWorked⟩
  rcases (Similar.refl World.initial).performAll start asks ran with
    ⟨undispatched, undispatchedRan, similar⟩
  have asksStill : ∀ command ∈ commands.filter fun command => !command.dispatches,
      command.AsksOnly asked := fun command member => asks command (List.mem_of_mem_filter member)
  have stillConsistent := start.performAll asksStill undispatchedRan
  rcases similar.exists_multimethod present with ⟨twin, twinPresent, same⟩
  have twinAbove : undispatched.hierarchies.get? twin.hierarchy.index = some taxonomy := by
    rw [similar.hierarchies, ← same.hierarchy, above]
  rcases stillConsistent.answerIn_eq alike among machine twinPresent twinAbove with
    ⟨twinAnswered, -⟩
  refine ⟨worked, undispatched, answered.trans isWorked, ?_, undispatchedRan, ?_⟩
  · rw [answerIn_emptied machine _ sought present above, isWorked]
  · rw [twinAnswered, ← same.rules.uncached_eq, isWorked]

/-! ## Telling what was asked before -/

section

variable {key left right : Tag Value}

/-- A multimethod with one method answers it for every kind of its key. -/
theorem uncached_single {tables : Dispatch.Tables Value Value} {hierarchy : Hierarchy Value}
    {method : Value} (only : tables.methods = [(key, method)]) (sound : hierarchy.Sound)
    (default sought : Tag Value) :
    tables.uncached hierarchy default sought =
      some (.ok (if hierarchy.isa sought key then some method
        else tables.methods.lookup default)) := by
  have best : tables.bestMatch hierarchy sought [(key, method)] none =
      some (.ok (if hierarchy.isa sought key then some method else none)) := by
    by_cases kind : hierarchy.isa sought (key, method).1 = true
    · rw [bestMatch_first sound kind, if_pos kind]
      rfl
    · rw [bestMatch_of_not kind, if_neg kind]
      rfl
  rw [uncached, findMethod, only, TagTable.lookup_cons]
  by_cases label : sought.label = key.label
  · rw [if_pos label, if_pos (hierarchy.isa_of_label_eq label)]
    rfl
  · have none : TagTable.lookup ([] : TagTable Value Value) sought = none := rfl
    rw [if_neg label, none, best]
    by_cases kind : hierarchy.isa sought key = true
    · simp [kind, orDefault, Except.map]
    · simp [kind, orDefault, Except.map, only]

/-- A multimethod with these tables, whose hierarchy has no links. -/
def observer (tables : Dispatch.Tables Value Value) : MultimethodCell :=
  ⟨⟨none, "observer"⟩, .nil, .nil, ⟨0⟩, tables⟩

def withObserver (tables : Dispatch.Tables Value Value) : World :=
  { World.initial with
    hierarchies := Store.empty.push ⟨.empty, 0⟩
    multimethods := Store.empty.push (observer tables) }

theorem observer_present (tables : Dispatch.Tables Value Value) :
    (withObserver tables).multimethods.get? (⟨0⟩ : Cell).index =
      some (observer tables) :=
  rfl

theorem observer_above (tables : Dispatch.Tables Value Value) :
    (withObserver tables).hierarchies.get? (observer tables).hierarchy.index =
      some ⟨.empty, 0⟩ :=
  rfl

/-- Makes a multimethod with one method, and asks it for a tag. -/
def observingCommands (key sought : Tag Value) : List Command :=
  [.newHierarchy, .create ⟨none, "observer"⟩ .nil .nil ⟨0⟩, .act ⟨0⟩ (.add key .nil),
    .act ⟨0⟩ (.answer 0 sought)]

/-- The answer is kept. -/
theorem observingCommands_run (machine : Machine) (defaults : Cell → Tag Value)
    (kind : Hierarchy.empty.isa left key = true) :
    performAll defaults (observingCommands key left) machine World.initial =
      some ((), withObserver ⟨[(key, .nil)], [], [(left, .nil)], 0⟩) := by
  let tables : Dispatch.Tables Value Value := ⟨[(key, .nil)], [], [], 0⟩
  have only : tables.methods = [(key, .nil)] := rfl
  have made : performAll defaults (observingCommands key left) machine World.initial =
      performAll defaults [.act ⟨0⟩ (.answer 0 left)] machine (withObserver tables) := rfl
  have resolved : tables.resolve .empty 0 (defaults ⟨0⟩) left =
      some (.ok (some .nil), { tables with cache := [(left, .nil)] }) := by
    have unknown : (tables.sync 0).cache.lookup left = none := rfl
    rw [resolve_of_not_cached unknown,
      uncached_single only Hierarchy.sound_empty, if_pos kind]
    rfl
  have acted : perform defaults (.act ⟨0⟩ (.answer 0 left)) machine (withObserver tables) =
      some ((), withObserver { tables with cache := [(left, .nil)] }) := by
    rw [perform, Action.perform_run machine _ (observer_present tables) (observer_above tables),
      Action.change]
    change Option.map _ (Option.map _ (tables.resolve .empty 0 (defaults ⟨0⟩) left)) = _
    rw [resolved]
    rfl
  rw [made]
  exact Run.run_bind acted

/-- Tags that are told apart by a third one have different answers from a multimethod with a
method for that one. If they have one label, the answer for the first is there for the
second. -/
theorem not_unobservable (label : left.label = right.label)
    (leftAsked : left ∈ asked) (rightAsked : right ∈ asked)
    (kind : Hierarchy.empty.isa left key = true)
    (notKind : Hierarchy.empty.isa right key = false) : ¬Unobservable asked := by
  intro unobservable
  let machine : Machine := ⟨fun _ _ _ _ => none, [], 0⟩
  let tables : Dispatch.Tables Value Value := ⟨[(key, .nil)], [], [(left, .nil)], 0⟩
  have only : tables.methods = [(key, .nil)] := rfl
  have asks : ∀ command ∈ observingCommands key left, command.AsksOnly asked := by
    simp [observingCommands, Command.AsksOnly, leftAsked]
  have ran := observingCommands_run machine (fun _ => right) kind
  rcases unobservable machine (fun _ => right) _ _ ⟨0⟩ _ asks ran (observer_present tables) right
    rightAsked with ⟨answered, _, kept, worked, -⟩
  -- The first answer is found again by the label.
  have known : (tables.sync 0).cache.lookup right = some .nil := by
    change TagTable.lookup [(left, Value.nil)] right = some .nil
    rw [TagTable.lookup_cons, if_pos label.symm]
  rw [answerIn_eq machine right right (observer_present tables) (observer_above tables)] at kept
  have resolved : tables.resolve .empty 0 right right = some (.ok (some .nil), tables.sync 0) :=
    resolve_of_cached known
  -- Without it there is no method.
  have different : right.label ≠ key.label := by
    intro same
    cases notKind.symm.trans (Hierarchy.empty.isa_of_label_eq same)
  have emptied := answerIn_emptied machine right right (observer_present tables)
    (observer_above tables)
  have missing : tables.uncached .empty right right = some (.ok none) := by
    rw [uncached_single only Hierarchy.sound_empty, if_neg (Bool.eq_false_iff.mp notKind)]
    change some (Except.ok (TagTable.lookup [(key, Value.nil)] right)) = _
    rw [TagTable.lookup_cons, if_neg different]
    rfl
  cases missing.symm.trans (emptied.symm.trans worked)
  cases (congrArg (Option.map Prod.fst) resolved).symm.trans kept

end

end Multimethod

end LispRuntime
