import LispRuntime.Proofs.Namespace.Commands

/-! What becomes of a namespace when every public var of another one is referred to it. The vars
come one after the other, in an order that is nobody's choice, and the first one that has a var
of the namespace's own in its way is the last. Those before it stay. -/

namespace LispRuntime

namespace Space

open Naming

variable {machine : Machine} {world : World} {space source : Space.Cell}
  {content sourceContent : SpaceCell} {entries order : List Mapping} {entry : Mapping}

/-- The namespace refers to these vars as well, and nothing else has changed. -/
structure Referred (world : World) (space : Space.Cell) (entries : List Mapping) (after : World) :
    Prop where
  mapped : ∀ entry ∈ entries, after.mapped space entry.1 = some entry.2
  kept : ∀ symbol ∉ entries.map Prod.fst, after.mapped space symbol = world.mapped space symbol
  elsewhere : ∀ other ≠ space, ∀ symbol, after.mapped other symbol = world.mapped other symbol
  onlyMappings : ∃ table : List Mapping → List Mapping, after =
    Change.inSpace world space fun content => { content with mappings := table content.mappings }

theorem referred_referring (present : world.spaces.get? space.index = some content)
    (distinct : Distinct entries) :
    Referred world space entries (referring world space entries) where
  mapped _ member := referring_maps distinct present member
  kept symbol absent := by
    rw [mapped_referring distinct world present, if_pos rfl, findSymbol_eq_none absent]
    rfl
  elsewhere other different symbol := by
    rw [mapped_referring distinct world present, if_neg different]
  onlyMappings := ⟨insertEach entries, rfl⟩

/-- There is no trace of vars only if they had been referred before. -/
theorem Referred.unchanged_iff {after : World} (referred : Referred world space entries after) :
    (∀ symbol, after.mapped space symbol = world.mapped space symbol) ↔
      ∀ entry ∈ entries, world.mapped space entry.1 = some entry.2 := by
  constructor
  · intro same entry member
    rw [← same, referred.mapped entry member]
  · intro before symbol
    by_cases listed : symbol ∈ entries.map Prod.fst
    · rcases List.mem_map.mp listed with ⟨entry, member, rfl⟩
      rw [referred.mapped entry member, before entry member]
    · exact referred.kept symbol listed

/-- The first of the vars that has another one in its way. -/
theorem exists_first_barred (world : World) (space : Space.Cell) (order : List Mapping) :
    (∀ entry ∈ order, ¬ Barred world space entry) ∨
    ∃ earlier entry later, order = earlier ++ entry :: later ∧
      (∀ entry ∈ earlier, ¬ Barred world space entry) ∧ Barred world space entry := by
  induction order with
  | nil => exact .inl nofun
  | cons entry rest induction =>
      by_cases barred : Barred world space entry
      · exact .inr ⟨[], entry, rest, rfl, nofun, barred⟩
      · rcases induction with free | ⟨earlier, first, later, rfl, free, firstBarred⟩
        · exact .inl (List.forall_mem_cons.mpr ⟨barred, free⟩)
        · exact .inr ⟨entry :: earlier, first, later, rfl,
            List.forall_mem_cons.mpr ⟨barred, free⟩, firstBarred⟩

/-- The first var with another one in its way is turned down, and none after it is tried. -/
theorem referEach_error (machine : Machine) (orderly : Orderly world)
    (present : world.spaces.get? space.index = some content) {earlier later : List Mapping}
    (distinct : Distinct (earlier ++ entry :: later))
    (there : ∀ entry ∈ earlier, entry.2.index < world.vars.next)
    (free : ∀ entry ∈ earlier, ¬ Barred world space entry) (barred : Barred world space entry) :
    ∃ own ownContent, world.ownVar space entry.1 = some own ∧ own ≠ entry.2 ∧
      world.vars.get? own.index = some ownContent ∧
      (Space.referEach space (earlier ++ entry :: later)).run machine world =
        some (.error (.referConflict entry.1 ownContent.text content.name),
          referring world space earlier) := by
  rcases referEach_free machine orderly present distinct there free with ⟨ran, orderlyThen, same⟩
  rcases barred with ⟨own, found, different⟩
  have isMapped := (World.ownVar_eq_some_iff.mp found).1
  rcases Store.exists_of_lt_next (mapped_there orderly isMapped) with ⟨ownContent, ownFound⟩
  refine ⟨own, ownContent, found, different, ownFound, ran.trans ?_⟩
  -- The var stands in the way after the earlier ones have been referred, too.
  have absent : entry.1 ∉ earlier.map Prod.fst := by
    rw [Distinct, List.map_append, List.map_cons, List.nodup_append] at distinct
    exact fun member => distinct.2.2 _ member _ (List.mem_cons_self ..) rfl
  have presentThen : (referring world space earlier).spaces.get? space.index =
      some { content with mappings := insertEach earlier content.mappings } :=
    Store.get?_modify_self present _
  have ownThen : (referring world space earlier).ownVar space entry.1 = some own := by
    rw [World.ownVar, (referred_referring present
      (distinct.sublist ((List.sublist_append_left ..).map _))).kept entry.1 absent]
    exact found
  have refused := refer_barred machine orderlyThen presentThen ownThen different ownFound
  exact Attempt.run_bind_error refused

end Space

namespace Naming

open Space

variable {machine : Machine} {world : World} {space source : Space.Cell}
  {content sourceContent : SpaceCell}

/-- In every world that commands lead to, and in whichever order the public vars of a namespace
come: where none has another var in its way, all of them are referred. Otherwise those before
the first that has one are referred, and the attempt fails with the conflict. Only if they had
been referred before are the mappings what they were. -/
theorem performAll_refers_until_barred (positive : 0 < machine.limit) {commands : List Command}
    (ran : performAll commands machine World.initial = some ((), world))
    (present : world.spaces.get? space.index = some content)
    (sourcePresent : world.spaces.get? source.index = some sourceContent) :
    ∃ listed, Space.publics source machine world = some (listed, world) ∧
      (Space.referAll space source).run machine world =
        (Space.referEach space listed).run machine world ∧
      ∀ order : List Mapping, order.Perm listed →
        ((∀ entry ∈ listed, ¬ Barred world space entry) ∧ ∃ after,
          (Space.referEach space order).run machine world = some (.ok (), after) ∧
          Referred world space order after) ∨
        ∃ earlier entry later own ownContent after, order = earlier ++ entry :: later ∧
          (∀ entry ∈ earlier, ¬ Barred world space entry) ∧
          world.ownVar space entry.1 = some own ∧ own ≠ entry.2 ∧
          world.vars.get? own.index = some ownContent ∧
          (Space.referEach space order).run machine world =
            some (.error (.referConflict entry.1 ownContent.text content.name), after) ∧
          Referred world space earlier after ∧
          ((∀ symbol, after.mapped space symbol = world.mapped space symbol) ↔
            ∀ entry ∈ earlier, world.mapped space entry.1 = some entry.2) := by
  have orderly := orderly_of_performAll positive .initial ran
  have publicsRun := publics_run positive orderly sourcePresent
  refine ⟨_, publicsRun, Attempt.run_first publicsRun, fun order perm => ?_⟩
  have distinct : Distinct order :=
    (perm.map _).nodup_iff.mpr (distinct_listing orderly sourcePresent)
  have there : ∀ entry ∈ order, entry.2.index < world.vars.next := fun entry member =>
    there_of_mem_listing orderly sourcePresent entry (perm.mem_iff.mp member)
  rcases exists_first_barred world space order with
    free | ⟨earlier, entry, later, rfl, free, barred⟩
  · exact .inl ⟨fun entry member => free entry (perm.mem_iff.mpr member), _,
      referEach_ok machine orderly present distinct there free, referred_referring present distinct⟩
  · rcases referEach_error machine orderly present distinct
      (fun entry member => there entry (List.mem_append_left _ member)) free barred with
      ⟨own, ownContent, found, different, ownFound, failed⟩
    have referred := referred_referring present
      (distinct.sublist ((List.sublist_append_left earlier (entry :: later)).map _))
    exact .inr ⟨earlier, entry, later, own, ownContent, _, rfl, free, found, different, ownFound,
      failed, referred, referred.unchanged_iff⟩

/-- Two vars are public in one namespace, and the other namespace has one of its own under the
symbol of the second. -/
def conflictingCommands : List Command :=
  [.createSpace (.unqualifiedName "app"), .createSpace (.unqualifiedName "lib"),
    .intern ⟨1⟩ (.unqualifiedName "x"), .intern ⟨1⟩ (.unqualifiedName "y"),
    .intern ⟨0⟩ (.unqualifiedName "y")]

/-- The first var stays referred though the attempt has failed. -/
theorem referred_before_conflict :
    ((performAll conflictingCommands quiet World.initial).bind fun reached =>
      ((Space.referAll ⟨0⟩ ⟨1⟩).run quiet reached.2).map fun ended =>
        (ended.1, reached.2.mapped ⟨0⟩ (.unqualifiedName "x"),
          ended.2.mapped ⟨0⟩ (.unqualifiedName "x"))) =
      some (.error (.referConflict (.unqualifiedName "y") "#'app/y" (.unqualifiedName "app")),
        none, some ⟨0⟩) := by
  decide +kernel

/-- In the other order the conflict comes first, and nothing changes. -/
theorem conflict_first_changes_nothing : ∃ world after,
    performAll conflictingCommands quiet World.initial = some ((), world) ∧
    (Space.referEach ⟨0⟩ [(.unqualifiedName "y", ⟨1⟩), (.unqualifiedName "x", ⟨0⟩)]).run quiet
        world = some (.error (.referConflict (.unqualifiedName "y") "#'app/y"
          (.unqualifiedName "app")), after) ∧
    ∀ symbol, after.mapped ⟨0⟩ symbol = world.mapped ⟨0⟩ symbol := by
  have ends : ((performAll conflictingCommands quiet World.initial).bind fun reached => do
      let content ← reached.2.spaces.get? 0
      let _ ← reached.2.spaces.get? 1
      let listed ← Space.publics ⟨1⟩ quiet reached.2
      let own ← reached.2.ownVar ⟨0⟩ (.unqualifiedName "y")
      let ownContent ← reached.2.vars.get? own.index
      return (content.name, listed.1, own, ownContent.text)) =
      some (.unqualifiedName "app",
        [(.unqualifiedName "x", ⟨0⟩), (.unqualifiedName "y", ⟨1⟩)], ⟨2⟩, "#'app/y") := by
    decide +kernel
  rcases Option.bind_eq_some_iff.mp ends with ⟨⟨_, world⟩, ran, rest⟩
  rcases Option.bind_eq_some_iff.mp rest with ⟨content, present, rest⟩
  rcases Option.bind_eq_some_iff.mp rest with ⟨sourceContent, sourcePresent, rest⟩
  rcases Option.bind_eq_some_iff.mp rest with ⟨⟨listed, _⟩, publicsRun, rest⟩
  rcases Option.bind_eq_some_iff.mp rest with ⟨own, found, rest⟩
  rcases Option.bind_eq_some_iff.mp rest with ⟨ownContent, ownFound, seen⟩
  simp only [pure, Option.some.injEq, Prod.mk.injEq] at seen
  rcases seen with ⟨name, rfl, rfl, text⟩
  have existing : world.spaces.get? (⟨0⟩ : Space.Cell).index = some content := present
  have sourceExisting : world.spaces.get? (⟨1⟩ : Space.Cell).index = some sourceContent :=
    sourcePresent
  rcases performAll_refers_until_barred Nat.one_pos ran existing sourceExisting with
    ⟨_, again, -, inOrder⟩
  cases publicsRun.symm.trans again
  have barred : Barred world ⟨0⟩ (.unqualifiedName "y", ⟨1⟩) := ⟨⟨2⟩, found, by decide⟩
  rcases inOrder [(.unqualifiedName "y", ⟨1⟩), (.unqualifiedName "x", ⟨0⟩)] (.swap ..) with
    ⟨free, -⟩ | ⟨earlier, entry, later, other, otherContent, after, split, free, foundToo, -,
      otherFound, failed, -, unchanged⟩
  · exact absurd barred (free _ (by simp))
  cases earlier with
  | cons first _ =>
      -- The var that comes first has another one in its way.
      obtain rfl := (List.cons.inj split).1
      exact absurd barred (free _ (List.mem_cons_self ..))
  | nil =>
      cases split
      cases found.symm.trans foundToo
      cases ownFound.symm.trans otherFound
      rw [text, name] at failed
      exact ⟨world, after, ran, failed, unchanged.mpr nofun⟩

end Naming

end LispRuntime
