import LispRuntime.Proofs.Namespace.Order

/-! What is done with a namespace while everything is in order: what is answered, and which
changes are made. -/

namespace LispRuntime

namespace Space

open Naming

variable {machine : Machine} {world after : World} {space : Space.Cell} {content : SpaceCell}
  {symbol : Symbol} {var existing : Ref .var}

/-! ## Looking -/

theorem spaceAt_run (machine : Machine)
    (present : world.spaces.get? space.index = some content) :
    Run.spaceAt space machine world = some (content, world) := by
  change Run.found (world.spaces.get? space.index) machine world = _
  rw [present]
  rfl

theorem name_run (machine : Machine) (present : world.spaces.get? space.index = some content) :
    Space.name space machine world = some (content.name, world) := by
  rw [Space.name, Run.run_bind (spaceAt_run machine present)]
  rfl

theorem lookup_run (machine : Machine) (present : world.spaces.get? space.index = some content)
    (symbol : Symbol) :
    Space.lookup space symbol machine world = some (world.mapped space symbol, world) := by
  rw [Space.lookup, Run.run_bind (spaceAt_run machine present), World.mapped, present]
  rfl

theorem owns_run (machine : Machine) (space : Space.Cell) (there : var.index < world.vars.next) :
    Space.owns space var machine world = some (world.isOwn space var, world) := by
  rcases Store.exists_of_lt_next there with ⟨content, found⟩
  rw [Space.owns, Run.run_bind (varAt_run machine found), World.isOwn, found]
  rfl

theorem mapped_there (orderly : Orderly world) (mapped : world.mapped space symbol = some var) :
    var.index < world.vars.next := by
  rcases World.mapped_eq_some_iff.mp mapped with ⟨content, present, found⟩
  exact (orderly.space present).mapped _ (mem_of_findSymbol found)

theorem findVar_run (machine : Machine) (orderly : Orderly world)
    (present : world.spaces.get? space.index = some content) (symbol : Symbol) :
    Space.findVar space symbol machine world = some (world.ownVar space symbol, world) := by
  rw [Space.findVar, Run.run_bind (lookup_run machine present symbol), World.ownVar]
  cases mapped : world.mapped space symbol with
  | none => rfl
  | some var =>
      dsimp only
      rw [Run.run_bind (owns_run machine space (mapped_there orderly mapped)),
        Option.filter_some]
      cases world.isOwn space var <;> rfl

theorem selectVars_run {test : Ref .var → Run Bool} (passes : Ref .var → Bool)
    {mappings : List Mapping}
    (each : ∀ entry ∈ mappings, test entry.2 machine world = some (passes entry.2, world)) :
    selectVars test mappings machine world =
      some (mappings.filter fun entry => passes entry.2, world) := by
  induction mappings with
  | nil => rfl
  | cons entry rest induction =>
      have others := induction fun other member => each other (List.mem_cons_of_mem _ member)
      rw [selectVars, Run.run_bind (each entry (List.mem_cons_self ..)), List.filter_cons]
      cases passes entry.2 with
      | true => exact Run.run_bind others
      | false => exact others

theorem interns_run (machine : Machine) (orderly : Orderly world)
    (present : world.spaces.get? space.index = some content) :
    Space.interns space machine world =
      some (content.mappings.filter fun entry => world.isOwn space entry.2, world) := by
  rw [Space.interns, Space.mappings, bind_assoc,
    Run.run_bind (spaceAt_run machine present)]
  exact selectVars_run (world.isOwn space) fun entry member =>
    owns_run machine space ((orderly.space present).mapped entry member)

theorem refers_run (machine : Machine) (orderly : Orderly world)
    (present : world.spaces.get? space.index = some content) :
    Space.refers space machine world =
      some (content.mappings.filter fun entry => !world.isOwn space entry.2, world) := by
  rw [Space.refers, Space.mappings, bind_assoc,
    Run.run_bind (spaceAt_run machine present)]
  refine selectVars_run (fun var => !world.isOwn space var) fun entry member => ?_
  exact Run.run_bind (owns_run machine space ((orderly.space present).mapped entry member))

/-- In an orderly world the question whether a var is public has an answer, which depends on
vars, transients and array maps alone. -/
theorem isPublic_run {seen : World} (positive : 0 < machine.limit) (orderly : Orderly seen)
    (there : var.index < seen.vars.next) (same : seen.SamePublics world) :
    Var.isPublic var machine world = some (seen.isPublicIn machine var, world) := by
  rcases Store.exists_of_lt_next there with ⟨content, found⟩
  rcases Var.looks_isPublic positive found (orderly.var found).metadata with ⟨answer, ran⟩
  rw [World.isPublicIn, ran seen ⟨rfl, rfl, rfl⟩, ran world same]
  rfl

/-- What `publics` lists. -/
def listing (machine : Machine) (world : World) (space : Space.Cell) (content : SpaceCell) :
    List Mapping :=
  content.mappings.filter fun entry =>
    world.isPublicIn machine entry.2 && world.isOwn space entry.2

/-- What is listed depends on the namespace and on vars, transients and array maps. -/
theorem listing_congr (positive : 0 < machine.limit) (orderly : Orderly world)
    (present : world.spaces.get? space.index = some content) (same : world.SamePublics after) :
    listing machine after space content = listing machine world space content := by
  refine List.filter_congr fun entry member => ?_
  have there := (orderly.space present).mapped entry member
  rw [World.isPublicIn, isPublic_run positive orderly there same, World.isOwn, World.isOwn,
    same.vars]
  rfl

theorem publics_run (positive : 0 < machine.limit) (orderly : Orderly world)
    (present : world.spaces.get? space.index = some content) :
    Space.publics space machine world = some (listing machine world space content, world) := by
  rw [Space.publics, Run.run_bind (interns_run machine orderly present), listing,
    ← List.filter_filter]
  refine selectVars_run (world.isPublicIn machine) fun entry member => ?_
  exact isPublic_run positive orderly
    ((orderly.space present).mapped entry (List.mem_of_mem_filter member)) ⟨rfl, rfl, rfl⟩

/-! ## Interning, referring and unmapping -/

/-- A qualified symbol is turned down. Otherwise the var is the one that has been interned, or
else a new one. -/
theorem intern_cases (machine : Machine) (orderly : Orderly world)
    (present : world.spaces.get? space.index = some content) (symbol : Symbol) :
    symbol.isQualified = true ∧
      (∃ error, (Space.intern space symbol).run machine world = some (.error error, world)) ∨
    symbol.isQualified = false ∧ (∃ own, world.ownVar space symbol = some own ∧
      (Space.intern space symbol).run machine world = some (.ok own, world)) ∨
    symbol.isQualified = false ∧ world.ownVar space symbol = none ∧
      (Space.intern space symbol).run machine world =
        some (.ok ⟨world.vars.next⟩, (Change.addVar space content.name symbol).apply world) := by
  unfold Space.intern
  cases symbol.isQualified with
  | true => exact .inl ⟨rfl, _, rfl⟩
  | false =>
      have found := findVar_run machine orderly present symbol
      refine .inr ?_
      cases own : world.ownVar space symbol with
      | some var =>
          rw [own] at found
          exact .inl ⟨rfl, var, rfl, Attempt.run_first found⟩
      | none =>
          rw [own] at found
          refine .inr ⟨rfl, rfl, (Attempt.run_first found).trans ?_⟩
          have made : Space.newVar space symbol machine world =
              some (⟨world.vars.next⟩, { world with
                vars := world.vars.push
                  ⟨space, content.name, symbol, none, false, none⟩ }) :=
            Run.run_bind (name_run machine present)
          exact Attempt.run_first made

theorem intern_unqualified (machine : Machine) (orderly : Orderly world)
    (present : world.spaces.get? space.index = some content)
    (unqualified : symbol.isQualified = false) :
    ∃ var after, (Space.intern space symbol).run machine world = some (.ok var, after) ∧
      Leads Harmless world after ∧ after.ownVar space symbol = some var := by
  rcases intern_cases machine orderly present symbol with
    ⟨qualified, -⟩ | ⟨-, own, found, ran⟩ | ⟨-, free, ran⟩
  · cases unqualified.symm.trans qualified
  · exact ⟨own, world, ran, .refl world, found⟩
  · have isAllowed : Change.Allowed world (.addVar space content.name symbol) :=
      ⟨unqualified, free, content, present, rfl⟩
    refine ⟨_, _, ran, .single _ isAllowed trivial, World.ownVar_eq_some_iff.mpr ⟨?_, ?_⟩⟩
    · exact (@mapped_mapTo _ space content present symbol symbol _ space).trans
        (if_pos ⟨rfl, rfl⟩)
    · exact World.isOwn_iff.mpr ⟨_, Store.get?_push_next .., rfl⟩

/-- What has been answered, wherever the namespace is. -/
theorem intern_ran {outcome : Except Error (Ref .var)} (orderly : Orderly world)
    (ran : (Space.intern space symbol).run machine world = some (outcome, after)) :
    (symbol.isQualified = true ∧ (∃ error, outcome = .error error) ∧ after = world) ∨
    symbol.isQualified = false ∧ ∃ var, outcome = .ok var ∧
      Leads Harmless world after ∧ after.ownVar space symbol = some var := by
  cases qualified : symbol.isQualified with
  | true =>
      rw [Space.intern, if_pos qualified] at ran
      cases ran
      exact .inl ⟨rfl, ⟨_, rfl⟩, rfl⟩
  | false =>
      have present : ∃ content, world.spaces.get? space.index = some content := by
        have unqualified : ¬ symbol.isQualified = true := Bool.eq_false_iff.mp qualified
        rw [Space.intern, if_neg unqualified] at ran
        rcases Attempt.exists_of_first ran with ⟨_, _, sought, -⟩
        rcases Run.exists_of_bind sought with ⟨_, _, lookedUp, -⟩
        rcases Run.exists_of_bind lookedUp with ⟨content, _, looked, -⟩
        exact ⟨content, (Run.eq_some_of_found looked).1⟩
      rcases present with ⟨content, present⟩
      rcases intern_unqualified machine orderly present qualified with
        ⟨var, _, again, leads, own⟩
      cases ran.symm.trans again
      exact .inr ⟨rfl, var, rfl, leads, own⟩

theorem intern_leads {outcome : Except Error (Ref .var)} (orderly : Orderly world)
    (ran : (Space.intern space symbol).run machine world = some (outcome, after)) :
    Leads Harmless world after := by
  rcases intern_ran orderly ran with ⟨-, -, rfl⟩ | ⟨-, var, -, leads, -⟩
  · exact .refl after
  · exact leads

/-- A var of its own is not given up for another one. -/
theorem refer_barred {varContent : VarCell} (machine : Machine) (orderly : Orderly world)
    (present : world.spaces.get? space.index = some content)
    (own : world.ownVar space symbol = some existing) (different : existing ≠ var)
    (varFound : world.vars.get? existing.index = some varContent) :
    (Space.refer space symbol var).run machine world =
      some (.error (.referConflict symbol varContent.text content.name), world) := by
  have found := findVar_run machine orderly present symbol
  rw [own] at found
  refine (Attempt.run_first found).trans ?_
  have differs : (existing != var) = true := bne_iff_ne.mpr different
  simp only [differs, if_true]
  refine (Attempt.run_first (varAt_run machine varFound)).trans ?_
  exact (Attempt.run_first (name_run machine present)).trans rfl

theorem refer_free (machine : Machine) (orderly : Orderly world)
    (present : world.spaces.get? space.index = some content)
    (free : ∀ own, world.ownVar space symbol = some own → own = var) :
    (Space.refer space symbol var).run machine world =
      some (.ok (), (Change.refer space symbol var).apply world) := by
  have found := findVar_run machine orderly present symbol
  cases own : world.ownVar space symbol with
  | none =>
      rw [own] at found
      exact (Attempt.run_first found).trans rfl
  | some existing =>
      rw [own, free existing own] at found
      refine (Attempt.run_first found).trans ?_
      simp only [bne_self_eq_false]
      rfl

theorem refer_cases (machine : Machine) (orderly : Orderly world)
    (present : world.spaces.get? space.index = some content) (symbol : Symbol) (var : Ref .var) :
    (∃ own error, world.ownVar space symbol = some own ∧ own ≠ var ∧
      (Space.refer space symbol var).run machine world = some (.error error, world)) ∨
    (∀ own, world.ownVar space symbol = some own → own = var) ∧
      (Space.refer space symbol var).run machine world =
        some (.ok (), (Change.refer space symbol var).apply world) := by
  by_cases free : ∀ own, world.ownVar space symbol = some own → own = var
  · exact .inr ⟨free, refer_free machine orderly present free⟩
  · push Not at free
    rcases free with ⟨own, found, different⟩
    have isMapped := (World.ownVar_eq_some_iff.mp found).1
    rcases Store.exists_of_lt_next (mapped_there orderly isMapped) with ⟨varContent, varFound⟩
    exact .inl ⟨own, _, found, different, refer_barred machine orderly present found different
      varFound⟩

theorem unmap_run (machine : Machine) (present : world.spaces.get? space.index = some content)
    (symbol : Symbol) : Space.unmap space symbol machine world =
      some ((world.mapped space symbol).isSome, (Change.unmap space symbol).apply world) :=
  Run.run_bind (lookup_run machine present symbol)

theorem findAlias_run (machine : Machine)
    (present : world.spaces.get? space.index = some content) (symbol : Symbol) :
    Space.findAlias space symbol machine world =
      some (findSymbol symbol content.aliases, world) := by
  rw [Space.findAlias, Run.run_bind (spaceAt_run machine present)]
  rfl

theorem removeAlias_run (machine : Machine)
    (present : world.spaces.get? space.index = some content) (symbol : Symbol) :
    Space.removeAlias space symbol machine world =
      some ((findSymbol symbol content.aliases).isSome,
        (Change.realias space (eraseSymbol symbol)).apply world) :=
  Run.run_bind (findAlias_run machine present symbol)

/-- An alias that is there stays, whatever is answered. -/
theorem addAlias_cases {target : Space.Cell} {outcome : Except Error Unit}
    (present : world.spaces.get? space.index = some content)
    (ran : (Space.addAlias space symbol target).run machine world = some (outcome, after)) :
    after = world ∨ after = (Change.realias space (insertSymbol symbol target)).apply world := by
  unfold Space.addAlias at ran
  rw [Attempt.run_first (findAlias_run machine present symbol)] at ran
  cases found : findSymbol symbol content.aliases with
  | none =>
      rw [found] at ran
      cases ran
      exact .inr rfl
  | some existing =>
      rw [found] at ran
      dsimp only at ran
      split at ran
      · rw [Attempt.run_first (name_run machine present)] at ran
        rcases Attempt.exists_of_first ran with ⟨name, between, named, failed⟩
        rcases Run.exists_of_bind named with ⟨content, middle, looked, rest⟩
        have same := (Run.eq_some_of_found looked).2
        cases rest
        cases failed
        exact .inl same.symm
      · cases ran
        exact .inl rfl

/-! ## Referring many vars -/

/-- A change that refers a var, and no var of one's own unless it is there already. -/
def Refers (space : Space.Cell) (world : World) (change : Change) : Prop :=
  ∃ symbol var, change = .refer space symbol var ∧
    (world.isOwn space var = true → world.mapped space symbol = some var)

/-- Vars are referred one after the other until one of them is turned down. -/
theorem referEach_leads (machine : Machine) {entries : List Mapping} (orderly : Orderly world)
    (present : world.spaces.get? space.index = some content)
    (there : ∀ entry ∈ entries, entry.2.index < world.vars.next)
    (own : ∀ entry ∈ entries, world.isOwn space entry.2 = true →
      world.mapped space entry.1 = some entry.2) :
    ∃ outcome after, (Space.referEach space entries).run machine world = some (outcome, after) ∧
      Leads (Refers space) world after := by
  induction entries generalizing world content with
  | nil => exact ⟨.ok (), world, rfl, .refl world⟩
  | cons entry rest induction =>
      rcases List.forall_mem_cons.mp there with ⟨entryThere, restThere⟩
      rcases List.forall_mem_cons.mp own with ⟨entryOwn, restOwn⟩
      rw [Space.referEach]
      rcases refer_cases machine orderly present entry.1 entry.2 with
        ⟨existing, error, -, -, ran⟩ | ⟨free, ran⟩
      · exact ⟨_, _, Attempt.run_bind_error ran, .refl world⟩
      · have isAllowed : Change.Allowed world (.refer space entry.1 entry.2) := ⟨entryThere, free⟩
        have step : Leads (Refers space) world _ := .single _ isAllowed ⟨_, _, rfl, entryOwn⟩
        have ownLater : ∀ other ∈ rest, world.isOwn space other.2 = true →
            ((Change.refer space entry.1 entry.2).apply world).mapped space other.1 =
              some other.2 := by
          intro other member isOwn
          have mapped := restOwn other member isOwn
          rw [Change.apply, mapped_mapTo present]
          split
          case isFalse => exact mapped
          case isTrue same =>
            have ownBefore := World.ownVar_eq_some_iff.mpr ⟨same.2 ▸ mapped, isOwn⟩
            rw [free other.2 ownBefore]
        rcases (Change.onward isAllowed).space present with ⟨later, presentLater, -⟩
        rcases induction (orderly.apply isAllowed) presentLater restThere ownLater with
          ⟨outcome, after, ranRest, leads⟩
        exact ⟨outcome, after, (Attempt.run_bind_ok ran).trans ranRest, step.trans leads⟩

/-- A var of one's own is in the way of another one under the symbol. -/
def Barred (world : World) (space : Space.Cell) (entry : Mapping) : Prop :=
  ∃ own, world.ownVar space entry.1 = some own ∧ own ≠ entry.2

theorem not_barred_iff {entry : Mapping} : ¬ Barred world space entry ↔
    ∀ own, world.ownVar space entry.1 = some own → own = entry.2 := by
  simp [Barred]

/-- The vars are referred to as well. -/
def referring (world : World) (space : Space.Cell) (entries : List Mapping) : World :=
  Change.inSpace world space fun content =>
    { content with mappings := insertEach entries content.mappings }

theorem referring_nil (world : World) (space : Space.Cell) : referring world space [] = world := by
  have same : world.spaces.modify space.index (fun content => content) = world.spaces :=
    Store.modify_eq_self fun _ _ => rfl
  rw [referring, Change.inSpace]
  exact congrArg (fun spaces => { world with spaces := spaces }) same

theorem referring_cons (world : World) (space : Space.Cell) (entry : Mapping)
    (rest : List Mapping) : referring world space (entry :: rest) =
      referring ((Change.refer space entry.1 entry.2).apply world) space rest := by
  unfold referring
  rw [Change.apply, Change.mapTo, Change.inSpace_inSpace]
  rfl

theorem mapped_referring {entries : List Mapping} (distinct : Distinct entries) (world : World)
    (present : world.spaces.get? space.index = some content) (other : Space.Cell)
    (symbol : Symbol) : (referring world space entries).mapped other symbol =
      if other = space then (findSymbol symbol entries).or (world.mapped space symbol)
      else world.mapped other symbol := by
  have before : world.mapped space symbol = findSymbol symbol content.mappings := by
    rw [World.mapped, present, Option.bind_some]
  rw [referring, mapped_inSpace, present, Option.bind_some, findSymbol_insertEach distinct, before]

theorem referring_maps {entries : List Mapping} {entry : Mapping} (distinct : Distinct entries)
    (present : world.spaces.get? space.index = some content) (member : entry ∈ entries) :
    (referring world space entries).mapped space entry.1 = some entry.2 := by
  rw [mapped_referring distinct world present, if_pos rfl, distinct.findSymbol_of_mem member]
  rfl

/-- What is under other symbols is not touched. -/
theorem barred_refer {entry other : Mapping}
    (present : world.spaces.get? space.index = some content) (different : other.1 ≠ entry.1) :
    Barred ((Change.refer space entry.1 entry.2).apply world) space other ↔
      Barred world space other := by
  have same : ((Change.refer space entry.1 entry.2).apply world).mapped space other.1 =
      world.mapped space other.1 := by
    rw [Change.apply, mapped_mapTo present, if_neg fun both => different both.2]
  unfold Barred World.ownVar
  rw [same]
  rfl

/-- Where no var of one's own is in the way, all are referred, and whatever comes after them
has the same vars in its way as before. -/
theorem referEach_free (machine : Machine) {entries rest : List Mapping} (orderly : Orderly world)
    (present : world.spaces.get? space.index = some content)
    (distinct : Distinct (entries ++ rest))
    (there : ∀ entry ∈ entries, entry.2.index < world.vars.next)
    (free : ∀ entry ∈ entries, ¬ Barred world space entry) :
    (Space.referEach space (entries ++ rest)).run machine world =
        (Space.referEach space rest).run machine (referring world space entries) ∧
      Orderly (referring world space entries) ∧
      ∀ entry ∈ rest, Barred (referring world space entries) space entry ↔
        Barred world space entry := by
  induction entries generalizing world content with
  | nil =>
      rw [referring_nil]
      exact ⟨rfl, orderly, fun _ _ => .rfl⟩
  | cons entry others induction =>
      rcases List.nodup_cons.mp distinct with ⟨absent, othersDistinct⟩
      rcases List.forall_mem_cons.mp there with ⟨entryThere, othersThere⟩
      rcases List.forall_mem_cons.mp free with ⟨entryFree, othersFree⟩
      have entryFree := not_barred_iff.mp entryFree
      have isAllowed : Change.Allowed world (.refer space entry.1 entry.2) :=
        ⟨entryThere, entryFree⟩
      have untouched : ∀ other ∈ others ++ rest,
          (Barred ((Change.refer space entry.1 entry.2).apply world) space other ↔
            Barred world space other) := by
        intro other member
        refine barred_refer present fun same => absent ?_
        exact same ▸ List.mem_map_of_mem member
      rcases (Change.onward isAllowed).space present with ⟨later, presentLater, -⟩
      rcases induction (orderly.apply isAllowed) presentLater othersDistinct othersThere
        (fun other member => (untouched other (List.mem_append_left _ member)).not.mpr
          (othersFree other member)) with ⟨ran, orderlyAfter, barred⟩
      rw [referring_cons]
      refine ⟨?_, orderlyAfter, fun other member => ?_⟩
      · exact (Attempt.run_bind_ok (refer_free machine orderly present entryFree)).trans ran
      · exact (barred other member).trans (untouched other (List.mem_append_right _ member))

theorem referEach_ok (machine : Machine) {entries : List Mapping} (orderly : Orderly world)
    (present : world.spaces.get? space.index = some content) (distinct : Distinct entries)
    (there : ∀ entry ∈ entries, entry.2.index < world.vars.next)
    (free : ∀ entry ∈ entries, ¬ Barred world space entry) :
    (Space.referEach space entries).run machine world =
      some (.ok (), referring world space entries) := by
  have distinctOnward : Distinct (entries ++ []) := (List.append_nil entries).symm ▸ distinct
  have ran := (referEach_free machine orderly present distinctOnward there free).1
  rw [List.append_nil] at ran
  exact ran

theorem Refers.harmless {change : Change} (refers : Refers space world change) :
    Harmless world change := by
  rcases refers with ⟨symbol, var, rfl, own⟩
  exact own

theorem mem_listing {entry : Mapping} (member : entry ∈ listing machine world space content) :
    entry ∈ content.mappings ∧ world.isOwn space entry.2 = true := by
  rcases List.mem_filter.mp member with ⟨inside, passes⟩
  exact ⟨inside, (Bool.and_eq_true_iff.mp passes).2⟩

theorem eq_of_isOwn {other : Space.Cell} (isOwn : world.isOwn space var = true)
    (isOwnToo : world.isOwn other var = true) : space = other := by
  rcases World.isOwn_iff.mp isOwn with ⟨content, found, rfl⟩
  rcases World.isOwn_iff.mp isOwnToo with ⟨_, again, rfl⟩
  cases found.symm.trans again
  rfl

variable {source : Space.Cell} {sourceContent : SpaceCell}

theorem there_of_mem_listing (orderly : Orderly world)
    (present : world.spaces.get? space.index = some content) :
    ∀ entry ∈ listing machine world space content, entry.2.index < world.vars.next :=
  fun entry member => (orderly.space present).mapped entry (mem_listing member).1

theorem mapped_of_mem_listing (orderly : Orderly world)
    (present : world.spaces.get? space.index = some content) {entry : Mapping}
    (member : entry ∈ listing machine world space content) :
    world.mapped space entry.1 = some entry.2 :=
  World.mapped_eq_some_iff.mpr
    ⟨content, present, (orderly.space present).distinct.findSymbol_of_mem (mem_listing member).1⟩

theorem referAll_leads (positive : 0 < machine.limit) (orderly : Orderly world)
    (present : world.spaces.get? space.index = some content)
    (sourcePresent : world.spaces.get? source.index = some sourceContent) :
    ∃ outcome after, (Space.referAll space source).run machine world = some (outcome, after) ∧
      Leads (Refers space) world after := by
  have own : ∀ entry ∈ listing machine world source sourceContent,
      world.isOwn space entry.2 = true → world.mapped space entry.1 = some entry.2 := by
    intro entry member isOwn
    cases eq_of_isOwn isOwn (mem_listing member).2
    exact mapped_of_mem_listing orderly sourcePresent member
  rcases referEach_leads machine orderly present (there_of_mem_listing orderly sourcePresent) own
    with ⟨outcome, after, ran, leads⟩
  exact ⟨outcome, after,
    (Attempt.run_first (publics_run positive orderly sourcePresent)).trans ran, leads⟩

theorem distinct_listing (orderly : Orderly world)
    (present : world.spaces.get? space.index = some content) :
    Distinct (listing machine world space content) :=
  (orderly.space present).distinct.sublist (List.filter_sublist.map _)

/-- A namespace without vars of its own refers every public var of another one. -/
theorem referAll_ok (positive : 0 < machine.limit) (orderly : Orderly world)
    (present : world.spaces.get? space.index = some content)
    (sourcePresent : world.spaces.get? source.index = some sourceContent)
    (free : ∀ symbol, world.ownVar space symbol = none) :
    (Space.referAll space source).run machine world =
      some (.ok (), referring world space (listing machine world source sourceContent)) := by
  have unowned : ∀ entry ∈ listing machine world source sourceContent,
      ¬ Barred world space entry := by
    rintro entry - ⟨own, found, -⟩
    cases (free entry.1).symm.trans found
  refine (Attempt.run_first (publics_run positive orderly sourcePresent)).trans ?_
  exact referEach_ok machine orderly present (distinct_listing orderly sourcePresent)
    (there_of_mem_listing orderly sourcePresent) unowned

end Space

end LispRuntime
