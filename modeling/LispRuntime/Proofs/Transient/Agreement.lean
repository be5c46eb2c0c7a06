import LispRuntime.Proofs.Collection.Agreement
import LispRuntime.Proofs.Transient.Cells

/-! Whatever is done to transients of one collection, it comes to what the same does to
collections that never change. -/

namespace LispRuntime

open ArrayMap (Denoted Spares Achieves)
open Transient (Command Outcome Entry)
open Contents (Report HaveShape)

theorem Made.inPlace (change : Change) (editable : Editable) :
    Made (change.inPlace editable).run := by
  cases change with
  | assoc key value => exact .assoc editable key value
  | dissoc key => exact .dissoc editable key
  | conj item => exact .conj editable item
  | disj item => exact .disj editable item
  | pop => exact .pop editable

namespace Reader

variable {reader : Reader} {now after : Moment} {source : Value} {contents : Contents}
  {entries : List Entry}

/-! ## One command -/

/-- The command tells what the contents report, and what has been taken out before it or
by it stays as it is. -/
structure Advances (reader : Reader) (now : Moment) (entries : List Entry)
    (outcome : Outcome) (reported : Report × List (Option Contents))
    (entriesAfter : List Entry) (after : Moment) : Prop where
  tells : reported.1.Tells outcome
  holds : reader.HoldsCells after entriesAfter
  states : entriesAfter.map Entry.state = reported.2
  published : ∀ value, reader.Published now entries value →
    reader.Published after entriesAfter value
  made : ∀ value, outcome = .made value → reader.Published after entriesAfter value

theorem perform_transient (offers : reader.silent.Offers source contents)
    (holds : reader.HoldsCells now entries) :
    ∃ outcome entriesAfter after,
      Transient.perform source (entries.map Entry.cell) .transient reader.machine now.world =
        some ((outcome, entriesAfter.map Entry.cell), after.world) ∧
      reader.Advances now entries outcome
        (Contents.perform reader.datumOf contents (entries.map Entry.state) .transient)
        entriesAfter after := by
  rcases run_of_quiet (Made.ofValue source).quiet (ofValue_builds offers holds.respects.le) with
    ⟨_, between, ran, keeps, le, others, building, rfl, owner, builds, new⟩
  have kept := fun handle pairs => others handle pairs nofun
  rcases Builds.alone builds with ⟨alone, own⟩
  let opened : Entry := ⟨⟨between.world.transients.next⟩, some building, some contents⟩
  have isNew : ∀ handle, opened.handle? = some handle →
      ∀ pairs, ¬Denoted reader.silent.setting now handle pairs :=
    fun handle owns => new handle (own handle owns)
  refine ⟨.done, entries ++ [opened],
    between.withTransients (between.world.transients.push (some building)), ?_, .done,
    holds.appended keeps le kept alone isNew, List.map_append, fun value published =>
      published.appended (fun handle pairs denoted =>
        (kept handle pairs denoted).later (between.le_withTransients _)) isNew, nofun⟩
  rw [List.map_append]
  exact Run.run_bind (Transient.ofValue_run ran)

namespace Advances

variable {report : Report} {outcome : Outcome}

/-- A command that fails may have read, and what it has written belongs to nobody. -/
theorem kept (holds : reader.HoldsCells now entries) (tells : report.Tells outcome)
    (nothing : ∀ value, outcome ≠ .made value) (keeps : now.world.Keeps after.world)
    (le : reader.start ≤ after)
    (others : ∀ handle pairs, Denoted reader.silent.setting now handle pairs →
      Denoted reader.silent.setting after handle pairs) :
    reader.Advances now entries outcome (report, entries.map Entry.state) entries after where
  tells := tells
  holds := holds.kept keeps le others
  states := rfl
  published _ published := published.kept others
  made value isMade := absurd isMade (nothing value)

/-- A command that means no transient does nothing. -/
theorem missed (holds : reader.HoldsCells now entries) :
    reader.Advances now entries .done (.done, entries.map Entry.state) entries now :=
  .kept holds .done (by simp) (.refl _) holds.respects.le fun _ _ denoted => denoted

/-- Nothing can be done to a transient that is sealed. -/
theorem refused (holds : reader.HoldsCells now entries) :
    reader.Advances now entries (.failed .transientSealed) (.isSealed, entries.map Entry.state)
      entries now :=
  .kept holds .isSealed (by simp) (.refl _) holds.respects.le fun _ _ denoted => denoted

end Advances

section

variable {index : Nat} {cell : Transient.Cell} {editable : Editable} {known changed : Contents}
  {change : Change}

/-- What has been changed stands in the cell from now on. -/
theorem change_achieved (holds : reader.HoldsCells now entries)
    (found : entries[index]? = some ⟨cell, some editable, some known⟩)
    (achieves : Achieves reader.silent.setting now editable.handle? (change.inPlace editable)
      fun next after => reader.silent.Builds editable.handle? after next changed) :
    ∃ next after,
      (Transient.change cell change.inPlace).run reader.machine now.world =
        some (.ok (), after.world) ∧
      reader.Advances now entries .done (.done, (entries.map Entry.state).set index (some changed))
        (entries.set index ⟨cell, some next, some changed⟩) after := by
  have member := List.mem_of_getElem? found
  rcases run_of_quiet (Made.inPlace change editable).quiet achieves with
    ⟨_, between, ran, keeps, le, others, next, rfl, buildsNext⟩
  rcases Builds.alone buildsNext with ⟨alone, own⟩
  have isOther : ∀ handle pairs, editable.handle? ≠ some handle →
      Denoted reader.silent.setting now handle pairs →
      Denoted reader.silent.setting
        (between.withTransients (between.world.transients.set cell.index next)) handle pairs :=
    fun handle pairs away denoted =>
      (others handle pairs away denoted).later (between.le_withTransients _)
  exact ⟨next, between.withTransients (between.world.transients.set cell.index next),
    Transient.change_run_ok (holds.found _ member) ran, .done,
    holds.updated found keeps le others (.some alone) own, List.map_set,
    fun _ published => published.updated member isOther own, by simp⟩

/-- A change that is refused leaves the cell as it was. -/
theorem change_refused (holds : reader.HoldsCells now entries)
    (found : entries[index]? = some ⟨cell, some editable, some known⟩)
    (refuses : Spares reader.silent.setting now none (change.inPlace editable).run
      fun outcome _ => ∃ error, outcome = .error error ∧ error ≠ .transientSealed) :
    ∃ error after,
      (Transient.change cell change.inPlace).run reader.machine now.world =
        some (.error error, after.world) ∧
      reader.Advances now entries (.failed error) (.failed, entries.map Entry.state) entries
        after := by
  have inCell := holds.found _ (List.mem_of_getElem? found)
  rcases run_of_quiet (Made.inPlace change editable).quiet refuses with
    ⟨_, after, ran, keeps, le, others, error, rfl, other⟩
  have kept := fun handle pairs => others handle pairs (by simp)
  exact ⟨error, after, Transient.change_run_error inCell ran,
    .kept holds (.failed other) (by simp) keeps le kept⟩

/-- What is taken out is what the cell has held. The cell is empty then, so nobody writes to
what has been taken out. -/
theorem taken_out (holds : reader.HoldsCells now entries)
    (found : entries[index]? = some ⟨cell, some editable, some known⟩) :
    ∃ value after,
      (Transient.persistent cell).run reader.machine now.world = some (.ok value, after.world) ∧
      reader.Advances now entries (.made value)
        (.made known, (entries.map Entry.state).set index none)
        (entries.set index ⟨cell, none, none⟩) after := by
  have member := List.mem_of_getElem? found
  have builds : reader.BuildsAlone now editable known := by
    cases holds.builds _ member with
    | some builds => exact builds
  let left : Entry := ⟨cell, none, none⟩
  let emptied := now.withTransients (now.world.transients.set cell.index none)
  have owner : ∀ handle, left.handle? = some handle → editable.handle? = some handle := by
    rintro _ ⟨⟩
  have holdsEmptied : reader.HoldsCells emptied (entries.set index left) :=
    holds.updated found (.refl _) holds.respects.le (fun _ _ _ denoted => denoted) .none owner
  have moved : ∀ handle pairs, Denoted reader.silent.setting now handle pairs →
      Denoted reader.silent.setting emptied handle pairs :=
    fun _ _ denoted => denoted.later (now.le_withTransients _)
  have taken : Spares reader.silent.setting emptied none editable.toValue _ :=
    Spares.of_gives holdsEmptied.respects.le
      (toValue_gives_shows (builds.kept fun _ _ _ => moved _ _))
  rcases run_of_quiet (Made.toValue editable).quiet taken with
    ⟨value, after, ran, keeps, le, others, shows, own⟩
  have kept := fun handle pairs => others handle pairs (by simp)
  refine ⟨value, after, Transient.persistent_run (holds.found _ member) ran,
    .made shows.contents_eq shows.metadata_eq, holdsEmptied.kept keeps le kept, List.map_set,
    fun _ published => (published.updated member (fun _ _ _ => moved _ _) owner).kept kept, ?_⟩
  rintro _ ⟨⟩
  refine ⟨known, shows, fun handle place other inside owned => ?_⟩
  rcases Entry.mem_set_of_apart holds.apart found inside with rfl | ⟨_, apart⟩
  · cases owned
  · exact apart.2 handle (own handle place) owned

end

theorem perform_change (holds : reader.HoldsCells now entries) {index : Nat} {change : Change}
    (shapes : HaveShape contents.shape (entries.map Entry.state))
    (allowed : ∀ key ∈ change.sought contents.shape, reader.setting.IsKey key) :
    ∃ outcome entriesAfter after,
      Transient.perform source (entries.map Entry.cell) (.change index change) reader.machine
        now.world = some ((outcome, entriesAfter.map Entry.cell), after.world) ∧
      reader.Advances now entries outcome
        (Contents.perform reader.datumOf contents (entries.map Entry.state)
          (.change index change)) entriesAfter after := by
  rw [Transient.perform, Contents.perform, List.getElem?_map, List.getElem?_map]
  cases found : entries[index]? with
  | none => exact ⟨.done, entries, now, rfl, .missed holds⟩
  | some entry =>
      have member := List.mem_of_getElem? found
      have inCell := holds.found entry member
      have related := holds.builds entry member
      have isState : entry.state ∈ entries.map Entry.state := List.mem_map_of_mem member
      rcases entry with ⟨cell, building, state⟩
      dsimp only [Option.map_some] at isState ⊢
      rw [Transient.apply_eq_change]
      cases related with
      | none =>
          exact ⟨.failed .transientSealed, entries, now,
            Run.run_bind (Transient.change_run_sealed inCell), .refused holds⟩
      | @some editable known builds =>
          rw [← shapes known isState] at allowed
          have follows := change_follows builds holds.respects.le change allowed
          change Follows _ _ _ _ (known.change reader.datumOf change) _ at follows
          dsimp only
          cases expected : known.change reader.datumOf change with
          | some changed =>
              rw [expected] at follows
              rcases change_achieved holds found follows with ⟨next, after, ran, advances⟩
              refine ⟨.done, _, after, ?_, advances⟩
              rw [Entry.map_cell_set found]
              exact Run.run_bind ran
          | none =>
              rw [expected] at follows
              rcases change_refused holds found follows with ⟨error, after, ran, advances⟩
              exact ⟨.failed error, entries, after, Run.run_bind ran, advances⟩

theorem perform_persistent (holds : reader.HoldsCells now entries) (index : Nat) :
    ∃ outcome entriesAfter after,
      Transient.perform source (entries.map Entry.cell) (.persistent index) reader.machine
        now.world = some ((outcome, entriesAfter.map Entry.cell), after.world) ∧
      reader.Advances now entries outcome
        (Contents.perform reader.datumOf contents (entries.map Entry.state)
          (.persistent index)) entriesAfter after := by
  rw [Transient.perform, Contents.perform, List.getElem?_map, List.getElem?_map]
  cases found : entries[index]? with
  | none => exact ⟨.done, entries, now, rfl, .missed holds⟩
  | some entry =>
      have member := List.mem_of_getElem? found
      have inCell := holds.found entry member
      have related := holds.builds entry member
      rcases entry with ⟨cell, building, state⟩
      dsimp only [Option.map_some]
      cases related with
      | none =>
          exact ⟨.failed .transientSealed, entries, now,
            Run.run_bind (Transient.persistent_run_sealed inCell), .refused holds⟩
      | @some editable known builds =>
          rcases taken_out holds found with ⟨value, after, ran, advances⟩
          refine ⟨.made value, _, after, ?_, advances⟩
          rw [Entry.map_cell_set found]
          exact Run.run_bind ran

/-! ## Any number of commands -/

theorem perform_advances (offers : reader.silent.Offers source contents)
    (holds : reader.HoldsCells now entries)
    (shapes : HaveShape contents.shape (entries.map Entry.state)) {command : Command}
    (allowed : reader.Allows contents.shape command) :
    ∃ outcome entriesAfter after,
      Transient.perform source (entries.map Entry.cell) command reader.machine now.world =
        some ((outcome, entriesAfter.map Entry.cell), after.world) ∧
      reader.Advances now entries outcome
        (Contents.perform reader.datumOf contents (entries.map Entry.state) command)
        entriesAfter after := by
  cases command with
  | transient => exact perform_transient offers holds
  | change index change => exact perform_change holds shapes allowed
  | persistent index => exact perform_persistent holds index

/-- The transients go through what the contents go through. -/
structure Completes (reader : Reader) (now : Moment) (entries : List Entry)
    (outcomes : List Outcome) (reported : List Report × List (Option Contents))
    (entriesAfter : List Entry) (after : Moment) : Prop where
  tell : List.Forall₂ Report.Tells reported.1 outcomes
  holds : reader.HoldsCells after entriesAfter
  states : entriesAfter.map Entry.state = reported.2
  published : ∀ value, reader.Published now entries value →
    reader.Published after entriesAfter value
  made : ∀ value, .made value ∈ outcomes → reader.Published after entriesAfter value

theorem performAll_completes (offers : reader.silent.Offers source contents)
    (holds : reader.HoldsCells now entries)
    (shapes : HaveShape contents.shape (entries.map Entry.state)) {commands : List Command}
    (allowed : ∀ command ∈ commands, reader.Allows contents.shape command) :
    ∃ outcomes entriesAfter after,
      Transient.performAll source (entries.map Entry.cell) commands reader.machine now.world =
        some ((outcomes, entriesAfter.map Entry.cell), after.world) ∧
      reader.Completes now entries outcomes
        (Contents.performAll reader.datumOf contents (entries.map Entry.state) commands)
        entriesAfter after := by
  induction commands generalizing now entries with
  | nil => exact ⟨[], entries, now, rfl, .nil, holds, rfl, fun _ published => published, nofun⟩
  | cons command rest induction =>
      rcases perform_advances offers holds shapes (allowed command (List.mem_cons_self ..)) with
        ⟨outcome, between, middle, ran, first⟩
      have shapesBetween : HaveShape contents.shape (between.map Entry.state) :=
        first.states ▸ shapes.perform command
      rcases induction first.holds shapesBetween fun other member =>
        allowed other (List.mem_cons_of_mem _ member) with
        ⟨outcomes, entriesAfter, after, ranRest, others⟩
      rw [first.states] at others
      refine ⟨outcome :: outcomes, entriesAfter, after, ?_, .cons first.tells others.tell,
        others.holds, others.states,
        fun value published => others.published value (first.published value published), ?_⟩
      · exact (Run.run_bind ran).trans (Run.run_bind ranRest)
      · intro value member
        rcases List.mem_cons.mp member with same | member
        · exact others.published value (first.made value same.symm)
        · exact others.made value member

/-! ## Both ways -/

theorem holdsCells_start (reader : Reader) : reader.HoldsCells reader.start [] where
  respects := ⟨le_refl _, rfl, le_rfl, fun _ _ => rfl⟩
  fresh := nofun
  found := nofun
  builds := nofun
  apart := .nil

end Reader

/-- The same elements in the same order, in collections of one kind without metadata. -/
def Value.Matches (left right : Value) : Prop :=
  ∃ contents, left.contents? = some contents ∧ right.contents? = some contents ∧
    left.metadata? = none ∧ right.metadata? = none

namespace Transient

/-- Both went well, or both went wrong, and if one found its collection sealed, so did
the other one. Otherwise the errors may differ. -/
inductive Outcome.Agrees : Outcome → Outcome → Prop where
  | done : Agrees .done .done
  | failed {error other : Error} (notSealed : error ≠ .transientSealed)
      (otherNotSealed : other ≠ .transientSealed) : Agrees (.failed error) (.failed other)
  | isSealed : Agrees (.failed .transientSealed) (.failed .transientSealed)
  | made {value other : Value} (same : value.Matches other) : Agrees (.made value) (.made other)

/-- What would be taken out of the cell is what is held; nothing can be taken out if
nothing is held. -/
inductive Cell.Keeps (machine : Machine) (world : World) (cell : Cell) : Option Value → Prop where
  | isSealed (found : world.transients.get? cell.index = some none) :
      cell.Keeps machine world none
  | building {editable : Editable} {shown value : Value}
      (found : world.transients.get? cell.index = some (some editable))
      (shows : editable.contents machine world = some (shown, world))
      (same : shown.Matches value) : cell.Keeps machine world (some value)

theorem agrees_of_tells {report : Report} {outcome expected : Outcome}
    (tells : report.Tells outcome) (tellsExpected : report.Tells expected) :
    outcome.Agrees expected := by
  cases tells with
  | done =>
      cases tellsExpected
      exact .done
  | failed notSealed =>
      cases tellsExpected with
      | failed otherNotSealed => exact .failed notSealed otherNotSealed
  | isSealed =>
      cases tellsExpected with
      | isSealed => exact .isSealed
  | made has bare =>
      cases tellsExpected with
      | made hasOther bareOther => exact .made ⟨_, has, hasOther, bare, bareOther⟩

theorem agree_of_tell {reports : List Report} {outcomes expected : List Outcome}
    (tell : List.Forall₂ Report.Tells reports outcomes)
    (tellExpected : List.Forall₂ Report.Tells reports expected) :
    List.Forall₂ Outcome.Agrees outcomes expected := by
  induction tell generalizing expected with
  | nil =>
      cases tellExpected
      exact .nil
  | cons first _ induction =>
      cases tellExpected with
      | cons firstExpected rest =>
          exact .cons (agrees_of_tells first firstExpected) (induction rest)

end Transient

open Transient (Cell)

theorem Reader.HoldsCells.keeps {reader : Reader} {now other : Moment} {entries : List Entry}
    {held : List (Option Value)} (holds : reader.HoldsCells now entries)
    (shows : reader.ShowsAll other held (entries.map Entry.state)) :
    List.Forall₂ (Cell.Keeps reader.machine now.world) (entries.map Entry.cell) held := by
  rw [Reader.ShowsAll, List.forall₂_map_right_iff] at shows
  refine List.forall₂_map_left_iff.mpr
    (List.forall₂_iff_zip.mpr ⟨shows.length_eq.symm, fun {entry value} member => ?_⟩)
  have inside := (List.of_mem_zip member).1
  have related := (List.forall₂_iff_zip.mp shows.flip).2 member
  have inCell := holds.found entry inside
  have builds := holds.builds entry inside
  rcases entry with ⟨cell, building, state⟩
  cases related with
  | none =>
      cases builds
      exact .isSealed inCell
  | some shows =>
      cases builds with
      | some builds =>
          rcases builds.contents_run with ⟨shown, ran, has, bare⟩
          exact .building inCell ran ⟨_, has, shows.contents_eq, bare, shows.metadata_eq⟩

/-- Any number of transients of one collection, each of them changed and taken out at
any time, go through what collections go through that are made anew with every change.
This takes keys that do not change while they are looked for. What there was before is
untouched, and what has been taken out stays as it is. -/
theorem Transient.performAll_agrees {moment : Moment} {datumOf : Value → Datum}
    {source : Value} {contents : Contents} {commands : List Command}
    (remembers : moment.RemembersRight) (offers : moment.Offers datumOf source contents)
    (sought : ∀ command ∈ commands, ∀ key ∈ command.sought contents.shape,
      moment.Reads key (datumOf key)) :
    ∃ enough, ∀ machine : Machine, enough ≤ machine.limit →
      ∃ outcomes cells after expected held other,
        Transient.performAll source [] commands machine moment.world =
          some ((outcomes, cells), after) ∧
        Persistent.performAll source [] commands machine moment.world =
          some ((expected, held), other) ∧
        List.Forall₂ Outcome.Agrees outcomes expected ∧
        List.Forall₂ (Cell.Keeps machine after) cells held ∧
        moment.world.Respects after ∧
        ∀ value, .made value ∈ outcomes → value.IsIntact after := by
  have keys : ∀ key ∈ contents.keys ++ commands.flatMap (Command.sought contents.shape),
      moment.Reads key (datumOf key) := by
    intro key member
    rcases List.mem_append.mp member with kept | member
    · exact offers.reads key kept
    · rcases List.mem_flatMap.mp member with ⟨command, inside, isSought⟩
      exact sought command inside key isSought
  rcases Reader.exists_forall_machine remembers keys with ⟨enough, readers⟩
  rcases moment.exists_cost_le source with ⟨room, within⟩
  refine ⟨max enough room, fun machine limit => ?_⟩
  rcases readers machine ((le_max_left _ _).trans limit) with ⟨reader, rfl, rfl, rfl, _, isKeys⟩
  have ownKeys := fun key member => isKeys key (List.mem_append_left _ member)
  have allowed : ∀ command ∈ commands, reader.Allows contents.shape command :=
    fun command inside key isSought =>
      isKeys key (List.mem_append_right _ (List.mem_flatMap.mpr ⟨command, inside, isSought⟩))
  have fits := fun datum read => (within datum read).trans ((le_max_right _ _).trans limit)
  have offersBuilder : reader.silent.Offers source contents :=
    Reader.offers_of_moment offers remembers ownKeys fits
  have offersOthers : reader.Offers source contents :=
    Reader.offers_of_moment offers remembers ownKeys fits
  rcases Reader.performAll_completes offersBuilder reader.holdsCells_start nofun allowed
    with ⟨outcomes, entries, after, ran, tell, holds, states, _, made⟩
  rcases Reader.persistent_performAll_tells offersOthers .nil nofun (le_refl _) allowed
    with ⟨⟨expected, held⟩, other, ranOthers, _, _, tellExpected, shows⟩
  rw [List.map_nil] at states
  rw [← states] at shows
  exact ⟨outcomes, entries.map Entry.cell, after.world, expected, held, other.world, ran,
    ranOthers, agree_of_tell tell tellExpected, holds.keeps shows, holds.respects.world,
    fun value member => (made value member).intact⟩

/-! For example, a transient of a full array map takes in another key and is taken out,
while a second one loses a key and stays an array map. -/

namespace Transient

private def fullPairs : ArrayMap.Pairs :=
  [0, 1, 2, 3, 4, 5, 6, 7].map fun index => (.integer index, .nil)

/-- Nobody has hashed the array map yet. -/
private def holdingFull : Moment where
  memory _ := none
  world :=
    { World.initial with
      maps := ⟨Store.empty.push (fullPairs.map some), Store.empty.push ⟨0, 8, 0, false⟩⟩ }
  heap_taken _ _ known := nomatch known
  maps_sound handle record found live := by
    rcases handle with _ | handle
    · cases found
      exact ⟨fullPairs, [], rfl, rfl, rfl, rfl, by decide⟩
    · cases found
  map_held _ _ known := nomatch known

private def datumOfInteger (value : Value) : Datum := (value.leaf?.map Datum.leaf).getD default

private def promotingRun : List Command :=
  [.transient, .transient, .change 0 (.assoc (.integer 8) .nil),
    .change 1 (.dissoc (.integer 0)), .persistent 0, .change 0 .pop]

private theorem reads_integer (index : Int64) :
    holdingFull.Reads (.integer index) (datumOfInteger (.integer index)) :=
  .leaf rfl nofun

private theorem holdingFull_offers :
    holdingFull.Offers datumOfInteger (.arrayMap 0 fullPairs none) (.arrayMap fullPairs) := by
  refine .arrayMap ⟨⟨0, 8, 0, false⟩, [], rfl, rfl, rfl, rfl, by decide⟩ (.inr ⟨rfl, rfl⟩) ?_
  intro pair member
  rcases List.mem_map.mp member with ⟨index, _, rfl⟩
  exact reads_integer index

private theorem promotingRun_reads :
    ∀ command ∈ promotingRun, ∀ key ∈ command.sought .map,
      holdingFull.Reads key (datumOfInteger key) := by
  intro command member key isSought
  simp only [promotingRun, List.mem_cons, List.not_mem_nil, or_false] at member
  rcases member with rfl | rfl | rfl | rfl | rfl | rfl
  · cases isSought
  · cases isSought
  · cases List.mem_singleton.mp isSought
    exact reads_integer 8
  · cases List.mem_singleton.mp isSought
    exact reads_integer 0
  · cases isSought
  · cases isSought

theorem promotingRun_agrees :
    holdingFull.RemembersRight ∧
    holdingFull.Offers datumOfInteger (.arrayMap 0 fullPairs none) (.arrayMap fullPairs) ∧
    (∀ command ∈ promotingRun, ∀ key ∈ command.sought .map,
      holdingFull.Reads key (datumOfInteger key)) ∧
    ∃ enough, ∀ machine : Machine, enough ≤ machine.limit →
      ∃ outcomes cells after expected held other,
        performAll (.arrayMap 0 fullPairs none) [] promotingRun machine holdingFull.world =
          some ((outcomes, cells), after) ∧
        Persistent.performAll (.arrayMap 0 fullPairs none) [] promotingRun machine
          holdingFull.world = some ((expected, held), other) ∧
        List.Forall₂ Outcome.Agrees outcomes expected ∧
        List.Forall₂ (Cell.Keeps machine after) cells held ∧
        holdingFull.world.Respects after ∧
        ∀ value, .made value ∈ outcomes → value.IsIntact after :=
  ⟨fun _ _ _ known => (nomatch known), holdingFull_offers, promotingRun_reads,
    performAll_agrees (fun _ _ _ known => nomatch known) holdingFull_offers promotingRun_reads⟩

end Transient

end LispRuntime
