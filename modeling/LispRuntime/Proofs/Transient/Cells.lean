import LispRuntime.Proofs.Transient.Commands
import LispRuntime.Proofs.Transient.Quiet
import LispRuntime.Proofs.World.Running

/-! Transients are cells of the world. Each of them is written through a handle of its
own, so that a command to one of them neither shows in another one nor in what has been
taken out of it, and nothing that was there before the first command is touched. -/

namespace LispRuntime

open ArrayMap (Denoted Spares Achieves)

/-! ## Running on cells -/

section

variable {machine : Machine} {world between after : World}

namespace Transient

variable {cell : Cell} {building : Editable} {step : Editable → Attempt Editable}

theorem transientAt_run {state : TransientCell}
    (found : world.transients.get? cell.index = some state) :
    Run.transientAt cell machine world = some (state, world) := by
  change Run.found (world.transients.get? cell.index) machine world = _
  rw [found]
  rfl

theorem editable_run (found : world.transients.get? cell.index = some (some building)) :
    (editable cell).run machine world = some (.ok building, world) :=
  Attempt.run_bind_ok (Attempt.run_lift (transientAt_run found))

theorem editable_run_sealed (found : world.transients.get? cell.index = some none) :
    (editable cell).run machine world = some (.error .transientSealed, world) :=
  Attempt.run_bind_ok (Attempt.run_lift (transientAt_run found))

theorem change_run_ok (found : world.transients.get? cell.index = some (some building))
    {changed : Editable} (ran : (step building).run machine world = some (.ok changed, after)) :
    (change cell step).run machine world =
      some (.ok (),
        { after with transients := after.transients.set cell.index (some changed) }) :=
  (Attempt.run_bind_ok (editable_run found)).trans (Attempt.run_bind_ok ran)

theorem change_run_error (found : world.transients.get? cell.index = some (some building))
    {error : Error} (ran : (step building).run machine world = some (.error error, after)) :
    (change cell step).run machine world = some (.error error, after) :=
  (Attempt.run_bind_ok (editable_run found)).trans (Attempt.run_bind_error ran)

theorem change_run_sealed (found : world.transients.get? cell.index = some none) :
    (change cell step).run machine world = some (.error .transientSealed, world) :=
  Attempt.run_bind_error (editable_run_sealed found)

theorem persistent_run (found : world.transients.get? cell.index = some (some building))
    {value : Value}
    (ran : building.toValue machine
      { world with transients := world.transients.set cell.index none } = some (value, after)) :
    (persistent cell).run machine world = some (.ok value, after) :=
  (Attempt.run_bind_ok (editable_run found)).trans (Attempt.run_lift ran)

theorem persistent_run_sealed (found : world.transients.get? cell.index = some none) :
    (persistent cell).run machine world = some (.error .transientSealed, world) :=
  Attempt.run_bind_error (editable_run_sealed found)

theorem ofValue_run {source : Value}
    (ran : (Editable.ofValue source).run machine world = some (.ok building, after)) :
    (ofValue source).run machine world = some (.ok ⟨after.transients.next⟩,
      { after with transients := after.transients.push (some building) }) :=
  Attempt.run_bind_ok ran

end Transient

end

/-! ## Transients of the world -/

namespace Moment

/-- Reading has nothing to do with transients. -/
def withTransients (moment : Moment) (transients : Store TransientCell) : Moment where
  memory := moment.memory
  world := { moment.world with transients := transients }
  heap_taken := moment.heap_taken
  maps_sound := moment.maps_sound
  map_held := moment.map_held

theorem le_withTransients (moment : Moment) (transients : Store TransientCell) :
    moment ≤ moment.withTransients transients where
  memory _ _ known := known
  unknown _ unknown := unknown
  addresses := Nat.le_refl _
  realized _ _ realized := realized
  stored _ record _ _ stored := ⟨record.hash, stored, fun _ => rfl⟩
  remembers _ right := right

end Moment

/-- If the value is an array map, its handle still denotes what the map has. Nothing else
in a value can change. -/
def Value.IsIntact (world : World) : Value → Prop
  | arrayMap handle pairs _ => world.maps.Denotes handle pairs
  | _ => True

/-- What there was before is still there: values, older transients, and all that is kept
elsewhere. -/
structure World.Respects (before after : World) : Prop where
  values : ∀ value : Value, value.IsIntact before → value.IsIntact after
  transients : ∀ index, index < before.transients.next →
    after.transients.get? index = before.transients.get? index
  others : after = { before with
    addresses := after.addresses, maps := after.maps, transients := after.transients }

theorem World.Keeps.transients_eq {before after : World} (keeps : before.Keeps after) :
    after.transients = before.transients := by
  rw [keeps]

/-- The handle that an array map is built through. -/
def Editable.handle? : Editable → Option Nat
  | arrayMap handle => some handle
  | _ => none

namespace Transient

/-- A transient, what stands in its cell, and the contents that this should have. -/
structure Entry where
  cell : Cell
  building : TransientCell
  state : Option Contents

namespace Entry

def handle? (entry : Entry) : Option Nat := entry.building.bind Editable.handle?

/-- Neither cells nor handles are shared. -/
def Apart (left right : Entry) : Prop :=
  left.cell.index ≠ right.cell.index ∧
    ∀ handle, left.handle? = some handle → right.handle? ≠ some handle

theorem Apart.symm {left right : Entry} (apart : left.Apart right) : right.Apart left :=
  ⟨apart.1.symm, fun handle owns owned => apart.2 handle owned owns⟩

/-- The list around one of its elements. -/
private theorem split_of_getElem? {α : Type} {elements : List α} {index : Nat} {element : α}
    (found : elements[index]? = some element) :
    ∃ before rest, elements = before ++ element :: rest ∧
      ∀ other, elements.set index other = before ++ other :: rest := by
  induction elements generalizing index with
  | nil => cases found
  | cons first others induction =>
      cases index with
      | zero =>
          cases found
          exact ⟨[], others, rfl, fun _ => rfl⟩
      | succ index =>
          rcases induction found with ⟨before, rest, split, replaced⟩
          exact ⟨first :: before, rest, congrArg (first :: ·) split,
            fun other => congrArg (first :: ·) (replaced other)⟩

section

variable {entries : List Entry} {index : Nat} {entry new : Entry}

theorem map_cell_set (found : entries[index]? = some entry) (building : TransientCell)
    (state : Option Contents) :
    (entries.set index ⟨entry.cell, building, state⟩).map cell = entries.map cell := by
  rcases split_of_getElem? found with ⟨before, rest, rfl, replaced⟩
  rw [replaced, List.map_append, List.map_append, List.map_cons, List.map_cons]

/-- An entry comes in the place of another one. All others are apart from that one. -/
theorem mem_set_of_apart (apart : entries.Pairwise Apart) (found : entries[index]? = some entry)
    {other : Entry} (member : other ∈ entries.set index new) :
    other = new ∨ other ∈ entries ∧ entry.Apart other := by
  rcases split_of_getElem? found with ⟨before, rest, rfl, replaced⟩
  rw [replaced] at member
  rcases List.pairwise_append.mp apart with ⟨_, apartRest, across⟩
  rcases List.mem_append.mp member with member | member
  · exact .inr ⟨List.mem_append_left _ member,
      (across other member entry (List.mem_cons_self ..)).symm⟩
  rcases List.mem_cons.mp member with same | member
  · exact .inl same
  · exact .inr ⟨List.mem_append_right _ (List.mem_cons_of_mem _ member),
      (List.pairwise_cons.mp apartRest).1 other member⟩

theorem pairwise_set_of_apart (apart : entries.Pairwise Apart)
    (found : entries[index]? = some entry)
    (still : ∀ other : Entry, entry.Apart other → new.Apart other) :
    (entries.set index new).Pairwise Apart := by
  rcases split_of_getElem? found with ⟨before, rest, rfl, replaced⟩
  rw [replaced]
  rcases List.pairwise_append.mp apart with ⟨apartBefore, apartRest, across⟩
  rcases List.pairwise_cons.mp apartRest with ⟨first, apartRest⟩
  refine List.pairwise_append.mpr ⟨apartBefore, List.pairwise_cons.mpr
    ⟨fun other member => still other (first other member), apartRest⟩, ?_⟩
  intro left inBefore right member
  rcases List.mem_cons.mp member with rfl | member
  · exact (still left (across left inBefore entry (List.mem_cons_self ..)).symm).symm
  · exact across left inBefore right (List.mem_cons_of_mem _ member)

end

end Entry

end Transient

namespace Reader

open Transient (Command Outcome Entry)
open Contents (Report HaveShape)

/-- The reader, when nobody answers a call. -/
def silent (reader : Reader) : Reader where
  machine := reader.machine.silent
  start := reader.start
  datumOf := reader.datumOf
  bound := reader.bound
  remembers := reader.remembers
  enough := reader.enough

variable {reader : Reader} {now between after : Moment} {entries : List Entry}
  {entry : Entry} {index : Nat}

/-- What the reader can do without calls happens just so with them, and all that
changes are addresses and array maps. -/
theorem run_of_quiet {α : Type} {written : Option Nat} {computation : Run α}
    {post : α → Moment → Prop} (quiet : Quiet computation)
    (spares : Spares reader.silent.setting now written computation post) :
    ∃ answer after, computation reader.machine now.world = some (answer, after.world) ∧
      now.world.Keeps after.world ∧ reader.start ≤ after ∧
      (∀ other pairs, written ≠ some other → Denoted reader.silent.setting now other pairs →
        Denoted reader.silent.setting after other pairs) ∧
      post answer after := by
  rcases spares with ⟨answer, after, ran, le, others, holds⟩
  rcases quiet reader.machine now.world answer after.world ran with ⟨ranLoud, keeps⟩
  exact ⟨answer, after, ranLoud, keeps, le, others, holds⟩

/-- Nothing but the collection's own handle is written. -/
def BuildsAlone (reader : Reader) (now : Moment) (editable : Editable) (contents : Contents) :
    Prop :=
  reader.silent.Builds editable.handle? now editable contents

theorem Builds.alone {written : Option Nat} {editable : Editable} {contents : Contents}
    (builds : reader.silent.Builds written now editable contents) :
    reader.BuildsAlone now editable contents ∧
      ∀ handle, editable.handle? = some handle → written = some handle := by
  cases builds with
  | arrayMap own denoted => exact ⟨.arrayMap rfl denoted, fun _ same => same ▸ own⟩
  | hashMap keys => exact ⟨.hashMap keys, nofun⟩
  | sortedMap keys => exact ⟨.sortedMap keys, nofun⟩
  | vector => exact ⟨.vector, nofun⟩
  | hashSet keys => exact ⟨.hashSet keys, nofun⟩
  | sortedSet keys => exact ⟨.sortedSet keys, nofun⟩

theorem BuildsAlone.contents_run {editable : Editable} {contents : Contents}
    (builds : reader.BuildsAlone now editable contents) :
    ∃ shown, editable.contents reader.machine now.world = some (shown, now.world) ∧
      shown.contents? = some contents ∧ shown.metadata? = none := by
  cases builds with
  | arrayMap _ denoted =>
      refine ⟨_, rfl, ?_, rfl⟩
      exact congrArg (some ∘ Contents.arrayMap) denoted.entries_eq
  | hashMap | sortedMap | vector | hashSet | sortedSet => exact ⟨_, rfl, rfl, rfl⟩

theorem BuildsAlone.denoted {editable : Editable} {contents : Contents}
    (builds : reader.BuildsAlone now editable contents) {handle : Nat}
    (own : editable.handle? = some handle) :
    ∃ pairs, Denoted reader.silent.setting now handle pairs := by
  cases builds with
  | arrayMap same denoted =>
      cases own
      exact ⟨_, denoted⟩
  | hashMap | sortedMap | vector | hashSet | sortedSet => cases own

theorem buildsAlone_kept {building : TransientCell} {state : Option Contents}
    (related : Option.Rel (reader.BuildsAlone now) building state)
    (keeps : ∀ handle pairs, building.bind Editable.handle? = some handle →
      Denoted reader.silent.setting now handle pairs →
      Denoted reader.silent.setting after handle pairs) :
    Option.Rel (reader.BuildsAlone after) building state := by
  cases related with
  | none => exact .none
  | some builds => exact .some (builds.kept keeps)

/-- Since the start there has been reading, and writing to new transients. -/
structure Respects (reader : Reader) (now : Moment) : Prop where
  le : reader.start ≤ now
  others : now.world = { reader.start.world with
    addresses := now.world.addresses, maps := now.world.maps,
    transients := now.world.transients }
  grown : reader.start.world.transients.next ≤ now.world.transients.next
  old : ∀ index, index < reader.start.world.transients.next →
    now.world.transients.get? index = reader.start.world.transients.get? index

namespace Respects

theorem world (respects : reader.Respects now) : reader.start.world.Respects now.world where
  values value intact := by
    cases value with
    | arrayMap handle pairs metadata => exact respects.le.denotes intact
    | _ => trivial
  transients := respects.old
  others := respects.others

theorem kept (respects : reader.Respects now) (keeps : now.world.Keeps after.world)
    (le : reader.start ≤ after) : reader.Respects after := by
  have same := keeps.transients_eq
  refine ⟨le, ?_, ?_, ?_⟩
  · rw [keeps, respects.others]
  · exact same ▸ respects.grown
  · exact same ▸ respects.old

theorem written (respects : reader.Respects now) {transients : Store TransientCell}
    (grown : reader.start.world.transients.next ≤ transients.next)
    (old : ∀ index, index < reader.start.world.transients.next →
      transients.get? index = reader.start.world.transients.get? index) :
    reader.Respects (now.withTransients transients) where
  le := respects.le.trans (now.le_withTransients transients)
  others := congrArg (fun world : World => { world with transients := transients })
    respects.others
  grown := grown
  old := old

end Respects

/-- Each transient holds what it should, in a cell of its own, and array maps are built
through handles of their own. -/
structure HoldsCells (reader : Reader) (now : Moment) (entries : List Entry) : Prop where
  respects : reader.Respects now
  fresh : ∀ entry ∈ entries, reader.start.world.transients.next ≤ entry.cell.index
  found : ∀ entry ∈ entries, now.world.transients.get? entry.cell.index = some entry.building
  builds : ∀ entry ∈ entries, Option.Rel (reader.BuildsAlone now) entry.building entry.state
  apart : entries.Pairwise Entry.Apart

/-- Something that has been taken out: nobody writes through its handle. -/
def Published (reader : Reader) (now : Moment) (entries : List Entry) (value : Value) : Prop :=
  ∃ contents, reader.silent.Shows now value contents ∧
    ∀ handle, value.address? = some (.map handle) →
      ∀ entry ∈ entries, entry.handle? ≠ some handle

theorem buildsAlone_denoted {entry : Entry}
    (related : Option.Rel (reader.BuildsAlone now) entry.building entry.state) {handle : Nat}
    (own : entry.handle? = some handle) :
    ∃ pairs, Denoted reader.silent.setting now handle pairs := by
  rcases Option.bind_eq_some_iff.mp own with ⟨editable, building, isHandle⟩
  rw [building] at related
  generalize entry.state = state at related
  cases related with
  | some builds => exact builds.denoted isHandle

namespace HoldsCells

/-- Nothing but reading has happened, and writing to what no transient owns. -/
theorem kept (holds : reader.HoldsCells now entries) (keeps : now.world.Keeps after.world)
    (le : reader.start ≤ after)
    (others : ∀ handle pairs, Denoted reader.silent.setting now handle pairs →
      Denoted reader.silent.setting after handle pairs) :
    reader.HoldsCells after entries :=
  ⟨holds.respects.kept keeps le, holds.fresh, keeps.transients_eq ▸ holds.found,
    fun entry member => buildsAlone_kept (holds.builds entry member) fun _ _ _ => others _ _,
    holds.apart⟩

/-- Another transient has been opened, and what it owns denoted nothing before. -/
theorem appended (holds : reader.HoldsCells now entries)
    (keeps : now.world.Keeps between.world) (le : reader.start ≤ between)
    (others : ∀ handle pairs, Denoted reader.silent.setting now handle pairs →
      Denoted reader.silent.setting between handle pairs)
    {editable : Editable} {contents : Contents}
    (builds : reader.BuildsAlone between editable contents)
    (new : ∀ handle, editable.handle? = some handle →
      ∀ pairs, ¬Denoted reader.silent.setting now handle pairs) :
    reader.HoldsCells
      (between.withTransients (between.world.transients.push (some editable)))
      (entries ++ [⟨⟨between.world.transients.next⟩, some editable, some contents⟩]) := by
  have keptHolds := holds.kept keeps le others
  have later := between.le_withTransients (between.world.transients.push (some editable))
  have isOld : ∀ index, index < between.world.transients.next →
      (between.world.transients.push (some editable)).get? index =
        between.world.transients.get? index := fun _ => Store.get?_push_of_lt _ _
  have isThere : ∀ entry ∈ entries, entry.cell.index < between.world.transients.next :=
    fun entry member => Store.lt_next_of_get? (keptHolds.found entry member)
  have respects := keptHolds.respects
  refine ⟨respects.written ?_ ?_, ?_, ?_, ?_, ?_⟩
  · exact respects.grown.trans (by simp [Store.next, Store.push])
  · intro index old
    rw [isOld index (old.trans_le respects.grown)]
    exact respects.old index old
  · intro entry member
    rcases List.mem_append.mp member with member | member
    · exact holds.fresh entry member
    · cases List.mem_singleton.mp member
      exact respects.grown
  · intro entry member
    change (between.world.transients.push (some editable)).get? _ = _
    rcases List.mem_append.mp member with member | member
    · rw [isOld _ (isThere entry member)]
      exact keptHolds.found entry member
    · cases List.mem_singleton.mp member
      exact Store.get?_push_next _ _
  · intro entry member
    rcases List.mem_append.mp member with member | member
    · exact buildsAlone_kept (keptHolds.builds entry member)
        fun _ _ _ denoted => denoted.later later
    · cases List.mem_singleton.mp member
      exact .some (builds.kept fun _ _ _ denoted => denoted.later later)
  · refine List.pairwise_append.mpr ⟨holds.apart, List.pairwise_singleton _ _, ?_⟩
    intro entry member other single
    cases List.mem_singleton.mp single
    refine ⟨(isThere entry member).ne, fun handle owns owned => ?_⟩
    rcases buildsAlone_denoted (holds.builds entry member) owns with ⟨pairs, denoted⟩
    exact new handle owned pairs denoted

/-- One transient has come to hold something else, or nothing any more. Only through its
own handle has anything been written. -/
theorem updated (holds : reader.HoldsCells now entries) (found : entries[index]? = some entry)
    (keeps : now.world.Keeps between.world) (le : reader.start ≤ between)
    (others : ∀ handle pairs, entry.handle? ≠ some handle →
      Denoted reader.silent.setting now handle pairs →
      Denoted reader.silent.setting between handle pairs)
    {building : TransientCell} {state : Option Contents}
    (related : Option.Rel (reader.BuildsAlone between) building state)
    (own : ∀ handle, building.bind Editable.handle? = some handle →
      entry.handle? = some handle) :
    reader.HoldsCells
      (between.withTransients (between.world.transients.set entry.cell.index building))
      (entries.set index ⟨entry.cell, building, state⟩) := by
  have same := keeps.transients_eq
  have later := between.le_withTransients
    (between.world.transients.set entry.cell.index building)
  have member := List.mem_of_getElem? found
  have isThere : entry.cell.index < between.world.transients.next :=
    same ▸ Store.lt_next_of_get? (holds.found entry member)
  have respects := holds.respects.kept keeps le
  refine ⟨respects.written ?_ ?_, ?_, ?_, ?_, ?_⟩
  · exact respects.grown.trans_eq (by simp [Store.next, Store.set])
  · intro index old
    have elsewhere : index ≠ entry.cell.index := (old.trans_le (holds.fresh entry member)).ne
    rw [Store.get?_set, if_neg (elsewhere ∘ And.left)]
    exact respects.old index old
  · intro other inside
    rcases Entry.mem_set_of_apart holds.apart found inside with rfl | ⟨inside, _⟩
    · exact holds.fresh entry member
    · exact holds.fresh other inside
  · intro other inside
    change (between.world.transients.set entry.cell.index building).get? _ = _
    rcases Entry.mem_set_of_apart holds.apart found inside with rfl | ⟨inside, apart⟩
    · rw [Store.get?_set, if_pos ⟨rfl, isThere⟩]
    · rw [Store.get?_set, if_neg (apart.1.symm ∘ And.left), same]
      exact holds.found other inside
  · intro other inside
    rcases Entry.mem_set_of_apart holds.apart found inside with rfl | ⟨inside, apart⟩
    · exact buildsAlone_kept related fun _ _ _ denoted => denoted.later later
    · apply buildsAlone_kept (holds.builds other inside)
      intro handle pairs owns denoted
      exact (others handle pairs (fun owned => apart.2 handle owned owns) denoted).later later
  · exact Entry.pairwise_set_of_apart holds.apart found fun other apart =>
      ⟨apart.1, fun handle owns => apart.2 handle (own handle owns)⟩

end HoldsCells

/-! ### What has been taken out -/

namespace Published

variable {value : Value}

theorem intact (published : reader.Published now entries value) :
    value.IsIntact now.world := by
  rcases published with ⟨_, shows, _⟩
  cases shows with
  | arrayMap denoted =>
      rcases denoted.stored with ⟨record, spare, stored, _⟩
      exact ⟨record, spare, stored⟩
  | hashMap | sortedMap | vector | hashSet | sortedSet => trivial

theorem kept (published : reader.Published now entries value)
    (others : ∀ handle pairs, Denoted reader.silent.setting now handle pairs →
      Denoted reader.silent.setting after handle pairs) :
    reader.Published after entries value := by
  rcases published with ⟨contents, shows, free⟩
  exact ⟨contents, shows.kept fun handle pairs _ => others handle pairs, free⟩

theorem appended (published : reader.Published now entries value)
    (others : ∀ handle pairs, Denoted reader.silent.setting now handle pairs →
      Denoted reader.silent.setting after handle pairs)
    (new : ∀ handle, entry.handle? = some handle →
      ∀ pairs, ¬Denoted reader.silent.setting now handle pairs) :
    reader.Published after (entries ++ [entry]) value := by
  rcases published with ⟨contents, shows, free⟩
  refine ⟨contents, shows.kept fun handle pairs _ => others handle pairs, ?_⟩
  intro handle place other member
  rcases List.mem_append.mp member with member | member
  · exact free handle place other member
  · cases List.mem_singleton.mp member
    rcases shows.denoted place with ⟨pairs, denoted⟩
    exact fun owns => new handle owns pairs denoted

theorem updated (published : reader.Published now entries value) (member : entry ∈ entries)
    (others : ∀ handle pairs, entry.handle? ≠ some handle →
      Denoted reader.silent.setting now handle pairs →
      Denoted reader.silent.setting after handle pairs) {new : Entry}
    (own : ∀ handle, new.handle? = some handle → entry.handle? = some handle) :
    reader.Published after (entries.set index new) value := by
  rcases published with ⟨contents, shows, free⟩
  refine ⟨contents, shows.kept fun handle pairs place =>
    others handle pairs (free handle place entry member), ?_⟩
  intro handle place other inside
  rcases List.mem_or_eq_of_mem_set inside with inside | rfl
  · exact free handle place other inside
  · exact fun owns => free handle place entry member (own handle owns)

end Published

end Reader

end LispRuntime
