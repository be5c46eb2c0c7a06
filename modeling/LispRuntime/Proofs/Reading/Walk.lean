import LispRuntime.Proofs.Reading.Run
import LispRuntime.Sequence.Cursor

/-! Walking over what can be read. A cursor that yields some elements yields the
first of them at its next step and then goes on with the others; whatever is
allocated on the way can be read as well. -/

namespace LispRuntime

section

variable {machine : Machine} {moment : Moment}

/-! ## New values -/

namespace Value

theorem newList_gives {elements : List Value} {items : List Datum}
    (read : moment.ReadsAll elements items) (metadata : Option Value) :
    Gives machine moment (newList elements metadata) fun value after =>
      (∃ address, value = list address elements metadata) ∧
        after.Reads value (.sequence items) := by
  refine ⟨_, moment.place (.sequence items), rfl, moment.le_place _, ⟨_, rfl⟩, ?_⟩
  refine .sequence rfl (.list (Moment.readsAll_later (moment.le_place _) read)) ?_
  rintro address ⟨⟩
  exact moment.place_memory _

theorem newVector_gives {elements : List Value} {items : List Datum}
    (read : moment.ReadsAll elements items) (metadata : Option Value) :
    Gives machine moment (newVector elements metadata) fun value after =>
      (∃ address, value = vector address elements metadata) ∧
        after.Reads value (.sequence items) := by
  refine ⟨_, moment.place (.sequence items), rfl, moment.le_place _, ⟨_, rfl⟩, ?_⟩
  refine .sequence rfl (.vector (Moment.readsAll_later (moment.le_place _) read)) ?_
  rintro address ⟨⟩
  exact moment.place_memory _

end Value

/-! ## Seqs -/

namespace Value

theorem listSeq_gives {elements : List Value} {items : List Datum}
    (read : moment.ReadsAll elements items) :
    Gives machine moment (listSeq elements) fun seq after =>
      seq.isSeq = true ∧ after.Walks seq items := by
  unfold listSeq
  cases read with
  | nil => exact Gives.pure ⟨rfl, .nil⟩
  | cons first rest =>
      apply (newList_gives (.cons first rest) none).weaken
      rintro _ after le ⟨⟨address, rfl⟩, _⟩
      exact ⟨rfl, .list (Moment.readsAll_later le (.cons first rest))⟩

theorem entrySeq_gives {entries : List (Value × Value)} {keys values : List Datum}
    (readKeys : moment.ReadsAll (entries.map Prod.fst) keys)
    (readValues : moment.ReadsAll (entries.map Prod.snd) values) :
    Gives machine moment (entrySeq entries) fun seq after =>
      seq.isSeq = true ∧ after.Walks seq (List.zipWith Datum.entry keys values) := by
  have vectors : Gives machine moment (entries.mapM entryVector) fun vectors after =>
      List.Forall₂ (fun vector data => after.Reads vector (Datum.entry data.1 data.2))
        vectors (keys.zip values) := by
    refine Gives.mapM Moment.ReadsEntry
      (fun after vector data => after.Reads vector (Datum.entry data.1 data.2))
      Moment.readsEntry_later (fun le _ _ => Moment.reads_later le)
      (ReadsAll.entries readKeys readValues) ?_
    intro between _ entry data _ both
    apply (newVector_gives (.cons both.1 (.cons both.2 .nil)) none).weaken
    exact fun _ _ _ read => read.2
  apply vectors.bind
  intro vectors between _ read
  apply listSeq_gives
  apply ReadsAll.of_forall₂
  rw [← List.map_uncurry_zip_eq_zipWith]
  exact List.forall₂_map_right_iff.mpr read

theorem string_chars_read (moment : Moment) (chars : List Char) :
    moment.ReadsAll (chars.map character) (chars.map fun char => .leaf (.character char)) := by
  induction chars with
  | nil => exact .nil
  | cons char rest induction => exact .cons (.leaf rfl (by rintro _ ⟨⟩)) induction

theorem force_realized {cell : Ref .deferred} {value : Value}
    (realized : moment.world.deferred.get? cell.index = some (.realized value))
    (complete : Value → Attempt Value) {post : Value → Moment → Prop} (holds : post value moment) :
    Succeeds machine moment (force cell complete) post := by
  have found : Run.deferredAt cell machine moment.world =
      some (.realized value, moment.world) := by
    change Run.found (moment.world.deferred.get? cell.index) machine moment.world = _
    rw [realized]
    rfl
  exact Succeeds.looking found (Succeeds.pure holds)

/-- What can be walked over has a seq, and a walk over that meets the same. -/
theorem seqWithin_succeeds {fuel : Nat} (enough : 0 < fuel) {value : Value}
    {items : List Datum} (walk : moment.Walks value items) :
    Succeeds machine moment (seqWithin fuel value) fun seq after =>
      seq.isSeq = true ∧ after.Walks seq items := by
  rcases fuel with _ | fuel
  · cases enough
  cases walk with
  | nil => exact Succeeds.pure ⟨rfl, .nil⟩
  | string => exact Succeeds.lift (listSeq_gives (string_chars_read moment _))
  | @list address elements metadata items read =>
      cases read with
      | nil => exact Succeeds.pure ⟨rfl, .nil⟩
      | cons first rest => exact Succeeds.pure ⟨rfl, .list (.cons first rest)⟩
  | vector read => exact Succeeds.lift (listSeq_gives read)
  | cons read walk => exact Succeeds.pure ⟨rfl, .cons read walk⟩
  | map contents readKeys readValues =>
      cases value <;> cases contents
      all_goals exact Succeeds.lift (entrySeq_gives readKeys readValues)
  | set contents read =>
      cases value <;> cases contents
      all_goals exact Succeeds.lift (listSeq_gives read)
  | lazySeq realized isSeq walk => exact force_realized realized _ ⟨isSeq, walk⟩

theorem seq_succeeds (enough : 0 < machine.limit) {value : Value} {items : List Datum}
    (walk : moment.Walks value items) :
    Succeeds machine moment value.seq fun seq after =>
      seq.isSeq = true ∧ after.Walks seq items := by
  exact Succeeds.looking rfl (seqWithin_succeeds enough walk)

end Value

/-! ## Cursors -/

/-- A walk meets these elements before its end. -/
def Moment.Yields (moment : Moment) : Cursor → List Datum → Prop
  | .done, items => items = []
  | .items rest, items => moment.ReadsAll rest items
  | .pending value, items => moment.Walks value items

/-- One step of a walk over these elements is at the end, or meets the first of
them and goes on with the others. -/
inductive Moment.Meets (moment : Moment) : Option Value × Cursor → List Datum → Prop
  | done {rest : Cursor} : Meets moment (none, rest) []
  | element {value : Value} {datum : Datum} {rest : Cursor} {items : List Datum}
      (read : moment.Reads value datum) (yields : moment.Yields rest items) :
      Meets moment (some value, rest) (datum :: items)

/-- A step without an error. -/
def Moment.Steps (moment : Moment) (step : Cursor.Yield × Cursor) (items : List Datum) : Prop :=
  ∃ element rest, step = (element.map Except.ok, rest) ∧ moment.Meets (element, rest) items

namespace Moment

theorem yields_later {before after : Moment} (le : before ≤ after) {cursor : Cursor}
    {items : List Datum} (yields : before.Yields cursor items) : after.Yields cursor items := by
  cases cursor with
  | done => exact yields
  | items rest => exact readsAll_later le yields
  | pending value => exact walks_later le yields

theorem steps_nextItem {elements : List Value} {items : List Datum}
    (read : moment.ReadsAll elements items) : moment.Steps (Cursor.nextItem elements) items := by
  cases read with
  | nil => exact ⟨none, .done, rfl, .done⟩
  | @cons value _ rest _ first others =>
      exact ⟨some value, .items rest, rfl, .element first others⟩

end Moment

namespace Cursor

theorem next_gives (enough : 0 < machine.limit) {cursor : Cursor} {items : List Datum}
    (yields : moment.Yields cursor items) :
    Gives machine moment cursor.next fun step after => after.Steps step items := by
  unfold next
  split
  case h_1 =>
    cases yields
    exact Gives.pure ⟨none, .done, rfl, .done⟩
  case h_2 => exact Gives.pure (Moment.steps_nextItem yields)
  case h_3 | h_4 => exact Gives.pure (Moment.steps_nextItem (yields.indexed rfl))
  case h_5 =>
    apply Gives.bind (Value.seq_succeeds enough yields)
    rintro _ between _ ⟨seq, rfl, isSeq, walk⟩
    cases seq <;> cases isSeq
    case nil =>
      cases walk with
      | nil => exact Gives.pure ⟨none, .done, rfl, .done⟩
      | map contents | set contents => cases contents
    case list => exact Gives.pure (Moment.steps_nextItem (walk.indexed rfl))
    case cons first rest =>
      cases walk with
      | cons read walk =>
          exact Gives.pure ⟨some first, .pending rest, rfl, .element read walk⟩
      | map contents | set contents => cases contents

end Cursor

end

end LispRuntime
