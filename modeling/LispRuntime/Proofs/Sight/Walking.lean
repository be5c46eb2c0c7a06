import LispRuntime.Proofs.Reading.Outlook
import LispRuntime.Proofs.Sight.Basic

/-! Walks in sight. A machine has the foresight that is needed if every lazy seq that is pending
comes to what is foretold whenever it is asked for: to a seq of it, or to an error if there is
nothing but a failure. Then every walk meets what is shown, and values are hashed, compared and
looked up as in any outlook. -/

namespace LispRuntime

/-- What asking for a seq may come to. -/
def Sight.Delivers (after : Sight) (prospect : Prospect) : Except Error Value → Prop
  | .ok seq => seq.isSeq = true ∧ after.Shows seq prospect.whole prospect.items
  | .error _ => prospect.whole = false ∧ prospect.items = []

/-- A forecast that comes true. What is kept is whatever the bodies rely on, besides that lazy seqs
which they make are foretold in their turn. -/
structure Foresight (machine : Machine) where
  Kept : Sight → Prop
  starts : 0 < machine.limit
  reaches : ∀ {sight : Sight}, Kept sight → ∀ (later : Moment) (le : sight.toMoment ≤ later)
    (untouched : later.world.deferred = sight.world.deferred),
    Kept (sight.reaching later le untouched)
  comes : ∀ {sight : Sight} {cell : Ref .deferred} {prospect : Prospect} {body : Value},
    Kept sight → sight.forecast.cells cell.index = some prospect →
    sight.world.deferred.get? cell.index = some (.pending body) →
    ∃ outcome after, (Value.seq (.lazySeq cell)).run machine sight.world =
        some (outcome, after.world) ∧
      sight ≤ after ∧ Kept after ∧ after.Delivers prospect outcome

namespace Foresight

variable {machine : Machine} {foresight : Foresight machine} {α : Type}

/-- A sight that is kept. -/
abbrev View (foresight : Foresight machine) := { sight : Sight // foresight.Kept sight }

namespace View

variable {view : foresight.View}

/-- The computation ends, further on, with an answer for which the predicate holds. -/
abbrev Ends (view : foresight.View) (computation : Run α) (post : α → foresight.View → Prop) :
    Prop :=
  Run.Ends (fun view => view.1.world) machine view computation post

def reaching (view : foresight.View) (later : Moment) (le : view.1.toMoment ≤ later)
    (untouched : later.world.deferred = view.1.world.deferred) : foresight.View :=
  ⟨view.1.reaching later le untouched, foresight.reaches view.2 later le untouched⟩

theorem le_reaching (view : foresight.View) {later : Moment} (le : view.1.toMoment ≤ later)
    (untouched : later.world.deferred = view.1.world.deferred) :
    view ≤ view.reaching later le untouched :=
  view.1.le_reaching le untouched

/-! ## Seqs -/

theorem newList_ends {elements : List Value} {metadata : Option Value} :
    view.Ends (Value.newList elements metadata) fun value _ =>
      ∃ address, value = .list address elements metadata :=
  ⟨_, view.reaching view.1.toMoment.skip view.1.toMoment.le_skip rfl, rfl,
    view.le_reaching view.1.toMoment.le_skip rfl, ⟨_, rfl⟩⟩

theorem listSeq_ends {elements : List Value} {items : List Datum}
    (seen : List.Forall₂ view.1.Sees elements items) :
    view.Ends (Value.listSeq elements) fun seq after =>
      seq.isSeq = true ∧ after.1.Shows seq true items := by
  unfold Value.listSeq
  cases seen with
  | nil => exact Run.Ends.pure ⟨rfl, .nil⟩
  | cons first rest =>
      apply newList_ends.weaken
      rintro _ after le ⟨address, rfl⟩
      exact ⟨rfl, .list (Sight.seesAll_later le (.of_forall₂ (.cons first rest)))⟩

theorem entryVector_ends {entry : Value × Value} {key value : Datum}
    (seenKey : view.1.Sees entry.1 key) (seenValue : view.1.Sees entry.2 value)
    (tells : ∀ vector, view.1.forecast.Tells vector true [key, value]) :
    view.Ends (Value.entryVector entry) fun vector after =>
      after.1.Sees vector (Datum.entry key value) := by
  have le := view.le_reaching (view.1.toMoment.le_place (Datum.entry key value)) rfl
  refine ⟨_, view.reaching _ (view.1.toMoment.le_place (Datum.entry key value)) rfl, rfl, le, ?_⟩
  refine .sequence rfl (.vector (.cons (Sight.sees_later le seenKey)
    (.cons (Sight.sees_later le seenValue) .nil))) ?_ (tells _)
  rintro address ⟨⟩
  exact view.1.place_memory _

/-- An entry whose vector will be like no sequence that fails. -/
def SeesEntry (view : foresight.View) (entry : Value × Value) (data : Datum × Datum) : Prop :=
  view.1.Sees entry.1 data.1 ∧ view.1.Sees entry.2 data.2 ∧
    ∀ vector, view.1.forecast.Tells vector true [data.1, data.2]

theorem seesEntry_later {before after : foresight.View} (le : before ≤ after)
    (entry : Value × Value) (data : Datum × Datum) (seen : before.SeesEntry entry data) :
    after.SeesEntry entry data :=
  ⟨Sight.sees_later le seen.1, Sight.sees_later le seen.2.1,
    fun vector => (show before.1 ≤ after.1 from le).forecast.tells (seen.2.2 vector)⟩

theorem seesEntries {entries : List (Value × Value)} {keys values : List Datum}
    (seenKeys : view.1.SeesAll (entries.map Prod.fst) keys)
    (seenValues : view.1.SeesAll (entries.map Prod.snd) values)
    (tells : ∀ pair ∈ keys.zip values, ∀ vector,
      view.1.forecast.Tells vector true [pair.1, pair.2]) :
    List.Forall₂ view.SeesEntry entries (keys.zip values) := by
  induction entries generalizing keys values with
  | nil =>
      cases seenKeys
      exact .nil
  | cons entry rest induction =>
      cases seenKeys with
      | cons key seenKeys =>
          cases seenValues with
          | cons value seenValues =>
              refine .cons ⟨key, value, tells _ (List.mem_cons_self ..)⟩ ?_
              exact induction seenKeys seenValues fun pair member =>
                tells pair (List.mem_cons_of_mem _ member)

theorem entrySeq_ends {entries : List (Value × Value)} {keys values : List Datum}
    (seen : List.Forall₂ view.SeesEntry entries (keys.zip values)) :
    view.Ends (Value.entrySeq entries) fun seq after =>
      seq.isSeq = true ∧ after.1.Shows seq true (List.zipWith Datum.entry keys values) := by
  have vectors : view.Ends (entries.mapM Value.entryVector) fun vectors after =>
      List.Forall₂ (fun vector data => after.1.Sees vector (Datum.entry data.1 data.2))
        vectors (keys.zip values) := by
    refine Run.Ends.mapM SeesEntry
      (fun after vector data => after.1.Sees vector (Datum.entry data.1 data.2))
      seesEntry_later (fun le _ _ => Sight.sees_later le) seen ?_
    intro between _ entry data _ seen
    exact entryVector_ends seen.1 seen.2.1 seen.2.2
  apply vectors.bind
  intro vectors between _ seen
  apply listSeq_ends
  rw [← List.map_uncurry_zip_eq_zipWith]
  exact List.forall₂_map_right_iff.mpr seen

theorem string_chars_seen (sight : Sight) (chars : List Char) :
    List.Forall₂ sight.Sees (chars.map .character)
      (chars.map fun char => .leaf (.character char)) := by
  induction chars with
  | nil => exact .nil
  | cons char rest induction => exact .cons (.leaf rfl (by rintro _ ⟨⟩)) induction

theorem limit_ends (view : foresight.View) :
    view.Ends Run.limit fun limit after => limit = machine.limit ∧ after = view :=
  ⟨_, view, rfl, le_refl _, rfl, rfl⟩

/-- Asking for a seq comes to one that shows the same, or fails if there is nothing to show. -/
theorem seq_ends {value : Value} {whole : Bool} {items : List Datum}
    (shows : view.1.Shows value whole items) :
    view.Ends value.seq.run fun outcome after => after.1.Delivers ⟨whole, items⟩ outcome := by
  rcases Nat.exists_eq_add_of_le' foresight.starts with ⟨fuel, limit⟩
  have starts : ∀ {value : Value} {post : Except Error Value → foresight.View → Prop},
      view.Ends (Value.seqWithin (fuel + 1) value).run post → view.Ends value.seq.run post := by
    intro value post ends
    apply Run.Ends.first view.limit_ends
    rintro _ _ _ ⟨rfl, rfl⟩
    rwa [limit]
  cases shows with
  | nil => exact starts (Run.Ends.pure ⟨rfl, .nil⟩)
  | string => exact starts (Run.Ends.lift (listSeq_ends (string_chars_seen view.1 _)))
  | list seen =>
      apply starts
      cases seen with
      | nil => exact Run.Ends.pure ⟨rfl, .nil⟩
      | cons first rest => exact Run.Ends.pure ⟨rfl, .list (.cons first rest)⟩
  | vector seen => exact starts (Run.Ends.lift (listSeq_ends seen.forall₂))
  | cons seen shows => exact starts (Run.Ends.pure ⟨rfl, .cons seen shows⟩)
  | map contents seenKeys seenValues tells =>
      apply starts
      cases value <;> cases contents
      all_goals exact Run.Ends.lift (entrySeq_ends (seesEntries seenKeys seenValues tells))
  | set contents seen =>
      apply starts
      cases value <;> cases contents
      all_goals exact Run.Ends.lift (listSeq_ends seen.forall₂)
  | refused refused =>
      apply starts
      rw [Value.seqWithin_of_not_seqable refused]
      exact Run.Ends.pure ⟨rfl, rfl⟩
  | @lazySeq cell prospect known =>
      rcases view.1.fits _ _ known with ⟨state, here, fits⟩
      cases fits with
      | pending =>
          rcases foresight.comes view.2 known here with ⟨outcome, after, ran, le, kept, delivers⟩
          exact ⟨outcome, ⟨after, kept⟩, ran, le, delivers⟩
      | @realized seq isSeq shows =>
          exact starts ⟨_, view, force_run_realized here, le_refl _, isSeq, shows⟩

/-- One step of a walk is at the end, fails, or meets the first element that is shown. -/
theorem next_ends {value : Value} {whole : Bool} {items : List Datum}
    (shows : view.1.Shows value whole items) :
    view.Ends (Cursor.next (.pending value)) fun step after =>
      Cursor.StepsTo after.1.Sees after.1.Shows step whole items := by
  unfold Cursor.next
  split
  case h_1 pending | h_2 pending => cases pending
  case h_3 pending | h_4 pending =>
    cases pending
    rcases shows.indexed rfl with ⟨rfl, seen⟩
    exact Run.Ends.pure (Cursor.steps_nextItem seen)
  case h_5 value notList notVector pending =>
    cases pending
    apply Run.Ends.bind (seq_ends shows)
    intro outcome between _ delivers
    cases outcome with
    | error error =>
        rcases delivers with ⟨rfl, rfl⟩
        exact Run.Ends.pure .failed
    | ok seq =>
        rcases delivers with ⟨isSeq, shows⟩
        change between.1.Shows seq whole items at shows
        cases seq <;> cases isSeq
        case refl.ok.nil.refl =>
          cases shows with
          | nil => exact Run.Ends.pure .done
          | map contents | set contents => cases contents
          | refused refused => cases refused
        case refl.ok.list.refl =>
          rcases shows.indexed rfl with ⟨rfl, seen⟩
          exact Run.Ends.pure (Cursor.steps_nextItem seen)
        case refl.ok.cons.refl first rest =>
          cases shows with
          | cons seen showsRest => exact Run.Ends.pure (.element seen showsRest)
          | map contents | set contents => cases contents
          | refused refused => cases refused

end View

end Foresight

/-! ## An outlook -/

/-- If sequences that fail are told apart, nothing else shows what one of them does. -/
theorem Sees.identical_of_fails {forecast : Forecast} {moment : Moment}
    (telling : forecast.isTelling) {value other : Value} {items : List Datum}
    (kind : value.isSequential = true) (shows : Shows forecast moment value false items)
    (tells : forecast.Tells value false items)
    (seen : Sees forecast moment other (.sequence items)) :
    value.identical other = true := by
  have place : ∃ address, value.address? = some address := by
    cases value <;> first | exact ⟨_, rfl⟩ | cases kind
  rcases place with ⟨address, here⟩
  have fails := (tells telling address).mpr here
  cases seen with
  | @sequence _ whole _ otherKind otherShows placed otherTells =>
      cases whole
      case true => exact absurd fails (otherTells telling address)
      case false =>
        have there := (otherTells telling address).mp fails
        -- What is at hand does not fail, so that both are cons cells, or both are lazy seqs.
        cases value <;> cases kind
        case list.refl | vector.refl => cases (shows.indexed rfl).1
        all_goals
          cases here
          cases other <;> cases otherKind
          case list.refl | vector.refl => cases (otherShows.indexed rfl).1
          all_goals first | (cases there; done) | skip
        case cons.refl.refl.cons.refl =>
          cases there
          exact beq_self_eq_true _
        case lazySeq.refl.refl.lazySeq.refl cell other =>
          have same : other = cell := Ref.index_inj.mp (by simpa [Value.address?] using there)
          exact beq_iff_eq.mpr same.symm

namespace Foresight.View

variable {machine : Machine} {foresight : Foresight machine}

/-- From here on. -/
def outlook (view : foresight.View) : Outlook machine (Set.Ici view) where
  discerns := view.1.forecast.isTelling
  moment later := later.1.1.toMoment
  moment_le le := Sight.Leads.moment le
  Reads later := later.1.1.Sees
  Walks later := later.1.1.Shows
  reads_later le _ _ := Sight.sees_later le
  walks_later le _ _ _ := Sight.shown_later le
  standing {later} _ _ seen := by
    cases seen with
    | leaf known placed => exact .leaf known placed
    | @sequence _ whole _ kind shows placed tells =>
        refine .sequence kind shows placed fun telling fails other seen => ?_
        subst fails
        have le : view.1 ≤ later.1.1 := later.2
        have tellingThere : later.1.1.forecast.isTelling := by rwa [le.forecast.isTelling]
        exact Sees.identical_of_fails tellingThere kind shows tells seen
    | map contents seenKeys seenValues lawful placed =>
        exact .map contents seenKeys.forall₂ seenValues.forall₂ lawful placed
    | set contents seen lawful placed => exact .set contents seen.forall₂ lawful placed
  indexed shows found := shows.indexed found
  next {later} _ _ _ shows := by
    rcases next_ends shows with ⟨step, after, ran, le, steps⟩
    exact ⟨step, ⟨after, le_trans later.2 le⟩, ran, le, steps⟩
  memoizes {later} _ _ known := by
    rcases Moment.memoize_spec known with ⟨after, le, world⟩
    have untouched : after.world.deferred = later.1.1.world.deferred := by rw [world]
    have leads := later.1.le_reaching le untouched
    exact ⟨⟨_, le_trans later.2 leads⟩, leads, world⟩

end Foresight.View

end LispRuntime
