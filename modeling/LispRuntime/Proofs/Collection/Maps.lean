import LispRuntime.Collection.Update
import LispRuntime.Proofs.Collection.Reader

/-! Maps of three kinds behave like finite maps of data. An array map becomes a hash
map when a new key comes to a full one, and loses nothing by that. -/

namespace LispRuntime

open ArrayMap (Denoted Spares Achieves Pairs)

inductive MapKind where
  | array
  | hash
  | sorted
deriving DecidableEq, Repr

/-- The tag that values of the kind carry. -/
def MapKind.tagName : MapKind → String
  | array => "ArrayMap"
  | hash => "HashMap"
  | sorted => "SortedMap"

/-- A map as one knows it who does not care about representation, but for its kind. -/
structure MapState where
  kind : MapKind
  map : DatumMap

namespace MapState

/-- A new key turns an array map that is full into a hash map. -/
def add (state : MapState) (key : Datum) (value : Value) : MapState where
  kind :=
    if state.kind = .array ∧ state.map.size = ArrayMap.maxPairs ∧ key ∉ state.map then .hash
    else state.kind
  map := state.map.insert key value

def remove (state : MapState) (key : Datum) : MapState :=
  { state with map := state.map.erase key }

end MapState

namespace Reader

/-- The value is a map of that kind and has just that. -/
inductive Holds (reader : Reader) (now : Moment) : Value → MapState → Prop where
  | array {handle : Nat} {entries : Pairs} {metadata : Option Value} {map : DatumMap}
      (denoted : Denoted reader.setting now handle entries)
      (isTable : map.IsTable (reader.table entries)) :
      reader.Holds now (.arrayMap handle entries metadata) ⟨.array, map⟩
  | hash {address : Nat} {entries : List Value.HashedEntry} {metadata : Option Value}
      {map : DatumMap} (isHashTable : reader.IsHashTable entries map) :
      reader.Holds now (.hashMap address entries metadata) ⟨.hash, map⟩
  | sorted {address : Nat} {entries : List (Value × Value)} {metadata : Option Value}
      {map : DatumMap} (isSortedTable : reader.IsSortedTable entries map) :
      reader.Holds now (.sortedMap address entries metadata) ⟨.sorted, map⟩

/-- So it is with a map that is being made. -/
inductive HoldsTable (reader : Reader) (handle : Nat) (now : Moment) :
    MapTable → MapState → Prop where
  | small {entries : Pairs} {map : DatumMap}
      (denoted : Denoted reader.setting now handle entries)
      (isTable : map.IsTable (reader.table entries)) :
      reader.HoldsTable handle now (.small handle) ⟨.array, map⟩
  | hashed {entries : List Value.HashedEntry} {map : DatumMap}
      (isHashTable : reader.IsHashTable entries map) :
      reader.HoldsTable handle now (.hashed entries) ⟨.hash, map⟩

variable {reader : Reader} {now : Moment} {key value : Value} {handle : Nat}

/-! ## Making maps -/

section

variable {entries : Pairs} {map : DatumMap}

theorem length_of_isTable (isTable : map.IsTable (reader.table entries)) :
    entries.length = map.size := by
  rw [← isTable.length_eq, table, List.length_map]

/-- What has room is added in place. -/
theorem assign_achieves (denoted : Denoted reader.setting now handle entries)
    (isTable : map.IsTable (reader.table entries)) (le : reader.start ≤ now)
    (isKey : reader.setting.IsKey key) (value : Value)
    (fits : map.size < ArrayMap.maxPairs ∨ reader.datumOf key ∈ map) :
    Achieves reader.setting now (some handle) (HandleTable.assign handle key value)
      fun _ after => reader.HoldsTable handle after (.small handle)
        (MapState.add ⟨.array, map⟩ (reader.datumOf key) value) := by
  have state : MapState.add ⟨.array, map⟩ (reader.datumOf key) value =
      ⟨.array, map.insert (reader.datumOf key) value⟩ := by
    refine congrArg (MapState.mk · _) (if_neg ?_)
    rintro ⟨_, full, new⟩
    exact fits.elim (fun room => room.ne full) new
  have edits : ArrayMap.Edits reader.setting now handle entries
      (Run.pool.assign (HandleTable.isSought key) handle key value)
      (entries.put reader.setting.same key value) := ArrayMap.assign_edits denoted le isKey
  unfold ArrayMap.Edits at edits
  split at edits
  case h_1 changed put =>
    rcases edits with ⟨_, after, ran, leAfter, others, rfl, denotedAfter⟩
    refine ⟨_, after, ran, leAfter, others, (), rfl, ?_⟩
    rw [state]
    refine .small denotedAfter ?_
    rw [table_put_pairs put]
    exact isTable.put _ value
  case h_2 error refused =>
    unfold ArrayMap.Pairs.put at refused
    split at refused
    case isTrue => cases refused
    case isFalse absent =>
      have full := (ArrayMap.Pairs.add_eq_error_iff.mp refused).1
      rw [has_eq isTable, decide_eq_true_iff] at absent
      rw [length_of_isTable isTable] at full
      exact absurd (fits.resolve_right absent) (Nat.not_lt_of_le full)

/-- A new key for a map that is full makes a hash map of it. -/
theorem promote_spares (denoted : Denoted reader.setting now handle entries)
    (isTable : map.IsTable (reader.table entries)) (le : reader.start ≤ now)
    (isKey : reader.setting.IsKey key) (value : Value)
    (full : map.size = ArrayMap.maxPairs) (new : reader.datumOf key ∉ map) :
    Spares reader.setting now (some handle) (MapTable.promote handle key value)
      fun table after => reader.HoldsTable handle after table
        (MapState.add ⟨.array, map⟩ (reader.datumOf key) value) := by
  have state : MapState.add ⟨.array, map⟩ (reader.datumOf key) value =
      ⟨.hash, map.insert (reader.datumOf key) value⟩ :=
    congrArg (MapState.mk · _) (if_pos ⟨rfl, full, new⟩)
  apply Spares.looking rfl
  rw [denoted.entries_eq]
  apply Spares.reading (IsHashTable.ofEntries_gives le denoted.keys)
  intro promoted last leLast isHashTable
  rw [addAll_of_isTable isTable] at isHashTable
  apply (ArrayMap.retire_spares (denoted.later leLast) (le.trans leLast)).bind
  intro _ retired leRetired _
  apply Spares.reading (isHashTable.assoc_gives leRetired isKey value)
  intro changed after leAfter isHashTableAfter
  apply Spares.pure (leRetired.trans leAfter)
  rw [state]
  exact .hashed isHashTableAfter

theorem fits_gives (denoted : Denoted reader.setting now handle entries)
    (isTable : map.IsTable (reader.table entries)) (le : reader.start ≤ now)
    (isKey : reader.setting.IsKey key) :
    Gives reader.machine now (HandleTable.fits handle key) fun found _ =>
      found = decide (map.size < ArrayMap.maxPairs ∨ reader.datumOf key ∈ map) := by
  have counts : Gives reader.machine now (HandleTable.size handle) fun count _ =>
      count = map.size :=
    Gives.looking rfl (Gives.pure
      ((congrArg List.length denoted.entries_eq).trans (length_of_isTable isTable)))
  apply counts.bind
  rintro _ between leBetween rfl
  split
  case isTrue room => exact Gives.pure (decide_eq_true (.inl room)).symm
  case isFalse noRoom =>
    apply (ArrayMap.placeOf_gives (denoted.later leBetween) (le.trans leBetween) isKey).bind
    rintro _ _ _ rfl
    rw [← ArrayMap.Pairs.has_eq_isSome, has_eq isTable]
    exact Gives.pure (by simp [noRoom])

theorem assocSmall_achieves (denoted : Denoted reader.setting now handle entries)
    (isTable : map.IsTable (reader.table entries)) (le : reader.start ≤ now)
    (isKey : reader.setting.IsKey key) (value : Value) :
    Achieves reader.setting now (some handle) (MapTable.assocSmall handle key value)
      fun table after => reader.HoldsTable handle after table
        (MapState.add ⟨.array, map⟩ (reader.datumOf key) value) := by
  apply Achieves.reading (fits_gives denoted isTable le isKey)
  rintro _ between leBetween rfl
  have denotedBetween := denoted.later leBetween
  have later := le.trans leBetween
  by_cases fits : map.size < ArrayMap.maxPairs ∨ reader.datumOf key ∈ map
  · simp only [decide_eq_true fits, if_true]
    rcases assign_achieves denotedBetween isTable later isKey value fits with
      ⟨_, after, ran, leAfter, others, _, rfl, holds⟩
    have assigns : Achieves reader.setting between (some handle)
        (Attempt.outcome (HandleTable.assign handle key value)) fun outcome after =>
          outcome = .ok () ∧ reader.HoldsTable handle after (.small handle)
            (MapState.add ⟨.array, map⟩ (reader.datumOf key) value) :=
      Achieves.lift ⟨_, after, ran, leAfter, others, rfl, holds⟩
    apply assigns.bind
    rintro _ last leLast ⟨rfl, holds⟩
    exact Achieves.pure leLast holds
  · simp only [decide_eq_false fits]
    rw [not_or] at fits
    have length := denoted.length_le
    rw [length_of_isTable isTable] at length
    exact Achieves.lift (promote_spares denotedBetween isTable later isKey value
      (Nat.le_antisymm length (Nat.le_of_not_lt fits.1)) fits.2)

end

theorem assoc_table_achieves {table : MapTable} {state : MapState}
    (holds : reader.HoldsTable handle now table state) (le : reader.start ≤ now)
    (isKey : reader.setting.IsKey key) (value : Value) :
    Achieves reader.setting now (some handle) (table.assoc key value) fun changed after =>
      reader.HoldsTable handle after changed (state.add (reader.datumOf key) value) := by
  cases holds with
  | small denoted isTable => exact assocSmall_achieves denoted isTable le isKey value
  | @hashed entries map isHashTable =>
      have state : MapState.add ⟨.hash, map⟩ (reader.datumOf key) value =
          ⟨.hash, map.insert (reader.datumOf key) value⟩ :=
        congrArg (MapState.mk · _) (if_neg (nofun ∘ And.left))
      rw [state]
      apply Achieves.reading (isHashTable.assoc_gives le isKey value)
      intro changed after leAfter isHashTableAfter
      exact Achieves.pure (le.trans leAfter) (.hashed isHashTableAfter)

theorem toValue_gives {table : MapTable} {state : MapState}
    (holds : reader.HoldsTable handle now table state) (metadata : Option Value) :
    Gives reader.machine now (table.toValue metadata) fun value after =>
      reader.Holds after value state := by
  cases holds with
  | small denoted isTable =>
      refine ⟨_, now, rfl, le_refl _, ?_⟩
      rw [denoted.entries_eq]
      exact .array denoted isTable
  | hashed isHashTable =>
      exact Gives.freshAddress.bind fun _ _ _ _ => Gives.pure (.hash isHashTable)

/-! ## Reading maps -/

namespace Holds

variable {map : Value} {state : MapState}

/-- What happens elsewhere does not matter to a map. -/
theorem kept (holds : reader.Holds now map state) {after : Moment}
    (keeps : ∀ handle entries, Denoted reader.setting now handle entries →
      Denoted reader.setting after handle entries) : reader.Holds after map state := by
  cases holds with
  | array denoted isTable => exact .array (keeps _ _ denoted) isTable
  | hash isHashTable => exact .hash isHashTable
  | sorted isSortedTable => exact .sorted isSortedTable

theorem later (holds : reader.Holds now map state) {after : Moment} (le : now ≤ after) :
    reader.Holds after map state :=
  holds.kept fun _ _ denoted => denoted.later le

theorem tagName_eq (holds : reader.Holds now map state) : map.tagName = state.kind.tagName := by
  cases holds <;> rfl

/-- Its entries have just the keys and values that the map should have, and lookups may
rely on them. -/
theorem contents (holds : reader.Holds now map state) :
    ∃ entries, map.mapEntries? = some entries ∧
      (∀ entry ∈ entries, reader.setting.IsKey entry.1) ∧
      state.map.IsTable (reader.table entries) ∧
      map.IsLawful now.world (reader.table entries).keys := by
  cases holds with
  | array denoted isTable =>
      exact ⟨_, rfl, denoted.keys, isTable, denoted.entries_eq, isTable.nodup⟩
  | hash isHashTable =>
      refine ⟨_, rfl, ?_, isHashTable.isTable, ?_, isHashTable.isTable.nodup⟩
      · intro entry member
        rcases List.mem_map.mp member with ⟨hashed, inside, rfl⟩
        exact (isHashTable.keys hashed inside).1
      · rw [keys_table, List.map_map, List.map_map]
        exact List.map_congr_left fun entry member => (isHashTable.keys entry member).2
  | sorted isSortedTable =>
      refine ⟨_, rfl, isSortedTable.sorted.keys, isSortedTable.isTable, ?_⟩
      rw [keys_table]
      exact isSortedTable.sorted.ascending

theorem lookupWith_gives (holds : reader.Holds now map state) (le : reader.start ≤ now)
    {equal : Value → Value → Run Bool} {fuel : Nat} (within : reader.bound + 1 ≤ fuel)
    (equates : Equates reader.machine now (reader.bound + 1) equal) {sought : Value}
    {datum : Datum} (read : now.ReadsWithin (reader.bound + 1) sought datum) :
    Gives reader.machine now (Value.lookupWith equal fuel map sought) fun found _ =>
      found = state.map[datum]? := by
  rcases holds.contents with ⟨entries, contents, keys, isTable, lawful⟩
  have enough : 0 < reader.machine.limit := Nat.lt_of_lt_of_le (Nat.succ_pos _) reader.enough
  have readKeys : now.ReadsAll (entries.map Prod.fst) (reader.table entries).keys := by
    rw [keys_table]
    refine ReadsAll.of_forall₂ (List.forall₂_map_left_iff.mpr (List.forall₂_map_right_iff.mpr
      (List.forall₂_same.mpr ?_)))
    exact fun entry member => (reads (keys entry member) le).1
  have costs : ∀ key ∈ (reader.table entries).keys, key.cost ≤ reader.bound + 1 := by
    rw [keys_table]
    intro key member
    rcases List.mem_map.mp member with ⟨entry, inside, rfl⟩
    exact (reads (keys entry inside) le).2
  have table : Keyed.ofKeys (reader.table entries).keys (entries.map Prod.snd) =
      reader.table entries := by
    rw [Keyed.ofKeys, keys_table, List.zip_map', Reader.table]
  have finds := Value.lookupWith_gives (le.remembers _ reader.remembers) enough within equates
    read contents readKeys costs lawful
  rwa [table, isTable.lookup_eq] at finds

theorem mapLookup_gives (holds : reader.Holds now map state) (le : reader.start ≤ now)
    {sought : Value} {datum : Datum}
    (read : now.ReadsWithin (reader.bound + 1) sought datum) :
    Gives reader.machine now (map.mapLookup sought) fun found _ =>
      found = state.map[datum]? :=
  Gives.looking rfl
    (holds.lookupWith_gives le (Nat.le_of_succ_le reader.enough) (reader.equates le) read)

theorem containsKey_gives (holds : reader.Holds now map state) (le : reader.start ≤ now)
    {sought : Value} {datum : Datum}
    (read : now.ReadsWithin (reader.bound + 1) sought datum) :
    Gives reader.machine now (map.containsKey sought) fun found _ =>
      found = decide (datum ∈ state.map) := by
  have looks := holds.mapLookup_gives le read
  have found : (state.map[datum]?).isSome = decide (datum ∈ state.map) := by
    rw [Bool.eq_iff_iff, decide_eq_true_iff, ← Std.ExtTreeMap.mem_iff_isSome_getElem?]
  cases holds <;>
  · apply looks.bind
    rintro _ _ _ rfl
    exact Gives.pure found

theorem getOr_gives (holds : reader.Holds now map state) (le : reader.start ≤ now)
    {sought : Value} {datum : Datum}
    (read : now.ReadsWithin (reader.bound + 1) sought datum) (default : Value) :
    Gives reader.machine now (map.getOr sought default) fun found _ =>
      found = (state.map[datum]?).getD default := by
  have looks := holds.mapLookup_gives le read
  cases holds <;>
  · apply looks.bind
    rintro _ _ _ rfl
    exact Gives.pure rfl

theorem count_gives (holds : reader.Holds now map state) :
    Gives reader.machine now map.count.run fun found _ => found = .ok state.map.size := by
  rcases holds.contents with ⟨entries, contents, _, isTable, _⟩
  have size := length_of_isTable isTable
  cases holds <;> cases contents <;> exact Gives.pure (congrArg Except.ok size)

/-- Maps that have the same are equal, whatever their kinds and whatever the values: a
value is the same in both. -/
theorem equal_gives (holds : reader.Holds now map state) (le : reader.start ≤ now)
    {other : Value} {otherState : MapState} (holdsOther : reader.Holds now other otherState)
    (same : state.map = otherState.map) :
    Gives reader.machine now (map.equal other) fun answer _ => answer = true := by
  apply equal_gives_of_inner le
  intro fuel within distinct equates
  rcases holds.contents with ⟨entries, contents, keys, isTable, _⟩
  rcases holdsOther.contents with ⟨otherEntries, otherContents, _, otherIsTable, _⟩
  rw [Value.equalWithin_maps contents otherContents distinct]
  unfold Value.equalMaps
  rw [if_pos (by rw [length_of_isTable isTable, length_of_isTable otherIsTable, same])]
  apply Value.forAll_true
  intro between leBetween entry member
  have later := le.trans leBetween
  refine ((holdsOther.later leBetween).lookupWith_gives later (Nat.succ_le_succ within)
    (equates.from_later leBetween) (reads (keys _ member) later)).bind ?_
  rintro _ last leLast rfl
  have inTable : (reader.datumOf entry.1, entry.2) ∈ reader.table entries :=
    List.mem_map.mpr ⟨_, member, rfl⟩
  rw [← Keyed.lookup_eq_some_iff isTable.nodup, isTable.lookup_eq, same] at inTable
  rw [inTable]
  change Gives _ _ (Value.equalWithin (fuel + 1) entry.2 entry.2) _
  rw [Value.equalWithin_of_identical entry.2.identical_self]
  exact Gives.pure rfl

end Holds

end Reader

end LispRuntime
