import Mathlib.Data.List.Induction
import LispRuntime.Proofs.Collection.Maps

/-! Updates of maps. What is made of a map has what the map had, but for what was
added or removed, and the map itself stays as it is. -/

namespace LispRuntime

open ArrayMap (Spares Achieves)

namespace MapState

theorem add_of_ne {state : MapState} (notArray : state.kind ≠ .array) (key : Datum)
    (value : Value) : state.add key value = { state with map := state.map.insert key value } :=
  congrArg (MapState.mk · _) (if_neg (notArray ∘ And.left))

end MapState

namespace Reader

variable {reader : Reader} {now : Moment} {map key : Value} {state : MapState}

/-! ## One key -/

private theorem newHashMap_gives {entries : List Value.HashedEntry} {held : DatumMap}
    (isHashTable : reader.IsHashTable entries held) (metadata : Option Value) :
    Gives reader.machine now (Value.newHashMap entries metadata) fun map after =>
      reader.Holds after map ⟨.hash, held⟩ :=
  Gives.freshAddress.bind fun _ _ _ _ => Gives.pure (.hash isHashTable)

private theorem newSortedMap_gives {entries : List (Value × Value)} {held : DatumMap}
    (isSortedTable : reader.IsSortedTable entries held) (metadata : Option Value) :
    Gives reader.machine now (Value.newSortedMap entries metadata) fun map after =>
      reader.Holds after map ⟨.sorted, held⟩ :=
  Gives.freshAddress.bind fun _ _ _ _ => Gives.pure (.sorted isSortedTable)

theorem assoc_achieves (holds : reader.Holds now map state) (le : reader.start ≤ now)
    (isKey : reader.setting.IsKey key) (value : Value) :
    Achieves reader.setting now none (map.assoc key value) fun changed after =>
      reader.Holds after changed (state.add (reader.datumOf key) value) := by
  cases holds with
  | array denoted isTable =>
      apply Achieves.opening (ArrayMap.share_spares denoted le)
      intro copy between later denotedCopy
      apply (assocSmall_achieves denotedCopy isTable later isKey value).bind
      intro table last leLast holdsTable
      exact Achieves.lift (Spares.of_gives leLast (toValue_gives holdsTable _))
  | hash isHashTable =>
      rw [MapState.add_of_ne (by simp)]
      apply Achieves.reading (isHashTable.assoc_gives le isKey value)
      intro changed between leBetween isHashTableAfter
      exact Achieves.lift (Spares.of_gives (le.trans leBetween)
        (newHashMap_gives isHashTableAfter _))
  | sorted isSortedTable =>
      rw [MapState.add_of_ne (by simp)]
      apply Achieves.reading (isSortedTable.assoc_gives le isKey value)
      intro changed between leBetween isSortedTableAfter
      exact Achieves.lift (Spares.of_gives (le.trans leBetween)
        (newSortedMap_gives isSortedTableAfter _))

theorem dissoc_achieves (holds : reader.Holds now map state) (le : reader.start ≤ now)
    (isKey : reader.setting.IsKey key) :
    Achieves reader.setting now none (map.dissoc key) fun changed after =>
      reader.Holds after changed (state.remove (reader.datumOf key)) := by
  have contains := holds.containsKey_gives le (reads isKey le)
  cases holds with
  | @array handle entries metadata held denoted isTable =>
      apply Achieves.reading contains
      rintro _ between leBetween rfl
      have later := le.trans leBetween
      have denotedBetween := denoted.later leBetween
      have isTableAfter := isTable.drop (reader.datumOf key)
      by_cases member : reader.datumOf key ∈ held
      · simp only [member, decide_true, if_true]
        apply Achieves.opening (ArrayMap.share_spares denotedBetween later)
        intro copy opened leOpened denotedCopy
        refine Achieves.bind (Achieves.lift
          (ArrayMap.erase_edits denotedCopy leOpened isKey)) ?_
        intro _ erased leErased denotedErased
        refine Achieves.lift (Spares.of_gives leErased ⟨_, erased, rfl, le_refl _, ?_⟩)
        rw [denotedErased.entries_eq]
        rw [← table_remove_pairs] at isTableAfter
        exact .array denotedErased isTableAfter
      · simp only [member, decide_false]
        refine Achieves.pure later (.array denotedBetween ?_)
        have absent := member ∘ (isTable.mem_keys_iff (reader.datumOf key)).mp
        rwa [Table.drop_of_not_mem absent] at isTableAfter
  | hash isHashTable =>
      apply Achieves.reading (isHashTable.dissoc_gives le isKey)
      intro changed between leBetween isHashTableAfter
      exact Achieves.lift (Spares.of_gives (le.trans leBetween)
        (newHashMap_gives isHashTableAfter _))
  | sorted isSortedTable =>
      apply Achieves.reading (isSortedTable.dissoc_gives le isKey)
      intro changed between leBetween isSortedTableAfter
      exact Achieves.lift (Spares.of_gives (le.trans leBetween)
        (newSortedMap_gives isSortedTableAfter _))

end Reader

/-! ## Steps -/

/-- What may be added to a map as a whole: an entry, or all entries of another map. -/
inductive MapItem where
  | entry (address : Nat) (key value : Value) (metadata : Option Value)
  | entries (map : Value) (entries : List (Value × Value))
      (contents : map.mapEntries? = some entries)

namespace MapItem

def value : MapItem → Value
  | entry address key value metadata => .vector address [key, value] metadata
  | entries map _ _ => map

def pairs : MapItem → List (Value × Value)
  | entry _ key value _ => [(key, value)]
  | entries _ pairs _ => pairs

end MapItem

inductive MapStep where
  | assoc (key value : Value)
  | dissoc (key : Value)
  | conj (item : MapItem)

/-- One key at a time. -/
inductive MapWrite where
  | add (key value : Value)
  | remove (key : Value)

def MapWrite.key : MapWrite → Value
  | add key _ | remove key => key

/-- Each pair is added, in this order. -/
def MapWrite.additions (pairs : List (Value × Value)) : List MapWrite :=
  pairs.map fun pair => add pair.1 pair.2

open MapWrite (additions)

namespace MapStep

def perform (step : MapStep) (map : Value) : Attempt Value :=
  match step with
  | assoc key value => map.assoc key value
  | dissoc key => map.dissoc key
  | conj item => map.conj item.value

def writes : MapStep → List MapWrite
  | assoc key value => [.add key value]
  | dissoc key => [.remove key]
  | conj item => additions item.pairs

end MapStep

namespace DatumMap

/-- What a finite map has after writes. -/
def write (datumOf : Value → Datum) (map : DatumMap) : MapWrite → DatumMap
  | .add key value => map.insert (datumOf key) value
  | .remove key => map.erase (datumOf key)

/-- What is left of an empty map. -/
def ofWrites (datumOf : Value → Datum) (writes : List MapWrite) : DatumMap :=
  writes.foldl (write datumOf) ∅

end DatumMap

/-- Somewhere in the writes a new key comes when there are as many as an array map
can hold. -/
def Overfills (datumOf : Value → Datum) (writes : List MapWrite) : Prop :=
  ∃ before key value, before ++ [.add key value] <+: writes ∧
    (DatumMap.ofWrites datumOf before).size = ArrayMap.maxPairs ∧
    datumOf key ∉ DatumMap.ofWrites datumOf before

theorem overfills_concat {datumOf : Value → Datum} {before : List MapWrite} {write : MapWrite} :
    Overfills datumOf (before ++ [write]) ↔
      Overfills datumOf before ∨ ∃ key value, write = .add key value ∧
        (DatumMap.ofWrites datumOf before).size = ArrayMap.maxPairs ∧
        datumOf key ∉ DatumMap.ofWrites datumOf before := by
  constructor
  · rintro ⟨earlier, key, value, isPrefix, full, new⟩
    rcases List.prefix_concat_iff.mp isPrefix with last | isPrefix
    · rcases List.append_singleton_inj.mp last with ⟨rfl, rfl⟩
      exact .inr ⟨key, value, rfl, full, new⟩
    · exact .inl ⟨earlier, key, value, isPrefix, full, new⟩
  · rintro (⟨earlier, key, value, isPrefix, overfull⟩ | ⟨key, value, rfl, overfull⟩)
    · exact ⟨earlier, key, value, isPrefix.trans (List.prefix_append ..), overfull⟩
    · exact ⟨before, key, value, List.prefix_rfl, overfull⟩

namespace MapState

def write (datumOf : Value → Datum) (state : MapState) : MapWrite → MapState
  | .add key value => state.add (datumOf key) value
  | .remove key => state.remove (datumOf key)

def writeAll (datumOf : Value → Datum) (state : MapState) (writes : List MapWrite) : MapState :=
  writes.foldl (write datumOf) state

variable {datumOf : Value → Datum}

theorem writeAll_append (state : MapState) (first second : List MapWrite) :
    state.writeAll datumOf (first ++ second) =
      (state.writeAll datumOf first).writeAll datumOf second :=
  List.foldl_append

/-- The kind does not matter to what a map has. -/
theorem writeAll_map (kind : MapKind) (writes : List MapWrite) :
    (MapState.writeAll datumOf ⟨kind, ∅⟩ writes).map = DatumMap.ofWrites datumOf writes :=
  (List.foldl_hom MapState.map fun _ write => by cases write <;> rfl).symm

/-- No kind but one is left. -/
theorem writeAll_kind {state : MapState} (notArray : state.kind ≠ .array)
    (writes : List MapWrite) : (state.writeAll datumOf writes).kind = state.kind := by
  induction writes generalizing state with
  | nil => rfl
  | cons write rest induction =>
      have same : (state.write datumOf write).kind = state.kind := by
        cases write with
        | add key value =>
            rw [MapState.write, add_of_ne notArray]
        | remove => rfl
      rw [← same] at notArray
      exact (induction notArray).trans same

/-- An array map is one until it overfills, and a hash map from then on. -/
theorem writeAll_array_kind (datumOf : Value → Datum) (writes : List MapWrite) :
    (writeAll datumOf ⟨.array, ∅⟩ writes).kind = .array ∧ ¬Overfills datumOf writes ∨
    (writeAll datumOf ⟨.array, ∅⟩ writes).kind = .hash ∧ Overfills datumOf writes := by
  -- What overfills, if anything does, may be the last write, so that one comes off first.
  induction writes using List.reverseRec with
  | nil =>
      refine .inl ⟨rfl, ?_⟩
      rintro ⟨before, key, value, isPrefix, _⟩
      simp at isPrefix
  | append_singleton before write induction =>
      rw [writeAll_append, overfills_concat, ← writeAll_map .array before]
      generalize writeAll datumOf ⟨.array, ∅⟩ before = state at induction ⊢
      cases write with
      | remove key => simpa [writeAll, write, remove] using induction
      | add key value =>
          rcases induction with ⟨array, fits⟩ | ⟨hash, overfills⟩
          · by_cases full : state.map.size = ArrayMap.maxPairs ∧ datumOf key ∉ state.map
            · exact .inr ⟨if_pos ⟨array, full⟩, .inr ⟨key, value, rfl, full⟩⟩
            · refine .inl ⟨(if_neg (full ∘ And.right)).trans array, ?_⟩
              rintro (overfills | ⟨_, _, ⟨⟩, overfull⟩)
              · exact fits overfills
              · exact full overfull
          · exact .inr ⟨(if_neg (by simp [hash])).trans hash, .inl overfills⟩

theorem writeAll_additions (state : MapState) (pairs : List (Value × Value)) :
    state.writeAll datumOf (additions pairs) =
      pairs.foldl (fun state pair => state.add (datumOf pair.1) pair.2) state :=
  List.foldl_map

end MapState

namespace Reader

variable {reader : Reader} {now : Moment} {map key : Value} {state : MapState}

theorem writeAll_additions {kind : MapKind} (notArray : kind ≠ .array) (map : DatumMap)
    (pairs : List (Value × Value)) :
    MapState.writeAll reader.datumOf ⟨kind, map⟩ (additions pairs) =
      ⟨kind, reader.addAll map pairs⟩ := by
  rw [MapState.writeAll_additions]
  induction pairs generalizing map with
  | nil => rfl
  | cons pair rest induction =>
      rw [List.foldl_cons, MapState.add_of_ne notArray]
      exact induction _

theorem assocAll_achieves (holds : reader.Holds now map state) (le : reader.start ≤ now)
    {pairs : List (Value × Value)} (keys : ∀ pair ∈ pairs, reader.setting.IsKey pair.1) :
    Achieves reader.setting now none
      (pairs.foldlM (fun map pair => map.assoc pair.1 pair.2) map) fun changed after =>
        reader.Holds after changed (state.writeAll reader.datumOf (additions pairs)) := by
  rw [MapState.writeAll_additions]
  apply Achieves.foldlM reader.Holds le holds
  intro moment leMoment pair member map state holds
  exact assoc_achieves holds leMoment (keys pair member) pair.2

theorem conj_achieves (holds : reader.Holds now map state) (le : reader.start ≤ now)
    (item : MapItem) (keys : ∀ pair ∈ item.pairs, reader.setting.IsKey pair.1) :
    Achieves reader.setting now none (map.conj item.value) fun changed after =>
      reader.Holds after changed (state.writeAll reader.datumOf (additions item.pairs)) := by
  have conj : map.conj item.value = map.conjEntry item.value := by
    cases holds <;> rfl
  rw [conj]
  cases item with
  | entry address key value metadata =>
      exact assoc_achieves holds le (keys _ (List.mem_singleton_self _)) value
  | entries other entries contents =>
      have each := assocAll_achieves holds le keys
      cases other <;> cases contents <;> exact each

/-- What a step does to a map of any kind is what it writes to the finite map. -/
theorem perform_achieves (holds : reader.Holds now map state) (le : reader.start ≤ now)
    (step : MapStep) (keys : ∀ write ∈ step.writes, reader.setting.IsKey write.key) :
    Achieves reader.setting now none (step.perform map) fun changed after =>
      reader.Holds after changed (state.writeAll reader.datumOf step.writes) := by
  cases step with
  | assoc key value => exact assoc_achieves holds le (keys _ (List.mem_singleton_self _)) value
  | dissoc key => exact dissoc_achieves holds le (keys _ (List.mem_singleton_self _))
  | conj item =>
      exact conj_achieves holds le item fun pair member =>
        keys (.add pair.1 pair.2) (List.mem_map.mpr ⟨pair, member, rfl⟩)

/-! ## From pairs -/

theorem ofPairs_achieves (le : reader.start ≤ now) {pairs : List (Value × Value)}
    (keys : ∀ pair ∈ pairs, reader.setting.IsKey pair.1) :
    Achieves reader.setting now none (Value.ofPairs pairs) fun map after =>
      reader.Holds after map
        (MapState.writeAll reader.datumOf ⟨.array, ∅⟩ (additions pairs)) := by
  rw [MapState.writeAll_additions]
  apply Achieves.opening (ArrayMap.create_spares le)
  intro handle between later denoted
  have tables : Achieves reader.setting between (some handle)
      (pairs.foldlM (fun table pair => MapTable.assoc table pair.1 pair.2) (.small handle))
      fun table after => reader.HoldsTable handle after table
        (pairs.foldl (fun state pair => state.add (reader.datumOf pair.1) pair.2) ⟨.array, ∅⟩) := by
    apply Achieves.foldlM (reader.HoldsTable handle) later (.small denoted .empty)
    intro moment leMoment pair member table state holds
    exact assoc_table_achieves holds leMoment (keys pair member) pair.2
  apply tables.bind
  intro table after leAfter holds
  exact Achieves.lift (Spares.of_gives leAfter (toValue_gives holds none))

theorem hashMapOf_gives (le : reader.start ≤ now) {pairs : List (Value × Value)}
    (keys : ∀ pair ∈ pairs, reader.setting.IsKey pair.1) :
    Gives reader.machine now (Value.hashMapOf pairs) fun map after =>
      reader.Holds after map
        (MapState.writeAll reader.datumOf ⟨.hash, ∅⟩ (additions pairs)) := by
  rw [writeAll_additions (by decide : MapKind.hash ≠ .array)]
  apply (IsHashTable.ofEntries_gives le keys).bind
  intro entries between leBetween isHashTable
  exact newHashMap_gives isHashTable none

theorem sortedMapOf_gives (le : reader.start ≤ now) {pairs : List (Value × Value)}
    (keys : ∀ pair ∈ pairs, reader.setting.IsKey pair.1) :
    Gives reader.machine now (Value.sortedMapOf pairs) fun map after =>
      reader.Holds after map
        (MapState.writeAll reader.datumOf ⟨.sorted, ∅⟩ (additions pairs)) := by
  rw [writeAll_additions (by decide : MapKind.sorted ≠ .array)]
  apply (IsSortedTable.ofEntries_gives le keys).bind
  intro entries between leBetween isSortedTable
  exact newSortedMap_gives isSortedTable none

end Reader

end LispRuntime
