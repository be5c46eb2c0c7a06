import LispRuntime.Cell.Deref
import LispRuntime.Proofs.Transient.Persistent

/-! Collections to begin with. Only their keys have to be well-formed, the values in
them may be anything. An array map may be read by others while its copy is built on, and
it may remember its hash in the meantime, if that is the right one. -/

namespace LispRuntime

open ArrayMap (Denoted Spares Achieves Pairs Setting)

/-- A collection with contents of which the keys can be read. A map that is known can be
read altogether, and a map that is not known remembers no hash. -/
inductive Moment.Offers (moment : Moment) (datumOf : Value → Datum) :
    Value → Contents → Prop where
  | arrayMap {handle : Nat} {pairs : Pairs} {metadata : Option Value}
      (denotes : moment.world.maps.Denotes handle pairs)
      (remembers : moment.WellFormed (.arrayMap handle pairs metadata) ∨
        moment.memory (.map handle) = none ∧ moment.world.maps.remembered handle = 0)
      (keys : ∀ pair ∈ pairs, moment.Reads pair.1 (datumOf pair.1)) :
      moment.Offers datumOf (.arrayMap handle pairs metadata) (.arrayMap pairs)
  | hashMap {address : Nat} {entries : List Value.HashedEntry} {metadata : Option Value}
      (keys : ∀ entry ∈ entries, moment.Reads entry.2.1 (datumOf entry.2.1) ∧
        entry.1 = (datumOf entry.2.1).hash) :
      moment.Offers datumOf (.hashMap address entries metadata) (.hashMap entries)
  | sortedMap {address : Nat} {entries : List (Value × Value)} {metadata : Option Value}
      (keys : ∀ entry ∈ entries, moment.Reads entry.1 (datumOf entry.1))
      (ascending : (entries.map fun entry => datumOf entry.1).Pairwise (· < ·)) :
      moment.Offers datumOf (.sortedMap address entries metadata) (.sortedMap entries)
  | vector {address : Nat} {items : List Value} {metadata : Option Value} :
      moment.Offers datumOf (.vector address items metadata) (.vector items)
  | hashSet {address : Nat} {items : List Value.HashedItem} {metadata : Option Value}
      (keys : ∀ item ∈ items, moment.Reads item.2 (datumOf item.2) ∧
        item.1 = (datumOf item.2).hash) :
      moment.Offers datumOf (.hashSet address items metadata) (.hashSet items)
  | sortedSet {address : Nat} {items : List Value} {metadata : Option Value}
      (keys : ∀ item ∈ items, moment.Reads item (datumOf item))
      (ascending : (items.map datumOf).Pairwise (· < ·)) :
      moment.Offers datumOf (.sortedSet address items metadata) (.sortedSet items)

/-- The keys and elements that the contents keep. -/
def Contents.keys : Contents → List Value
  | arrayMap pairs => pairs.map Prod.fst
  | hashMap entries => entries.map fun entry => entry.2.1
  | sortedMap entries => entries.map Prod.fst
  | vector _ => []
  | hashSet items => items.map Prod.snd
  | sortedSet items => items

theorem Moment.Offers.reads {moment : Moment} {datumOf : Value → Datum} {source : Value}
    {contents : Contents} (offers : moment.Offers datumOf source contents) :
    ∀ key ∈ contents.keys, moment.Reads key (datumOf key) := by
  cases offers with
  | arrayMap _ _ keys => exact List.forall_mem_map.mpr keys
  | hashMap keys => exact List.forall_mem_map.mpr fun entry member => (keys entry member).1
  | sortedMap keys _ => exact List.forall_mem_map.mpr keys
  | vector => nofun
  | hashSet keys => exact List.forall_mem_map.mpr fun item member => (keys item member).1
  | sortedSet keys _ => exact keys

/-! ## Collections that can be read -/

theorem ReadsAll.eq_map {memory : Memory} {world : World} {datumOf : Value → Datum}
    {values : List Value} {data : List Datum} (read : ReadsAll memory world values data)
    (reads : ∀ value ∈ values, Reads memory world value (datumOf value)) :
    data = values.map datumOf := by
  induction values generalizing data with
  | nil =>
      cases read
      rfl
  | cons value rest induction =>
      cases read with
      | cons first others =>
          have firstReads := reads value (List.mem_cons_self ..)
          rw [List.map_cons, first.eq_of_identical firstReads value.identical_self,
            induction others fun other member => reads other (List.mem_cons_of_mem _ member)]

namespace Moment

variable {moment : Moment} {datumOf : Value → Datum} {source : Value} {contents : Contents}

theorem isLawful_of_wellFormed (wellFormed : moment.WellFormed source)
    (has : source.contents? = some contents)
    (reads : ∀ key ∈ contents.keys, moment.Reads key (datumOf key)) :
    source.IsLawful moment.world (contents.keys.map datumOf) := by
  rcases wellFormed with ⟨datum, read⟩
  cases read with
  | leaf known => cases source <;> cases has <;> cases known
  | sequence => cases source <;> cases has <;> trivial
  | @map _ entries _ _ found readKeys _ lawful _ =>
      have same : entries.map Prod.fst = contents.keys := by
        cases source <;> cases found <;> cases has
        case hashMap => exact List.map_map
        case arrayMap | sortedMap => rfl
      rw [← same] at reads ⊢
      exact readKeys.eq_map reads ▸ lawful
  | @set _ elements _ found readItems lawful _ =>
      have same : elements = contents.keys := by
        cases source <;> cases found <;> cases has <;> rfl
      rw [← same] at reads ⊢
      exact readItems.eq_map reads ▸ lawful

/-- Every map, set or vector that can be read can be opened. -/
theorem offers_of_wellFormed (wellFormed : moment.WellFormed source)
    (has : source.contents? = some contents)
    (reads : ∀ key ∈ contents.keys, moment.Reads key (datumOf key)) :
    moment.Offers datumOf source contents := by
  have lawful := isLawful_of_wellFormed wellFormed has reads
  cases source <;> cases has
  case arrayMap handle pairs metadata =>
    rcases wellFormed with ⟨datum, read⟩
    rcases moment.map_held handle datum (read.placed _ rfl) with ⟨held, denotes⟩
    have same : held = pairs := denotes.entries_eq.symm.trans lawful.1
    exact .arrayMap (same ▸ denotes) (.inl ⟨datum, read⟩) (List.forall_mem_map.mp reads)
  case hashMap address entries metadata =>
    have hashes := lawful.1
    rw [Contents.keys, List.map_map, List.map_map] at hashes
    exact .hashMap fun entry member =>
      ⟨List.forall_mem_map.mp reads entry member, List.map_inj_left.mp hashes entry member⟩
  case sortedMap address entries metadata =>
    rw [Contents.keys, List.map_map] at lawful
    exact .sortedMap (List.forall_mem_map.mp reads) lawful
  case vector => exact .vector
  case hashSet address items metadata =>
    have hashes := lawful.1
    rw [Contents.keys, List.map_map, List.map_map] at hashes
    exact .hashSet fun item member =>
      ⟨List.forall_mem_map.mp reads item member, List.map_inj_left.mp hashes item member⟩
  case sortedSet address items metadata => exact .sortedSet reads lawful

end Moment

/-- Whatever the value reads as, it takes no more than this much room. -/
theorem Moment.exists_cost_le (moment : Moment) (value : Value) :
    ∃ room, ∀ datum, moment.Reads value datum → datum.cost ≤ room := by
  by_cases wellFormed : moment.WellFormed value
  · rcases wellFormed with ⟨known, readKnown⟩
    refine ⟨known.cost, fun datum read => ?_⟩
    rw [read.eq_of_identical readKnown value.identical_self]
  · exact ⟨0, fun datum read => absurd ⟨datum, read⟩ wellFormed⟩

namespace ArrayMap

variable {setting : Setting} {handle : Nat} {pairs : Pairs}

/-- The hash of a map that can be read follows from its entries. -/
theorem isHash_of_reads {metadata : Option Value} {datum : Datum}
    (read : setting.start.Reads (.arrayMap handle pairs metadata) datum)
    (remembers : setting.start.RemembersRight) (within : datum.cost ≤ setting.machine.limit) :
    setting.IsHash datum.hash pairs := by
  intro hashOf stable
  have computed := hashEntries_gives (le_refl setting.start) stable
  cases read with
  | leaf known => cases known
  | sequence kind => cases kind
  | set contents => cases contents
  | @map _ entries keys values contents readKeys readValues =>
      cases contents
      have enough : 0 < setting.machine.limit := (Datum.cost_pos _).trans_le within
      have again : Gives setting.machine setting.start
          (Value.hashEntries (Value.hashWithin setting.machine.limit) pairs) fun hash _ =>
            hash = Hash.unordered ((List.zipWith Datum.entry keys values).map Datum.hash) := by
        apply Value.hashEntries_gives enough readKeys readValues
        intro between le value item member read
        have less := Datum.cost_lt_costAll_entries
          (ReadsAll.length_keys_eq readKeys readValues) member
        rw [Datum.cost_map_arrange] at within
        exact Value.hashWithin_gives (le.remembers _ (remembers _)) enough (by omega) read
      rcases computed with ⟨_, _, ran, _, rfl⟩
      rcases again with ⟨_, _, ranAgain, _, rfl⟩
      rw [Datum.hash_map_arrange]
      exact (congrArg Prod.fst (Option.some.inj (ran.symm.trans ranAgain))).symm

end ArrayMap

namespace Reader

variable {reader : Reader} {now : Moment} {source : Value} {contents : Contents}

/-- A collection that can be opened whenever one likes. -/
inductive Offers (reader : Reader) : Value → Contents → Prop where
  | arrayMap {handle : Nat} {pairs : Pairs} {metadata : Option Value}
      (stored : ∀ later, reader.start ≤ later → ∃ record spare,
        later.world.maps.Stored handle record pairs spare ∧
          (record.hash = 0 ∨ reader.setting.IsHash record.hash pairs))
      (keys : ∀ pair ∈ pairs, reader.setting.IsKey pair.1) :
      reader.Offers (.arrayMap handle pairs metadata) (.arrayMap pairs)
  | hashMap {address : Nat} {entries : List Value.HashedEntry} {metadata : Option Value}
      (keys : reader.HashedKeys Value.hashedKey entries) :
      reader.Offers (.hashMap address entries metadata) (.hashMap entries)
  | sortedMap {address : Nat} {entries : List (Value × Value)} {metadata : Option Value}
      (keys : reader.SortedKeys Prod.fst entries) :
      reader.Offers (.sortedMap address entries metadata) (.sortedMap entries)
  | vector {address : Nat} {items : List Value} {metadata : Option Value} :
      reader.Offers (.vector address items metadata) (.vector items)
  | hashSet {address : Nat} {items : List Value.HashedItem} {metadata : Option Value}
      (keys : reader.HashedKeys id items) :
      reader.Offers (.hashSet address items metadata) (.hashSet items)
  | sortedSet {address : Nat} {items : List Value} {metadata : Option Value}
      (keys : reader.SortedKeys id items) :
      reader.Offers (.sortedSet address items metadata) (.sortedSet items)

/-! ## Opening -/

theorem copy_spares {handle : Nat} {pairs : Pairs}
    (stored : ∀ later, reader.start ≤ later → ∃ record spare,
      later.world.maps.Stored handle record pairs spare ∧
        (record.hash = 0 ∨ reader.setting.IsHash record.hash pairs))
    (keys : ∀ pair ∈ pairs, reader.setting.IsKey pair.1) (le : reader.start ≤ now) :
    Spares reader.setting now none (Value.openHandle (·.copyExact handle)) fun copy after =>
      (∀ others, ¬Denoted reader.setting now copy others) ∧
        Denoted reader.setting after copy pairs := by
  rcases stored now le with ⟨record, spare, stored, remembers⟩
  exact ArrayMap.copyStored_spares stored remembers keys le

/-- Whoever opens a collection is the only one to write to what is opened. -/
theorem ofValue_builds (offers : reader.Offers source contents) (le : reader.start ≤ now) :
    Achieves reader.setting now none (Editable.ofValue source) fun editable after =>
      ∃ owner, reader.Builds owner after editable contents ∧
        ∀ handle, owner = some handle → ∀ others, ¬Denoted reader.setting now handle others := by
  cases offers with
  | @arrayMap handle pairs metadata stored keys =>
      apply Achieves.opening_new (copy_spares stored keys le)
      intro copy between leBetween new denoted
      have edits : ArrayMap.Edits reader.setting between copy pairs
          (Run.pool.reserve copy ArrayMap.maxPairs) (pairs.room ArrayMap.maxPairs) :=
        ArrayMap.reserve_edits denoted leBetween _
      rw [ArrayMap.Pairs.room, if_pos (Nat.le_refl _)] at edits
      have reserves : Achieves reader.setting between (some copy)
          (HandleTable.reserve copy ArrayMap.maxPairs) fun _ after =>
            Denoted reader.setting after copy pairs := by
        rcases edits with ⟨_, after, ran, leAfter, others, rfl, denotedAfter⟩
        exact ⟨_, after, ran, leAfter, others, (), rfl, denotedAfter⟩
      apply reserves.bind
      intro _ after leAfter denotedAfter
      refine Achieves.pure leAfter ⟨some copy, .arrayMap rfl denotedAfter, ?_⟩
      rintro _ ⟨⟩
      exact new
  | hashMap keys => exact Achieves.pure le ⟨none, .hashMap keys, by simp⟩
  | sortedMap keys => exact Achieves.pure le ⟨none, .sortedMap keys, by simp⟩
  | vector => exact Achieves.pure le ⟨none, .vector, by simp⟩
  | hashSet keys => exact Achieves.pure le ⟨none, .hashSet keys, by simp⟩
  | sortedSet keys => exact Achieves.pure le ⟨none, .sortedSet keys, by simp⟩

/-- The same contents without metadata. -/
theorem withMetadata_shows (offers : reader.Offers source contents) (le : reader.start ≤ now) :
    Achieves reader.setting now none (source.withMetadata .nil) fun value after =>
      reader.Shows after value contents := by
  have bare : Achieves reader.setting now none
      (Attempt.ofExcept (Value.checkMetadata "with-meta" .nil)) fun metadata after =>
        metadata = none ∧ now = after := Achieves.pure le ⟨rfl, rfl⟩
  apply bare.bind
  rintro _ _ _ ⟨rfl, rfl⟩
  cases offers with
  | arrayMap stored keys =>
      apply Achieves.opening (copy_spares stored keys le)
      intro copy between leBetween denoted
      exact publish_achieves (.arrayMap rfl denoted) leBetween
  | hashMap keys => exact publish_achieves (.hashMap keys) le
  | sortedMap keys => exact publish_achieves (.sortedMap keys) le
  | vector => exact publish_achieves .vector le
  | hashSet keys => exact publish_achieves (.hashSet keys) le
  | sortedSet keys => exact publish_achieves (.sortedSet keys) le

/-- Others may read it, too. -/
theorem Offers.bears (offers : reader.Offers source contents) :
    (Custody.shared reader).Bears source.metadata? reader.start source contents := by
  cases offers with
  | arrayMap stored keys => exact .arrayMap ⟨stored, keys⟩
  | hashMap keys => exact .hashMap keys
  | sortedMap keys => exact .sortedMap keys
  | vector => exact .vector
  | hashSet keys => exact .hashSet keys
  | sortedSet keys => exact .sortedSet keys

/-- A reader who has room for the keys and for a map that is known can open it. -/
theorem offers_of_moment (offers : reader.start.Offers reader.datumOf source contents)
    (remembers : reader.start.RemembersRight)
    (keys : ∀ key ∈ contents.keys, reader.setting.IsKey key)
    (room : ∀ datum, reader.start.Reads source datum → datum.cost ≤ reader.machine.limit) :
    reader.Offers source contents := by
  cases offers with
  | @arrayMap handle pairs metadata denotes known _ =>
      rcases denotes with ⟨record, spare, stored⟩
      refine .arrayMap (fun later le => ?_) (List.forall_mem_map.mp keys)
      rcases le.stored _ _ _ _ stored with ⟨hash, storedLater, unchanged⟩
      refine ⟨_, spare, storedLater, ?_⟩
      rcases known with ⟨datum, read⟩ | ⟨unknown, forgotten⟩
      · have knownLater := le.memory _ _ (read.placed _ rfl)
        have right := le.remembers _ (remembers datum.cost) handle datum knownLater (Nat.le_refl _)
        rw [storedLater.remembered_eq] at right
        refine right.imp_right fun same => ?_
        rw [same]
        exact ArrayMap.isHash_of_reads read remembers (room datum read)
      · rw [stored.remembered_eq] at forgotten
        exact .inl ((unchanged unknown).trans forgotten)
  | hashMap hashed =>
      exact .hashMap fun entry member =>
        ⟨keys _ (List.mem_map_of_mem member), (hashed entry member).2⟩
  | sortedMap _ ascending => exact .sortedMap ⟨List.forall_mem_map.mp keys, ascending⟩
  | vector => exact .vector
  | hashSet hashed =>
      exact .hashSet fun item member =>
        ⟨keys _ (List.mem_map_of_mem member), (hashed item member).2⟩
  | sortedSet _ ascending => exact .sortedSet ⟨keys, ascending⟩

end Reader

end LispRuntime
