import LispRuntime.Proofs.Transient.InPlace

/-! A collection that never changes shows its contents. A change makes another
collection of it, which shows what came of the contents, and leaves the first one alone.
Taking out what was built in place makes such a collection, too. -/

namespace LispRuntime

open ArrayMap (Denoted Spares Achieves Pairs)

/-- The change of a collection by making another one. -/
def Change.persistent (change : Change) (collection : Value) : Attempt Value :=
  match change with
  | assoc key value => collection.assoc key value
  | dissoc key => collection.dissoc key
  | conj item => collection.conj item
  | disj item => collection.disj item
  | pop => collection.pop

namespace Reader

variable {reader : Reader} {now : Moment} {written : Option Nat}

/-- The value has these contents, and no metadata. -/
inductive Shows (reader : Reader) (now : Moment) : Value → Contents → Prop where
  | arrayMap {handle : Nat} {pairs : Pairs}
      (denoted : Denoted reader.setting now handle pairs) :
      reader.Shows now (.arrayMap handle pairs none) (.arrayMap pairs)
  | hashMap {address : Nat} {entries : List Value.HashedEntry}
      (keys : reader.HashedKeys Value.hashedKey entries) :
      reader.Shows now (.hashMap address entries none) (.hashMap entries)
  | sortedMap {address : Nat} {entries : List (Value × Value)}
      (keys : reader.SortedKeys Prod.fst entries) :
      reader.Shows now (.sortedMap address entries none) (.sortedMap entries)
  | vector {address : Nat} {items : List Value} :
      reader.Shows now (.vector address items none) (.vector items)
  | hashSet {address : Nat} {items : List Value.HashedItem} (keys : reader.HashedKeys id items) :
      reader.Shows now (.hashSet address items none) (.hashSet items)
  | sortedSet {address : Nat} {items : List Value} (keys : reader.SortedKeys id items) :
      reader.Shows now (.sortedSet address items none) (.sortedSet items)

namespace Shows

variable {value : Value} {contents : Contents}

theorem contents_eq (shows : reader.Shows now value contents) :
    value.contents? = some contents := by
  cases shows <;> rfl

theorem metadata_eq (shows : reader.Shows now value contents) : value.metadata? = none := by
  cases shows <;> rfl

theorem denoted (shows : reader.Shows now value contents) {handle : Nat}
    (place : value.address? = some (.map handle)) :
    ∃ pairs, Denoted reader.setting now handle pairs := by
  cases shows with
  | arrayMap denoted =>
      cases place
      exact ⟨_, denoted⟩
  | hashMap | sortedMap | vector | hashSet | sortedSet => cases place

theorem kept (shows : reader.Shows now value contents) {after : Moment}
    (keeps : ∀ handle pairs, value.address? = some (.map handle) →
      Denoted reader.setting now handle pairs → Denoted reader.setting after handle pairs) :
    reader.Shows after value contents := by
  cases shows with
  | arrayMap denoted => exact .arrayMap (keeps _ _ rfl denoted)
  | hashMap keys => exact .hashMap keys
  | sortedMap keys => exact .sortedMap keys
  | vector => exact .vector
  | hashSet keys => exact .hashSet keys
  | sortedSet keys => exact .sortedSet keys

end Shows

/-! ## Array maps in custody -/

/-- What makes a handle be known to have its pairs. It does not end when something is read, and
whoever opens a handle has it for that handle. -/
structure Custody (reader : Reader) where
  Keeps : Moment → Nat → Pairs → Prop
  of_denoted {now : Moment} {handle : Nat} {pairs : Pairs}
    (denoted : Denoted reader.setting now handle pairs) : Keeps now handle pairs
  later {before after : Moment} {handle : Nat} {pairs : Pairs} (keeps : Keeps before handle pairs)
    (le : before ≤ after) : Keeps after handle pairs
  stored {now : Moment} {handle : Nat} {pairs : Pairs} (keeps : Keeps now handle pairs) :
    ∃ record spare, now.world.maps.Stored handle record pairs spare ∧
      (record.hash = 0 ∨ reader.setting.IsHash record.hash pairs)
  keys {now : Moment} {handle : Nat} {pairs : Pairs} (keeps : Keeps now handle pairs) :
    ∀ pair ∈ pairs, reader.setting.IsKey pair.1

namespace Custody

/-- Of the handles that have been opened since the start. -/
def own (reader : Reader) : Custody reader where
  Keeps := Denoted reader.setting
  of_denoted := id
  later denoted le := denoted.later le
  stored := Denoted.stored
  keys := Denoted.keys

/-- Of handles that others may read, too, and let remember their hashes. -/
def shared (reader : Reader) : Custody reader where
  Keeps now handle pairs :=
    (∀ later, now ≤ later → ∃ record spare, later.world.maps.Stored handle record pairs spare ∧
      (record.hash = 0 ∨ reader.setting.IsHash record.hash pairs)) ∧
    ∀ pair ∈ pairs, reader.setting.IsKey pair.1
  of_denoted denoted := ⟨fun _ le => (denoted.later le).stored, denoted.keys⟩
  later keeps le := ⟨fun last leLast => keeps.1 last (le.trans leLast), keeps.2⟩
  stored keeps := keeps.1 _ (le_refl _)
  keys keeps := keeps.2

theorem share_spares (custody : Custody reader) {handle : Nat} {pairs : Pairs}
    (keeps : custody.Keeps now handle pairs) (le : reader.start ≤ now) :
    Spares reader.setting now none (Value.openHandle (·.share handle)) fun copy after =>
      (∀ others, ¬Denoted reader.setting now copy others) ∧
        Denoted reader.setting after copy pairs := by
  rcases custody.stored keeps with ⟨record, spare, stored, remembers⟩
  exact ArrayMap.shareStored_spares stored remembers (custody.keys keeps) le

/-- The value has these contents, and this metadata. -/
inductive Bears (custody : Custody reader) (metadata : Option Value) (now : Moment) :
    Value → Contents → Prop where
  | arrayMap {handle : Nat} {pairs : Pairs} (keeps : custody.Keeps now handle pairs) :
      custody.Bears metadata now (.arrayMap handle pairs metadata) (.arrayMap pairs)
  | hashMap {address : Nat} {entries : List Value.HashedEntry}
      (keys : reader.HashedKeys Value.hashedKey entries) :
      custody.Bears metadata now (.hashMap address entries metadata) (.hashMap entries)
  | sortedMap {address : Nat} {entries : List (Value × Value)}
      (keys : reader.SortedKeys Prod.fst entries) :
      custody.Bears metadata now (.sortedMap address entries metadata) (.sortedMap entries)
  | vector {address : Nat} {items : List Value} :
      custody.Bears metadata now (.vector address items metadata) (.vector items)
  | hashSet {address : Nat} {items : List Value.HashedItem} (keys : reader.HashedKeys id items) :
      custody.Bears metadata now (.hashSet address items metadata) (.hashSet items)
  | sortedSet {address : Nat} {items : List Value} (keys : reader.SortedKeys id items) :
      custody.Bears metadata now (.sortedSet address items metadata) (.sortedSet items)

theorem Bears.contents_eq {custody : Custody reader} {metadata : Option Value} {value : Value}
    {contents : Contents} (bears : custody.Bears metadata now value contents) :
    value.contents? = some contents := by
  cases bears <;> rfl

/-- What shows its contents bears them, in a handle of its own, and no metadata. -/
theorem own_bears_iff {value : Value} {contents : Contents} :
    (own reader).Bears none now value contents ↔ reader.Shows now value contents := by
  constructor
  · intro bears
    cases bears with
    | arrayMap denoted => exact .arrayMap denoted
    | hashMap keys => exact .hashMap keys
    | sortedMap keys => exact .sortedMap keys
    | vector => exact .vector
    | hashSet keys => exact .hashSet keys
    | sortedSet keys => exact .sortedSet keys
  · intro shows
    cases shows with
    | arrayMap denoted => exact .arrayMap denoted
    | hashMap keys => exact .hashMap keys
    | sortedMap keys => exact .sortedMap keys
    | vector => exact .vector
    | hashSet keys => exact .hashSet keys
    | sortedSet keys => exact .sortedSet keys

end Custody

/-! ## Taking out what was built -/

/-- Makes a collection with this metadata of what was built. -/
def publish (metadata : Option Value) : Editable → Run Value
  | .arrayMap handle => Value.ofHandle handle metadata
  | .hashMap entries => Value.newHashMap entries metadata
  | .sortedMap entries => Value.newSortedMap entries metadata
  | .vector items => Value.newVector items metadata
  | .hashSet items => Value.newHashSet items metadata
  | .sortedSet items => Value.newSortedSet items metadata

theorem publish_none (editable : Editable) : publish none editable = editable.toValue := by
  cases editable <;> rfl

theorem publish_ofMapTable (metadata : Option Value) (table : MapTable) :
    publish metadata (Editable.ofMapTable table) = table.toValue metadata := by
  cases table <;> rfl

section

variable {editable : Editable} {contents : Contents}

theorem publish_gives (custody : Custody reader) (metadata : Option Value)
    (builds : reader.Builds written now editable contents) :
    Gives reader.machine now (publish metadata editable) fun value after =>
      custody.Bears metadata after value contents ∧
        ∀ handle, value.address? = some (.map handle) → written = some handle := by
  cases builds with
  | arrayMap own denoted =>
      refine ⟨_, now, rfl, le_refl _, ?_⟩
      rw [denoted.entries_eq]
      refine ⟨.arrayMap (custody.of_denoted denoted), ?_⟩
      rintro _ ⟨⟩
      exact own
  | hashMap keys =>
      exact Gives.freshAddress.bind fun _ _ _ _ => Gives.pure ⟨.hashMap keys, nofun⟩
  | sortedMap keys =>
      exact Gives.freshAddress.bind fun _ _ _ _ => Gives.pure ⟨.sortedMap keys, nofun⟩
  | vector => exact Gives.freshAddress.bind fun _ _ _ _ => Gives.pure ⟨.vector, nofun⟩
  | hashSet keys =>
      exact Gives.freshAddress.bind fun _ _ _ _ => Gives.pure ⟨.hashSet keys, nofun⟩
  | sortedSet keys =>
      exact Gives.freshAddress.bind fun _ _ _ _ => Gives.pure ⟨.sortedSet keys, nofun⟩

theorem toValue_gives_shows (builds : reader.Builds written now editable contents) :
    Gives reader.machine now editable.toValue fun value after =>
      reader.Shows after value contents ∧
        ∀ handle, value.address? = some (.map handle) → written = some handle := by
  rw [← publish_none]
  exact (publish_gives (.own reader) none builds).weaken fun _ _ _ holds =>
    holds.imp_left Custody.own_bears_iff.mp

theorem publish_bears (custody : Custody reader) (metadata : Option Value)
    (builds : reader.Builds written now editable contents) (le : reader.start ≤ now) :
    Achieves reader.setting now written (ExceptT.lift (publish metadata editable))
      fun value after => custody.Bears metadata after value contents :=
  Achieves.lift (Spares.of_gives le
    ((publish_gives custody metadata builds).weaken fun _ _ _ holds => holds.1))

theorem publish_achieves (builds : reader.Builds written now editable contents)
    (le : reader.start ≤ now) :
    Achieves reader.setting now written (ExceptT.lift editable.toValue) fun value after =>
      reader.Shows after value contents :=
  Achieves.lift (Spares.of_gives le
    ((toValue_gives_shows builds).weaken fun _ _ _ shows => shows.1))

end

/-! ## Changes -/

/-- What is found among the pairs of an array map does not depend on its block. -/
theorem containsKey_gives_has {key : Value} {handle : Nat} {pairs : Pairs}
    (keys : ∀ pair ∈ pairs, reader.setting.IsKey pair.1) (le : reader.start ≤ now)
    (isKey : reader.setting.IsKey key) (metadata : Option Value) :
    Gives reader.machine now ((Value.arrayMap handle pairs metadata).containsKey key)
      fun found _ => found = pairs.has reader.setting.same key := by
  have looks : Gives reader.machine now
      ((Value.arrayMap handle pairs metadata).mapLookup key) fun found _ =>
        found.isSome = pairs.has reader.setting.same key := by
    apply Gives.looking rfl
    apply (ArrayMap.placeIn_gives le isKey keys).bind
    rintro _ _ _ rfl
    rw [ArrayMap.Pairs.has_eq_isSome]
    cases found : pairs.findIdx? fun pair => reader.setting.same key pair.1 with
    | none => exact Gives.pure rfl
    | some place =>
        have inside := ArrayMap.Pairs.place_lt found
        exact Gives.pure (by rw [List.getElem?_eq_getElem inside]; rfl)
  exact looks.bind fun _ _ _ found => Gives.pure found

namespace Custody

variable {custody : Custody reader} {metadata : Option Value} {collection key item : Value}
  {contents : Contents}

/-- The pair goes to a handle that has just been opened, and a map is made of it. -/
theorem assocSmall_bears (custody : Custody reader) (metadata : Option Value) {handle : Nat}
    {pairs : Pairs} (denoted : Denoted reader.setting now handle pairs) (le : reader.start ≤ now)
    (isKey : reader.setting.IsKey key) (value : Value) :
    Achieves reader.setting now (some handle)
      (do (← MapTable.assocSmall handle key value).toValue metadata) fun result after =>
        custody.Bears metadata after result
          (Contents.assocPairs reader.datumOf pairs key value) := by
  apply (assocSmall_builds denoted le isKey value).bind
  intro table last leLast builds
  rw [← publish_ofMapTable]
  exact publish_bears custody metadata builds leLast

/-- What a map of one pair has, which is made where there was none. -/
theorem assoc_nil_bears (custody : Custody reader) (le : reader.start ≤ now)
    (isKey : reader.setting.IsKey key) (value : Value) :
    Achieves reader.setting now none (Value.nil.assoc key value) fun result after =>
      custody.Bears none after result (Contents.assocPairs reader.datumOf [] key value) := by
  apply Achieves.opening (ArrayMap.create_spares le)
  intro handle between leBetween denoted
  simp only [List.foldlM_cons, List.foldlM_nil, bind_pure]
  exact custody.assocSmall_bears none denoted leBetween isKey value

theorem assoc_achieves_map (bears : custody.Bears metadata now collection contents)
    (le : reader.start ≤ now) (isMap : contents.shape = .map)
    (isKey : reader.setting.IsKey key) (value : Value) {changed : Contents}
    (made : contents.assoc reader.datumOf key value = some changed) :
    Achieves reader.setting now none (collection.assoc key value) fun result after =>
      custody.Bears metadata after result changed := by
  cases bears with
  | arrayMap keeps =>
      cases made
      apply Achieves.opening (custody.share_spares keeps le)
      intro copy between leBetween denoted
      exact custody.assocSmall_bears metadata denoted leBetween isKey value
  | hashMap keys =>
      cases made
      apply Achieves.reading (hashAssoc_gives keys le isKey value)
      rintro _ after leAfter ⟨keysAfter, rfl⟩
      exact publish_bears custody metadata (.hashMap keysAfter) (le.trans leAfter)
  | sortedMap keys =>
      cases made
      apply Achieves.reading (keys.put_gives le isKey)
      rintro _ after leAfter ⟨keysAfter, rfl⟩
      exact publish_bears custody metadata (.sortedMap keysAfter) (le.trans leAfter)
  | vector | hashSet | sortedSet => cases isMap

theorem assoc_vector_bears (custody : Custody reader) (metadata : Option Value)
    (le : reader.start ≤ now) (address : Nat) (items : List Value) (key value : Value) :
    Follows reader.setting now none (Value.assoc (.vector address items metadata) key value)
      (Contents.assoc reader.datumOf (.vector items) key value) (custody.Bears metadata) := by
  cases key
  case integer index =>
    rw [Contents.assoc, Contents.placeOf?]
    by_cases within : 0 ≤ index ∧ index.toInt.toNat ≤ items.length
    · rw [if_pos within, Option.map_some]
      have found : Value.updateIndex (.integer index) items.length =
          pure index.toInt.toNat := if_pos within
      rw [Value.assoc, found, pure_bind]
      exact publish_bears custody metadata .vector le
    · rw [if_neg within]
      have found : Value.updateIndex (.integer index) items.length =
          throw (.indexOutOfBounds index items.length) := if_neg within
      rw [Value.assoc, found]
      exact Follows.refused le (by simp)
  all_goals exact Follows.mismatched le

theorem assoc_bears (bears : custody.Bears metadata now collection contents)
    (le : reader.start ≤ now) (value : Value)
    (keys : ∀ sought ∈ (Change.assoc key value).sought contents.shape,
      reader.setting.IsKey sought) :
    Follows reader.setting now none (collection.assoc key value)
      (contents.assoc reader.datumOf key value) (custody.Bears metadata) := by
  cases shape : contents.shape with
  | map =>
      rw [shape] at keys
      rcases Contents.exists_assoc shape key value with ⟨changed, made⟩
      rw [made]
      have isKey := keys key (List.mem_singleton_self _)
      exact assoc_achieves_map bears le shape isKey value made
  | set | vector =>
      cases bears <;> cases shape
      all_goals first
        | exact Follows.mismatched le
        | exact assoc_vector_bears custody metadata le _ _ key value

theorem conjEntry_bears (bears : custody.Bears metadata now collection contents)
    (le : reader.start ≤ now) (isMap : contents.shape = .map)
    (keys : ∀ entry ∈ item.addedEntries?.getD [], reader.setting.IsKey entry.1) :
    Follows reader.setting now none (Value.conjEntry collection item)
      (item.addedEntries?.bind fun entries => contents.assocAll reader.datumOf entries)
      (custody.Bears metadata) := by
  unfold Value.conjEntry
  split
  case h_1 key value _ =>
    rcases Contents.exists_assoc isMap key value with ⟨changed, made⟩
    have all : contents.assocAll reader.datumOf [(key, value)] = some changed := by
      rw [Contents.assocAll_cons, made]
      rfl
    change Follows _ _ _ _ (contents.assocAll reader.datumOf [(key, value)]) _
    rw [all]
    exact assoc_achieves_map bears le isMap (keys _ (List.mem_singleton_self _)) value made
  case h_2 other =>
    rw [Value.addedEntries?_eq_mapEntries? other] at keys ⊢
    cases found : item.mapEntries? with
    | none => exact Follows.mismatched le
    | some entries =>
        rcases Contents.exists_assocAll isMap entries with ⟨changed, made⟩
        rw [found] at keys
        rw [Option.bind_some, made]
        exact assocEach_achieves (custody.Bears metadata) assoc_achieves_map bears le isMap keys
          made

theorem conj_bears (bears : custody.Bears metadata now collection contents)
    (le : reader.start ≤ now)
    (keys : ∀ key ∈ (Change.conj item).sought contents.shape, reader.setting.IsKey key) :
    Follows reader.setting now none (collection.conj item)
      (contents.conj reader.datumOf item) (custody.Bears metadata) := by
  cases bears with
  | arrayMap keeps => exact conjEntry_bears (.arrayMap keeps) le rfl (List.forall_mem_map.mp keys)
  | hashMap hashed => exact conjEntry_bears (.hashMap hashed) le rfl (List.forall_mem_map.mp keys)
  | sortedMap sorted =>
      exact conjEntry_bears (.sortedMap sorted) le rfl (List.forall_mem_map.mp keys)
  | vector => exact publish_bears custody metadata .vector le
  | hashSet hashed =>
      have isKey := keys item (List.mem_singleton_self _)
      apply Achieves.reading (hashed.insert_gives le isKey fun _ => rfl)
      rintro _ after leAfter ⟨hashedAfter, rfl⟩
      exact publish_bears custody metadata (.hashSet hashedAfter) (le.trans leAfter)
  | sortedSet sorted =>
      have isKey := keys item (List.mem_singleton_self _)
      apply Achieves.reading (sorted.put_gives le isKey)
      rintro _ after leAfter ⟨sortedAfter, rfl⟩
      exact publish_bears custody metadata (.sortedSet sortedAfter) (le.trans leAfter)

/-- An array map without the key is left as it is, and so are its contents. -/
theorem dissoc_bears (bears : custody.Bears metadata now collection contents)
    (le : reader.start ≤ now)
    (keys : ∀ sought ∈ (Change.dissoc key).sought contents.shape, reader.setting.IsKey sought) :
    Follows reader.setting now none (collection.dissoc key)
      (contents.dissoc reader.datumOf key) (custody.Bears metadata) := by
  cases bears with
  | @arrayMap handle pairs keeps =>
      have isKey := keys key (List.mem_singleton_self _)
      apply Achieves.reading (containsKey_gives_has (custody.keys keeps) le isKey metadata)
      rintro _ between leBetween rfl
      have later := le.trans leBetween
      split
      case isTrue =>
        apply Achieves.opening (custody.share_spares (custody.later keeps leBetween) later)
        intro copy opened leOpened denotedCopy
        apply Achieves.bind (Achieves.lift (ArrayMap.erase_edits denotedCopy leOpened isKey))
        intro _ erased leErased denotedErased
        exact publish_bears custody metadata (.arrayMap rfl denotedErased) leErased
      case isFalse absent =>
        have unchanged : pairs.remove reader.setting.same key = pairs :=
          List.eraseP_of_forall_not fun pair member same =>
            absent (List.any_eq_true.mpr ⟨pair, member, same⟩)
        apply Achieves.pure later
        change custody.Bears _ _ _ (.arrayMap (pairs.remove reader.setting.same key))
        rw [unchanged]
        exact .arrayMap (custody.later keeps leBetween)
  | hashMap hashed =>
      have isKey := keys key (List.mem_singleton_self _)
      apply Achieves.reading (hashed.erase_gives le isKey)
      rintro _ after leAfter ⟨hashedAfter, rfl⟩
      exact publish_bears custody metadata (.hashMap hashedAfter) (le.trans leAfter)
  | sortedMap sorted =>
      have isKey := keys key (List.mem_singleton_self _)
      apply Achieves.reading (sorted.erase_gives le isKey)
      rintro _ after leAfter ⟨sortedAfter, rfl⟩
      exact publish_bears custody metadata (.sortedMap sortedAfter) (le.trans leAfter)
  | vector | hashSet | sortedSet => exact Follows.mismatched le

theorem disj_bears (bears : custody.Bears metadata now collection contents)
    (le : reader.start ≤ now)
    (keys : ∀ key ∈ (Change.disj item).sought contents.shape, reader.setting.IsKey key) :
    Follows reader.setting now none (collection.disj item)
      (contents.disj reader.datumOf item) (custody.Bears metadata) := by
  cases bears with
  | hashSet hashed =>
      have isKey := keys item (List.mem_singleton_self _)
      apply Achieves.reading (hashed.erase_gives le isKey)
      rintro _ after leAfter ⟨hashedAfter, rfl⟩
      exact publish_bears custody metadata (.hashSet hashedAfter) (le.trans leAfter)
  | sortedSet sorted =>
      have isKey := keys item (List.mem_singleton_self _)
      apply Achieves.reading (sorted.erase_gives le isKey)
      rintro _ after leAfter ⟨sortedAfter, rfl⟩
      exact publish_bears custody metadata (.sortedSet sortedAfter) (le.trans leAfter)
  | arrayMap | hashMap | sortedMap | vector => exact Follows.mismatched le

theorem pop_bears (bears : custody.Bears metadata now collection contents)
    (le : reader.start ≤ now) :
    Follows reader.setting now none collection.pop contents.pop (custody.Bears metadata) := by
  cases bears with
  | @vector address items =>
      cases items with
      | nil => exact Follows.refused le nofun
      | cons => exact publish_bears custody metadata .vector le
  | arrayMap | hashMap | sortedMap | hashSet | sortedSet => exact Follows.mismatched le

theorem change_bears (bears : custody.Bears metadata now collection contents)
    (le : reader.start ≤ now) (change : Change)
    (keys : ∀ key ∈ change.sought contents.shape, reader.setting.IsKey key) :
    Follows reader.setting now none (change.persistent collection)
      (contents.change reader.datumOf change) (custody.Bears metadata) := by
  cases change with
  | assoc key value => exact assoc_bears bears le value keys
  | dissoc key => exact dissoc_bears bears le keys
  | conj item => exact conj_bears bears le keys
  | disj item => exact disj_bears bears le keys
  | pop => exact pop_bears bears le

end Custody

theorem change_shows {collection : Value} {contents : Contents}
    (shows : reader.Shows now collection contents) (le : reader.start ≤ now) (change : Change)
    (keys : ∀ key ∈ change.sought contents.shape, reader.setting.IsKey key) :
    Follows reader.setting now none (change.persistent collection)
      (contents.change reader.datumOf change) reader.Shows :=
  (Custody.change_bears (Custody.own_bears_iff.mpr shows) le change keys).weaken
    fun _ _ _ => Custody.own_bears_iff.mp

end Reader

end LispRuntime
