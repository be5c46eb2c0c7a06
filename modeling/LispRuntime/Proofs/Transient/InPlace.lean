import LispRuntime.Collection.Transient
import LispRuntime.Proofs.Transient.Contents

/-! A collection that is being built follows its contents: a change that the contents
can make is made in place, and any other change ends with an error before anything is
written. An array map is written through one handle from its opening on, and through no
other. -/

namespace LispRuntime

open ArrayMap (Denoted Spares Achieves Setting Pairs)

/-! ## Following what is expected -/

/-- The attempt ends well with what is expected; if nothing is, with an error, and
nothing is written. -/
def Follows {α β : Type} (setting : Setting) (now : Moment) (written : Option Nat)
    (attempt : Attempt α) (expected : Option β) (post : Moment → α → β → Prop) : Prop :=
  match expected with
  | some result =>
      Achieves setting now written attempt fun answer after => post after answer result
  | none =>
      Spares setting now none attempt.run fun outcome _ =>
        ∃ error, outcome = .error error ∧ error ≠ .transientSealed

namespace Follows

variable {α β : Type} {setting : Setting} {now : Moment} {written : Option Nat}
  {post : Moment → α → β → Prop}

theorem refused (le : setting.start ≤ now) {error : Error} (other : error ≠ .transientSealed) :
    Follows setting now written (throw error) none post :=
  Spares.pure le ⟨error, rfl, other⟩

theorem mismatched (le : setting.start ≤ now) {context wanted got : String} :
    Follows setting now written (throw (.wrongType context wanted got)) none post :=
  refused le nofun

theorem weaken {attempt : Attempt α} {expected : Option β} {weak : Moment → α → β → Prop}
    (follows : Follows setting now written attempt expected post)
    (implies : ∀ after answer result, post after answer result → weak after answer result) :
    Follows setting now written attempt expected weak := by
  cases expected with
  | none => exact follows
  | some result => exact Achieves.weaken follows fun answer after => implies after answer result

end Follows

namespace ArrayMap

variable {setting : Setting} {now : Moment} {handle : Nat} {pairs : Pairs} {key : Value}

/-- There is room for a pair exactly if the pair can be put in. -/
theorem fits_gives_put (denoted : Denoted setting now handle pairs) (le : setting.start ≤ now)
    (isKey : setting.IsKey key) (value : Value) :
    Gives setting.machine now (HandleTable.fits handle key) fun found _ =>
      found = (pairs.put setting.same key value).toBool := by
  have counts : Gives setting.machine now (HandleTable.size handle) fun count _ =>
      count = pairs.length :=
    Gives.looking rfl (Gives.pure (congrArg List.length denoted.entries_eq))
  apply counts.bind
  rintro _ between leBetween rfl
  rw [Pairs.put, Pairs.add]
  split
  case isTrue room =>
    apply Gives.pure
    split <;> rfl
  case isFalse =>
    apply (placeOf_gives (denoted.later leBetween) (le.trans leBetween) isKey).bind
    rintro _ _ _ rfl
    rw [← Pairs.has_eq_isSome]
    apply Gives.pure
    cases pairs.has setting.same key <;> rfl

end ArrayMap

namespace Reader

variable {reader : Reader} {now : Moment} {written : Option Nat}

/-- What is being built has these contents, and is written through no other handle. -/
inductive Builds (reader : Reader) (written : Option Nat) (now : Moment) :
    Editable → Contents → Prop where
  | arrayMap {handle : Nat} {pairs : Pairs} (own : written = some handle)
      (denoted : Denoted reader.setting now handle pairs) :
      reader.Builds written now (.arrayMap handle) (.arrayMap pairs)
  | hashMap {entries : List Value.HashedEntry}
      (keys : reader.HashedKeys Value.hashedKey entries) :
      reader.Builds written now (.hashMap entries) (.hashMap entries)
  | sortedMap {entries : List (Value × Value)} (keys : reader.SortedKeys Prod.fst entries) :
      reader.Builds written now (.sortedMap entries) (.sortedMap entries)
  | vector {items : List Value} : reader.Builds written now (.vector items) (.vector items)
  | hashSet {items : List Value.HashedItem} (keys : reader.HashedKeys id items) :
      reader.Builds written now (.hashSet items) (.hashSet items)
  | sortedSet {items : List Value} (keys : reader.SortedKeys id items) :
      reader.Builds written now (.sortedSet items) (.sortedSet items)

namespace Builds

variable {editable : Editable} {contents : Contents}

theorem kept (builds : reader.Builds written now editable contents) {after : Moment}
    (keeps : ∀ handle pairs, written = some handle → Denoted reader.setting now handle pairs →
      Denoted reader.setting after handle pairs) :
    reader.Builds written after editable contents := by
  cases builds with
  | arrayMap own denoted => exact .arrayMap own (keeps _ _ own denoted)
  | hashMap keys => exact .hashMap keys
  | sortedMap keys => exact .sortedMap keys
  | vector => exact .vector
  | hashSet keys => exact .hashSet keys
  | sortedSet keys => exact .sortedSet keys

end Builds

/-! ## Tables -/

section

variable {key value : Value} {entries : List Value.HashedEntry}

theorem hashAssoc_gives (keys : reader.HashedKeys Value.hashedKey entries)
    (le : reader.start ≤ now) (isKey : reader.setting.IsKey key) (value : Value) :
    Gives reader.machine now (HashTable.assoc entries key value) fun changed _ =>
      reader.HashedKeys Value.hashedKey changed ∧
        changed = Contents.putHashed reader.datumOf entries key value :=
  keys.insert_gives le isKey fun _ => rfl

/-- A hash map of the pairs keeps their order as long as no two of them have one key. -/
theorem promoted_gives (le : reader.start ≤ now) {pairs : Pairs}
    (keys : ∀ pair ∈ pairs, reader.setting.IsKey pair.1) :
    Gives reader.machine now (HashTable.ofEntries pairs) fun made _ =>
      reader.HashedKeys Value.hashedKey made ∧
        made = Contents.promoted reader.datumOf pairs := by
  have none : reader.HashedKeys Value.hashedKey [] := fun _ member => by cases member
  apply Gives.foldlM
    (fun table known => reader.HashedKeys Value.hashedKey table ∧ table = known) ⟨none, rfl⟩
  rintro moment leMoment pair member table _ ⟨hashed, rfl⟩
  exact hashAssoc_gives hashed (le.trans leMoment) (keys pair member) pair.2

end

/-! ## Array maps -/

section

variable {handle : Nat} {pairs : Pairs} {key : Value}

theorem promote_builds (denoted : Denoted reader.setting now handle pairs)
    (le : reader.start ≤ now) (isKey : reader.setting.IsKey key) (value : Value) :
    Spares reader.setting now (some handle) (MapTable.promote handle key value)
      fun table after => reader.Builds (some handle) after (Editable.ofMapTable table)
        (.hashMap (Contents.putHashed reader.datumOf
          (Contents.promoted reader.datumOf pairs) key value)) := by
  apply Spares.looking rfl
  rw [denoted.entries_eq]
  apply Spares.reading (promoted_gives le denoted.keys)
  rintro _ last leLast ⟨keys, rfl⟩
  apply (ArrayMap.retire_spares (denoted.later leLast) (le.trans leLast)).bind
  intro _ retired leRetired _
  apply Spares.reading (hashAssoc_gives keys leRetired isKey value)
  rintro _ after leAfter ⟨keysAfter, rfl⟩
  exact Spares.pure (leRetired.trans leAfter) (.hashMap keysAfter)

/-- A pair that can be put in is written in place. -/
theorem assign_builds (denoted : Denoted reader.setting now handle pairs)
    (le : reader.start ≤ now) (isKey : reader.setting.IsKey key) {value : Value}
    {changed : Pairs} (put : pairs.put reader.setting.same key value = .ok changed) :
    Achieves reader.setting now (some handle) (HandleTable.assign handle key value)
      fun _ after => reader.Builds (some handle) after (.arrayMap handle) (.arrayMap changed) := by
  have edits : ArrayMap.Edits reader.setting now handle pairs
      (Run.pool.assign (HandleTable.isSought key) handle key value)
      (pairs.put reader.setting.same key value) := ArrayMap.assign_edits denoted le isKey
  rw [put] at edits
  rcases edits with ⟨_, after, ran, leAfter, others, rfl, denotedAfter⟩
  exact ⟨_, after, ran, leAfter, others, (), rfl, .arrayMap rfl denotedAfter⟩

theorem assocSmall_builds (denoted : Denoted reader.setting now handle pairs)
    (le : reader.start ≤ now) (isKey : reader.setting.IsKey key) (value : Value) :
    Achieves reader.setting now (some handle) (MapTable.assocSmall handle key value)
      fun table after => reader.Builds (some handle) after (Editable.ofMapTable table)
        (Contents.assocPairs reader.datumOf pairs key value) := by
  apply Achieves.reading (ArrayMap.fits_gives_put denoted le isKey value)
  rintro _ between leBetween rfl
  have denotedBetween := denoted.later leBetween
  have later := le.trans leBetween
  cases put : pairs.put reader.setting.same key value with
  | ok changed =>
      rw [Contents.assocPairs_of_ok put]
      rcases assign_builds denotedBetween later isKey put with
        ⟨_, after, ran, leAfter, others, _, rfl, builds⟩
      have assigns : Achieves reader.setting between (some handle)
          (Attempt.outcome (HandleTable.assign handle key value)) fun outcome after =>
            outcome = .ok () ∧ reader.Builds (some handle) after
              (.arrayMap handle) (.arrayMap changed) :=
        Achieves.lift ⟨_, after, ran, leAfter, others, rfl, builds⟩
      apply assigns.bind
      rintro _ last leLast ⟨rfl, builds⟩
      exact Achieves.pure leLast builds
  | error error =>
      rw [Contents.assocPairs_of_error put]
      exact Achieves.lift (promote_builds denotedBetween later isKey value)

/-- The key is looked for once more in place, to no other effect. -/
theorem assocPairs_builds (denoted : Denoted reader.setting now handle pairs)
    (le : reader.start ≤ now) (isKey : reader.setting.IsKey key) (value : Value) :
    Achieves reader.setting now (some handle) (Editable.assocPairs handle key value)
      fun changed after => reader.Builds (some handle) after changed
        (Contents.assocPairs reader.datumOf pairs key value) := by
  apply Achieves.reading (ArrayMap.fits_gives_put denoted le isKey value)
  rintro _ between leBetween rfl
  have denotedBetween := denoted.later leBetween
  have later := le.trans leBetween
  cases put : pairs.put reader.setting.same key value with
  | ok changed =>
      rw [Contents.assocPairs_of_ok put]
      apply (assign_builds denotedBetween later isKey put).bind
      intro _ last leLast builds
      exact Achieves.pure leLast builds
  | error error =>
      apply (assocSmall_builds denotedBetween later isKey value).bind
      intro table last leLast builds
      exact Achieves.pure leLast builds

end

/-! ## Changes -/

section

variable {editable : Editable} {contents : Contents} {key item : Value}

theorem assocVector_follows (le : reader.start ≤ now) (items : List Value) (key value : Value) :
    Follows reader.setting now written (Editable.assocVector items key value)
      (Contents.assoc reader.datumOf (.vector items) key value) (reader.Builds written) := by
  cases key
  case integer index =>
    rw [Editable.assocVector, Contents.assoc, Contents.placeOf?]
    by_cases inside : 0 ≤ index ∧ index.toInt.toNat < items.length
    · rw [if_pos inside, if_pos ⟨inside.1, inside.2.le⟩, Option.map_some, Value.setOrPush,
        if_neg inside.2.ne]
      exact Achieves.pure le .vector
    rw [if_neg inside]
    by_cases atEnd : 0 ≤ index ∧ index.toInt.toNat = items.length
    · rw [if_pos atEnd, if_pos ⟨atEnd.1, atEnd.2.le⟩, Option.map_some, Value.setOrPush,
        if_pos atEnd.2]
      exact Achieves.pure le .vector
    have outside : ¬(0 ≤ index ∧ index.toInt.toNat ≤ items.length) := fun within =>
      within.2.lt_or_eq.elim (fun less => inside ⟨within.1, less⟩) fun same =>
        atEnd ⟨within.1, same⟩
    rw [if_neg atEnd, if_neg outside]
    exact Follows.refused le (by simp)
  all_goals exact Follows.mismatched le

theorem assoc_achieves_in_place (builds : reader.Builds written now editable contents)
    (le : reader.start ≤ now) (isMap : contents.shape = .map)
    (isKey : reader.setting.IsKey key) (value : Value) {changed : Contents}
    (made : contents.assoc reader.datumOf key value = some changed) :
    Achieves reader.setting now written (editable.assoc key value) fun result after =>
      reader.Builds written after result changed := by
  cases builds with
  | arrayMap own denoted =>
      cases made
      cases own
      exact assocPairs_builds denoted le isKey value
  | hashMap keys =>
      cases made
      apply Achieves.reading (hashAssoc_gives keys le isKey value)
      rintro _ after leAfter ⟨keysAfter, rfl⟩
      exact Achieves.pure (le.trans leAfter) (.hashMap keysAfter)
  | sortedMap keys =>
      cases made
      apply Achieves.reading (keys.put_gives le isKey)
      rintro _ after leAfter ⟨keysAfter, rfl⟩
      exact Achieves.pure (le.trans leAfter) (.sortedMap keysAfter)
  | vector | hashSet | sortedSet => cases isMap

theorem assoc_follows (builds : reader.Builds written now editable contents)
    (le : reader.start ≤ now) (value : Value)
    (keys : ∀ sought ∈ (Change.assoc key value).sought contents.shape,
      reader.setting.IsKey sought) :
    Follows reader.setting now written (editable.assoc key value)
      (contents.assoc reader.datumOf key value) (reader.Builds written) := by
  cases shape : contents.shape with
  | map =>
      rw [shape] at keys
      rcases Contents.exists_assoc shape key value with ⟨changed, made⟩
      rw [made]
      have isKey := keys key (List.mem_singleton_self _)
      exact assoc_achieves_in_place builds le shape isKey value made
  | set | vector =>
      cases builds <;> cases shape
      all_goals first
        | exact Follows.mismatched le
        | exact assocVector_follows le _ key value

/-- Adding one entry after the other comes to what is expected if adding one of them
does, whatever they are added to. -/
theorem assocEach_achieves {α : Type} {step : α → Value → Value → Attempt α}
    (Good : Moment → α → Contents → Prop)
    (steps : ∀ {moment state contents key}, Good moment state contents →
      reader.start ≤ moment → contents.shape = .map → reader.setting.IsKey key →
      ∀ value {changed}, contents.assoc reader.datumOf key value = some changed →
        Achieves reader.setting moment written (step state key value) fun result after =>
          Good after result changed)
    {state : α} (good : Good now state contents) (le : reader.start ≤ now)
    (isMap : contents.shape = .map) {entries : List (Value × Value)}
    (keys : ∀ entry ∈ entries, reader.setting.IsKey entry.1) {changed : Contents}
    (made : contents.assocAll reader.datumOf entries = some changed) :
    Achieves reader.setting now written
      (entries.foldlM (fun state entry => step state entry.1 entry.2) state)
      fun result after => Good after result changed := by
  induction entries generalizing now state contents with
  | nil =>
      cases made
      exact Achieves.pure le good
  | cons entry rest induction =>
      rw [Contents.assocAll_cons] at made
      rw [List.foldlM_cons]
      rcases Option.bind_eq_some_iff.mp made with ⟨middle, first, others⟩
      have isKey := keys entry (List.mem_cons_self ..)
      apply (steps good le isMap isKey entry.2 first).bind
      intro next between leBetween goodNext
      exact induction goodNext leBetween ((Contents.shape_assoc first).trans isMap)
        (fun other member => keys other (List.mem_cons_of_mem _ member)) others

theorem conjEntry_follows (builds : reader.Builds written now editable contents)
    (le : reader.start ≤ now) (isMap : contents.shape = .map)
    (keys : ∀ entry ∈ item.addedEntries?.getD [], reader.setting.IsKey entry.1) :
    Follows reader.setting now written (editable.conjEntry item)
      (item.addedEntries?.bind fun entries => contents.assocAll reader.datumOf entries)
      (reader.Builds written) := by
  unfold Editable.conjEntry
  split
  case h_1 key value _ =>
    rcases Contents.exists_assoc isMap key value with ⟨changed, made⟩
    have all : contents.assocAll reader.datumOf [(key, value)] = some changed := by
      rw [Contents.assocAll_cons, made]
      rfl
    change Follows _ _ _ _ (contents.assocAll reader.datumOf [(key, value)]) _
    rw [all]
    exact assoc_achieves_in_place builds le isMap (keys _ (List.mem_singleton_self _)) value made
  case h_2 other =>
    rw [Value.addedEntries?_eq_mapEntries? other] at keys ⊢
    cases found : item.mapEntries? with
    | none => exact Follows.mismatched le
    | some entries =>
        rcases Contents.exists_assocAll isMap entries with ⟨changed, made⟩
        rw [found] at keys
        rw [Option.bind_some, made]
        exact assocEach_achieves (reader.Builds written) assoc_achieves_in_place builds le isMap
          keys made

theorem conj_follows (builds : reader.Builds written now editable contents)
    (le : reader.start ≤ now)
    (keys : ∀ key ∈ (Change.conj item).sought contents.shape, reader.setting.IsKey key) :
    Follows reader.setting now written (editable.conj item)
      (contents.conj reader.datumOf item) (reader.Builds written) := by
  cases builds with
  | arrayMap own denoted =>
      exact conjEntry_follows (.arrayMap own denoted) le rfl (List.forall_mem_map.mp keys)
  | hashMap hashed => exact conjEntry_follows (.hashMap hashed) le rfl (List.forall_mem_map.mp keys)
  | sortedMap sorted =>
      exact conjEntry_follows (.sortedMap sorted) le rfl (List.forall_mem_map.mp keys)
  | vector => exact Achieves.pure le .vector
  | hashSet hashed =>
      have isKey := keys item (List.mem_singleton_self _)
      apply Achieves.reading (hashed.insert_gives le isKey fun _ => rfl)
      rintro _ after leAfter ⟨hashedAfter, rfl⟩
      exact Achieves.pure (le.trans leAfter) (.hashSet hashedAfter)
  | sortedSet sorted =>
      have isKey := keys item (List.mem_singleton_self _)
      apply Achieves.reading (sorted.put_gives le isKey)
      rintro _ after leAfter ⟨sortedAfter, rfl⟩
      exact Achieves.pure (le.trans leAfter) (.sortedSet sortedAfter)

theorem dissoc_follows (builds : reader.Builds written now editable contents)
    (le : reader.start ≤ now)
    (keys : ∀ sought ∈ (Change.dissoc key).sought contents.shape, reader.setting.IsKey sought) :
    Follows reader.setting now written (editable.dissoc key)
      (contents.dissoc reader.datumOf key) (reader.Builds written) := by
  cases builds with
  | arrayMap own denoted =>
      cases own
      have isKey := keys key (List.mem_singleton_self _)
      apply Achieves.bind (Achieves.lift (ArrayMap.erase_edits denoted le isKey))
      intro _ after leAfter denotedAfter
      exact Achieves.pure leAfter (.arrayMap rfl denotedAfter)
  | hashMap hashed =>
      have isKey := keys key (List.mem_singleton_self _)
      apply Achieves.reading (hashed.erase_gives le isKey)
      rintro _ after leAfter ⟨hashedAfter, rfl⟩
      exact Achieves.pure (le.trans leAfter) (.hashMap hashedAfter)
  | sortedMap sorted =>
      have isKey := keys key (List.mem_singleton_self _)
      apply Achieves.reading (sorted.erase_gives le isKey)
      rintro _ after leAfter ⟨sortedAfter, rfl⟩
      exact Achieves.pure (le.trans leAfter) (.sortedMap sortedAfter)
  | vector | hashSet | sortedSet => exact Follows.mismatched le

theorem disj_follows (builds : reader.Builds written now editable contents)
    (le : reader.start ≤ now)
    (keys : ∀ key ∈ (Change.disj item).sought contents.shape, reader.setting.IsKey key) :
    Follows reader.setting now written (editable.disj item)
      (contents.disj reader.datumOf item) (reader.Builds written) := by
  cases builds with
  | hashSet hashed =>
      have isKey := keys item (List.mem_singleton_self _)
      apply Achieves.reading (hashed.erase_gives le isKey)
      rintro _ after leAfter ⟨hashedAfter, rfl⟩
      exact Achieves.pure (le.trans leAfter) (.hashSet hashedAfter)
  | sortedSet sorted =>
      have isKey := keys item (List.mem_singleton_self _)
      apply Achieves.reading (sorted.erase_gives le isKey)
      rintro _ after leAfter ⟨sortedAfter, rfl⟩
      exact Achieves.pure (le.trans leAfter) (.sortedSet sortedAfter)
  | arrayMap | hashMap | sortedMap | vector => exact Follows.mismatched le

theorem pop_follows (builds : reader.Builds written now editable contents)
    (le : reader.start ≤ now) :
    Follows reader.setting now written editable.pop contents.pop (reader.Builds written) := by
  cases builds with
  | @vector items =>
      rw [Editable.pop, Contents.pop]
      split
      · exact Follows.refused le (by simp)
      · exact Achieves.pure le .vector
  | arrayMap | hashMap | sortedMap | hashSet | sortedSet => exact Follows.mismatched le

end

end Reader

/-- The change of a collection that is being built. -/
def Change.inPlace (change : Change) (editable : Editable) : Attempt Editable :=
  match change with
  | assoc key value => editable.assoc key value
  | dissoc key => editable.dissoc key
  | conj item => editable.conj item
  | disj item => editable.disj item
  | pop => editable.pop

theorem Reader.change_follows {reader : Reader} {now : Moment} {written : Option Nat}
    {editable : Editable} {contents : Contents}
    (builds : reader.Builds written now editable contents) (le : reader.start ≤ now)
    (change : Change) (keys : ∀ key ∈ change.sought contents.shape, reader.setting.IsKey key) :
    Follows reader.setting now written (change.inPlace editable)
      (contents.change reader.datumOf change) (reader.Builds written) := by
  cases change with
  | assoc key value => exact assoc_follows builds le value keys
  | dissoc key => exact dissoc_follows builds le keys
  | conj item => exact conj_follows builds le keys
  | disj item => exact disj_follows builds le keys
  | pop => exact pop_follows builds le

end LispRuntime
