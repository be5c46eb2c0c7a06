import LispRuntime.Proofs.Metadata.Alike
import LispRuntime.Collection.Access

/-! Comparing, hashing and looking up. Metadata is not part of the datum that a value stands for,
so these give the same answers on alike values, as long as no array map remembers a wrong hash. -/

namespace LispRuntime

/-- Both computations end, each in a world of its own, with related answers. -/
def AgreeAt {α β : Type} (machine : Machine) (world : World) (left : Run α) (right : Run β)
    (related : α → β → Prop) : Prop :=
  ∃ answer other after afterToo, left machine world = some (answer, after) ∧
    right machine world = some (other, afterToo) ∧ related answer other

section

variable {machine : Machine} {moment : Moment} {α β : Type}

theorem AgreeAt.of_gives {left : Run α} {right : Run β} {post : α → Prop} {postToo : β → Prop}
    {related : α → β → Prop} (gives : Gives machine moment left fun answer _ => post answer)
    (givesToo : Gives machine moment right fun answer _ => postToo answer)
    (implies : ∀ answer other, post answer → postToo other → related answer other) :
    AgreeAt machine moment.world left right related := by
  rcases gives with ⟨answer, after, ran, _, holds⟩
  rcases givesToo with ⟨other, afterToo, ranToo, _, holdsToo⟩
  exact ⟨answer, other, _, _, ran, ranToo, implies answer other holds holdsToo⟩

/-- The answers are passed on in another form. -/
theorem AgreeAt.map {γ δ : Type} {world : World} {left : Run α} {right : Run β} {change : α → γ}
    {changeToo : β → δ} {middle : α → β → Prop} {related : γ → δ → Prop}
    (agree : AgreeAt machine world left right middle)
    (implies : ∀ answer other, middle answer other → related (change answer) (changeToo other)) :
    AgreeAt machine world (do return change (← left)) (do return changeToo (← right)) related := by
  rcases agree with ⟨answer, other, after, afterToo, ran, ranToo, holds⟩
  exact ⟨_, _, after, afterToo, Run.run_bind ran, Run.run_bind ranToo, implies _ _ holds⟩

theorem AgreeAt.pure {world : World} {answer : α} {other : β} {related : α → β → Prop}
    (holds : related answer other) :
    AgreeAt machine world (Pure.pure answer) (Pure.pure other) related :=
  ⟨answer, other, world, world, rfl, rfl, holds⟩

/-! ## Comparing and hashing -/

namespace Moment.Twins

variable {left right leftToo rightToo : Value}

theorem compare_agrees (twins : moment.Twins left leftToo) (others : moment.Twins right rightToo) :
    ∃ enough, ∀ machine : Machine, enough ≤ machine.limit →
      AgreeAt machine moment.world (left.compare right) (leftToo.compare rightToo) Eq := by
  rcases twins.exists_datum with ⟨datum, readLeft, readLeftToo⟩
  rcases others.exists_datum with ⟨other, readRight, readRightToo⟩
  refine ⟨datum.cost + other.cost, fun machine enough => ?_⟩
  exact AgreeAt.of_gives
    (Value.compare_always readLeft (by omega) readRight (by omega) moment (le_refl _))
    (Value.compare_always readLeftToo (by omega) readRightToo (by omega) moment (le_refl _))
    fun _ _ found foundToo => found.trans foundToo.symm

theorem equal_agrees (remembers : moment.RemembersRight) (twins : moment.Twins left leftToo)
    (others : moment.Twins right rightToo) :
    ∃ enough, ∀ machine : Machine, enough ≤ machine.limit →
      AgreeAt machine moment.world (left.equal right) (leftToo.equal rightToo) Eq := by
  rcases twins.exists_datum with ⟨datum, readLeft, readLeftToo⟩
  rcases others.exists_datum with ⟨other, readRight, readRightToo⟩
  refine ⟨datum.cost + other.cost + 1, fun machine enough => ?_⟩
  have equal : ∀ {first second : Value}, moment.Reads first datum → moment.Reads second other →
      Always machine moment (first.equal second) (decide (datum = other)) :=
    fun readFirst readSecond => Value.equal_always (remembers (datum.cost + other.cost)) enough
      readFirst (by omega) readSecond (by omega)
  exact AgreeAt.of_gives (equal readLeft readRight moment (le_refl _))
    (equal readLeftToo readRightToo moment (le_refl _))
    fun _ _ found foundToo => found.trans foundToo.symm

theorem hash_agrees (remembers : moment.RemembersRight) (twins : moment.Twins left leftToo) :
    ∃ enough, ∀ machine : Machine, enough ≤ machine.limit →
      AgreeAt machine moment.world left.hash leftToo.hash Eq := by
  rcases twins.exists_datum with ⟨datum, read, readToo⟩
  refine ⟨datum.cost, fun machine enough => ?_⟩
  exact AgreeAt.of_gives (Value.hash_always (remembers _) read enough moment (le_refl _))
    (Value.hash_always (remembers _) readToo enough moment (le_refl _))
    fun _ _ found foundToo => found.trans foundToo.symm

end Moment.Twins

/-! ## Tables -/

/-- A map whose keys can be looked for. Its values may be anything. -/
structure Moment.HasKeys (moment : Moment) (machine : Machine) (map : Value)
    (entries : List (Value × Value)) (keys : List Datum) : Prop where
  contents : map.mapEntries? = some entries
  read : moment.ReadsAll (entries.map Prod.fst) keys
  costs : ∀ key ∈ keys, key.cost ≤ machine.limit
  lawful : map.IsLawful moment.world keys

/-- A set whose elements can be looked for. -/
structure Moment.HasElements (moment : Moment) (machine : Machine) (set : Value)
    (elements : List Value) (items : List Datum) : Prop where
  contents : set.setItems? = some elements
  read : moment.ReadsAll elements items
  costs : ∀ item ∈ items, item.cost ≤ machine.limit
  lawful : set.IsLawful moment.world items

variable {map set key : Value} {entries : List (Value × Value)} {elements : List Value}
  {keys items : List Datum} {datum : Datum}

theorem Moment.HasKeys.of_reads (read : moment.Reads map datum)
    (within : datum.cost ≤ machine.limit) (contents : map.mapEntries? = some entries) :
    ∃ keys, moment.HasKeys machine map entries keys := by
  rcases read.exists_entries contents with ⟨keys, values, rfl, readKeys, readValues, lawful⟩
  rw [Datum.cost_map_arrange] at within
  refine ⟨keys, contents, readKeys, fun key member => ?_, lawful⟩
  have less := Datum.cost_lt_costAll_entries (ReadsAll.length_keys_eq readKeys readValues)
    (.inl member)
  omega

theorem Moment.HasElements.of_reads (read : moment.Reads set datum)
    (within : datum.cost ≤ machine.limit) (contents : set.setItems? = some elements) :
    ∃ items, moment.HasElements machine set elements items := by
  rcases read.exists_elements contents with ⟨items, rfl, readItems, lawful⟩
  rw [Datum.cost_set_arrange] at within
  refine ⟨items, contents, readItems, fun item member => ?_, lawful⟩
  have less := Datum.cost_lt_costAll member
  omega

theorem equal_equates (remembers : moment.RemembersRight) (enough : 0 < machine.limit) :
    Equates machine moment machine.limit Value.equal := by
  rcases Nat.exists_eq_add_of_lt enough with ⟨bound, limit⟩
  rw [Nat.zero_add] at limit
  intro between le left right leftDatum rightDatum readLeft readRight
  exact Value.equal_always (le.remembers _ (remembers bound)) limit.ge readLeft.1
    (limit ▸ readLeft.2) readRight.1 (limit ▸ readRight.2) between (le_refl _)

theorem Moment.HasKeys.lookup_gives (hasKeys : moment.HasKeys machine map entries keys)
    (remembers : moment.RemembersRight) (read : moment.Reads key datum)
    (within : datum.cost ≤ machine.limit) :
    Gives machine moment (Value.lookupWith Value.equal machine.limit map key) fun found _ =>
      found = (Keyed.ofKeys keys (entries.map Prod.snd)).lookup datum :=
  have enough := datum.cost_pos.trans_le within
  Value.lookupWith_gives (remembers _) enough (Nat.le_refl _) (equal_equates remembers enough)
    ⟨read, within⟩ hasKeys.contents hasKeys.read hasKeys.costs hasKeys.lawful

theorem Moment.HasElements.member_gives
    (hasElements : moment.HasElements machine set elements items)
    (remembers : moment.RemembersRight) (read : moment.Reads key datum)
    (within : datum.cost ≤ machine.limit) :
    Gives machine moment (Value.memberWith Value.equal machine.limit set key) fun found _ =>
      found = decide (datum ∈ items) :=
  have enough := datum.cost_pos.trans_le within
  Value.memberWith_gives (remembers _) enough (Nat.le_refl _) (equal_equates remembers enough)
    ⟨read, within⟩ hasElements.contents hasElements.read hasElements.costs hasElements.lawful

/-! ## Looking up -/

theorem lookup_ofKeys_alike {cells : Store Deferred} {values others : List Value}
    (alike : List.Forall₂ (Alike cells) values others) (keys : List Datum) (datum : Datum) :
    Option.Rel (Alike cells) ((Keyed.ofKeys keys values).lookup datum)
      ((Keyed.ofKeys keys others).lookup datum) := by
  induction alike generalizing keys with
  | nil =>
      rw [Keyed.ofKeys, List.zip_nil_right]
      exact .none
  | cons first _ induction =>
      rcases keys with _ | ⟨key, keys⟩
      · exact .none
      · rw [Keyed.ofKeys, Keyed.ofKeys, List.zip_cons_cons, List.zip_cons_cons, List.lookup_cons,
          List.lookup_cons]
        split
        · exact .some first
        · exact induction keys

namespace Moment.Twins

variable {mapToo setToo keyToo collection collectionToo default defaultToo : Value}

theorem mapLookup_agrees (remembers : moment.RemembersRight) (twins : moment.Twins map mapToo)
    (keyTwins : moment.Twins key keyToo) :
    ∃ enough, ∀ machine : Machine, enough ≤ machine.limit →
      AgreeAt machine moment.world (map.mapLookup key) (mapToo.mapLookup keyToo)
        (Option.Rel (Alike moment.world.deferred)) := by
  rcases twins.exists_datum with ⟨datum, read, readToo⟩
  rcases keyTwins.exists_datum with ⟨keyDatum, readKey, readKeyToo⟩
  refine ⟨datum.cost + keyDatum.cost, fun machine enough => ?_⟩
  have roomy : datum.cost ≤ machine.limit := by omega
  have keyRoomy : keyDatum.cost ≤ machine.limit := by omega
  have contents := twins.alike.mapEntries
  generalize here : map.mapEntries? = entries?, there : mapToo.mapEntries? = others? at contents
  cases contents with
  | none =>
      have absent : ∀ {value key : Value}, value.mapEntries? = none →
          value.mapLookup key machine moment.world = some (none, moment.world) := by
        intro value key missing
        cases value <;> first | (cases missing; done) | rfl
      exact ⟨none, none, _, _, absent here, absent there, .none⟩
  | some alike =>
      rcases AllAlike.of_entries alike with ⟨alikeKeys, alikeValues⟩
      rcases HasKeys.of_reads read roomy here with ⟨keys, hasKeys⟩
      rcases HasKeys.of_reads readToo roomy there with ⟨keysToo, hasKeysToo⟩
      cases alikeKeys.data_eq hasKeys.read hasKeysToo.read
      refine AgreeAt.of_gives (Gives.looking rfl (hasKeys.lookup_gives remembers readKey keyRoomy))
        (Gives.looking rfl (hasKeysToo.lookup_gives remembers readKeyToo keyRoomy)) ?_
      rintro _ _ rfl rfl
      exact lookup_ofKeys_alike alikeValues.forall₂ keys keyDatum

theorem setMember_agrees (remembers : moment.RemembersRight) (twins : moment.Twins set setToo)
    (keyTwins : moment.Twins key keyToo) :
    ∃ enough, ∀ machine : Machine, enough ≤ machine.limit →
      AgreeAt machine moment.world (set.setMember key) (setToo.setMember keyToo) Eq := by
  rcases twins.exists_datum with ⟨datum, read, readToo⟩
  rcases keyTwins.exists_datum with ⟨keyDatum, readKey, readKeyToo⟩
  refine ⟨datum.cost + keyDatum.cost, fun machine enough => ?_⟩
  have roomy : datum.cost ≤ machine.limit := by omega
  have keyRoomy : keyDatum.cost ≤ machine.limit := by omega
  have contents := twins.alike.setItems
  generalize here : set.setItems? = items?, there : setToo.setItems? = others? at contents
  cases contents with
  | none =>
      have absent : ∀ {value key : Value}, value.setItems? = none →
          value.setMember key machine moment.world = some (false, moment.world) := by
        intro value key missing
        cases value <;> first | (cases missing; done) | rfl
      exact ⟨false, false, _, _, absent here, absent there, rfl⟩
  | some alike =>
      rcases HasElements.of_reads read roomy here with ⟨items, hasItems⟩
      rcases HasElements.of_reads readToo roomy there with ⟨itemsToo, hasItemsToo⟩
      cases AllAlike.data_eq (.of_forall₂ alike) hasItems.read hasItemsToo.read
      refine AgreeAt.of_gives
        (Gives.looking rfl (hasItems.member_gives remembers readKey keyRoomy))
        (Gives.looking rfl (hasItemsToo.member_gives remembers readKeyToo keyRoomy)) ?_
      rintro _ _ rfl rfl
      rfl

end Moment.Twins

/-! ### With a default -/

section

variable {cells : Store Deferred} {items others : List Value} {keyToo : Value}

theorem AllAlike.elementAt? (alike : AllAlike cells items others)
    (alikeKey : Alike cells key keyToo) :
    Option.Rel (Alike cells) (Value.elementAt? items key) (Value.elementAt? others keyToo) := by
  cases alikeKey with
  | same =>
      cases key
      case integer index =>
        unfold Value.elementAt?
        dsimp only
        split
        · exact .none
        · exact alike.getElem? _
      all_goals exact .none
  | string | symbol | list | vector | cons | lazySeq | arrayMap | hashMap | sortedMap | hashSet
    | sortedSet => exact .none

theorem getD_alike {found other : Option Value} {default defaultToo : Value}
    (same : Option.Rel (Alike cells) found other) (alike : Alike cells default defaultToo) :
    Alike cells (found.getD default) (other.getD defaultToo) := by
  cases same with
  | none => exact alike
  | some alike => exact alike

end

namespace Value

variable {collection default : Value}

theorem getOr_of_isMap (isMap : collection.isMap = true) :
    collection.getOr key default = do return (← collection.mapLookup key).getD default := by
  cases collection <;> first | (cases isMap; done) | rfl

theorem getOr_of_isSet (isSet : collection.isSet = true) :
    collection.getOr key default = do
      return if ← collection.setMember key then key else default := by
  cases collection <;> first | (cases isSet; done) | rfl

/-- Nothing can be found in any other value. -/
theorem getOr_of_none (notMap : collection.isMap = false) (notSet : collection.isSet = false)
    (notVector : ∀ address items metadata, collection ≠ vector address items metadata)
    (settled : ∀ cell, collection ≠ transient cell) :
    collection.getOr key default = pure default := by
  cases collection
  case vector => exact absurd rfl (notVector _ _ _)
  case transient => exact absurd rfl (settled _)
  all_goals first | (cases notMap; done) | (cases notSet; done) | rfl

theorem containsKey_of_isMap (isMap : collection.isMap = true) :
    collection.containsKey key = do return (← collection.mapLookup key).isSome := by
  cases collection <;> first | (cases isMap; done) | rfl

theorem containsKey_of_not_isMap (notMap : collection.isMap = false)
    (notVector : ∀ address items metadata, collection ≠ vector address items metadata) :
    collection.containsKey key = collection.setMember key := by
  cases collection
  case vector => exact absurd rfl (notVector _ _ _)
  all_goals first | (cases notMap; done) | rfl

end Value

/-- A vector, or no vector on either side. -/
theorem Alike.vector_or {cells : Store Deferred} {left right : Value}
    (alike : Alike cells left right) :
    (∃ address other items others metadata otherMetadata, left = .vector address items metadata ∧
      right = .vector other others otherMetadata ∧ AllAlike cells items others) ∨
    (∀ address items metadata, left ≠ .vector address items metadata) ∧
      ∀ address items metadata, right ≠ .vector address items metadata := by
  cases alike with
  | same =>
      cases left
      case vector items _ => exact .inl ⟨_, _, _, _, _, _, rfl, rfl, .refl cells items⟩
      all_goals exact .inr ⟨nofun, nofun⟩
  | vector alike => exact .inl ⟨_, _, _, _, _, _, rfl, rfl, alike⟩
  | string | symbol | list | cons | lazySeq | arrayMap | hashMap | sortedMap | hashSet
    | sortedSet => exact .inr ⟨nofun, nofun⟩

namespace Moment.Twins

variable {collection collectionToo keyToo default defaultToo : Value}

theorem getOr_agrees (remembers : moment.RemembersRight)
    (twins : moment.Twins collection collectionToo) (keyTwins : moment.Twins key keyToo)
    (alikeDefault : Alike moment.world.deferred default defaultToo)
    (settled : ∀ cell, collection ≠ .transient cell) :
    ∃ enough, ∀ machine : Machine, enough ≤ machine.limit →
      AgreeAt machine moment.world (collection.getOr key default)
        (collectionToo.getOr keyToo defaultToo) (Alike moment.world.deferred) := by
  rcases twins.mapLookup_agrees remembers keyTwins with ⟨forMaps, mapsAgree⟩
  rcases twins.setMember_agrees remembers keyTwins with ⟨forSets, setsAgree⟩
  refine ⟨forMaps + forSets, fun machine enough => ?_⟩
  have settledToo : ∀ cell, collectionToo ≠ .transient cell := by
    rintro cell rfl
    cases twins.alike
    exact settled cell rfl
  rcases twins.alike.vector_or with ⟨_, _, _, _, _, _, rfl, rfl, alike⟩ | ⟨other, otherToo⟩
  · exact AgreeAt.pure (getD_alike (alike.elementAt? keyTwins.alike) alikeDefault)
  · cases isMap : collection.isMap with
    | true =>
        rw [Value.getOr_of_isMap isMap, Value.getOr_of_isMap (twins.alike.isMap_eq ▸ isMap)]
        exact (mapsAgree machine (by omega)).map fun _ _ same => getD_alike same alikeDefault
    | false =>
        cases isSet : collection.isSet with
        | true =>
            rw [Value.getOr_of_isSet isSet, Value.getOr_of_isSet (twins.alike.isSet_eq ▸ isSet)]
            refine (setsAgree machine (by omega)).map ?_
            rintro answer _ rfl
            cases answer with
            | true => exact keyTwins.alike
            | false => exact alikeDefault
        | false =>
            rw [Value.getOr_of_none isMap isSet other settled,
              Value.getOr_of_none (twins.alike.isMap_eq ▸ isMap) (twins.alike.isSet_eq ▸ isSet)
                otherToo settledToo]
            exact AgreeAt.pure alikeDefault

theorem containsKey_agrees (remembers : moment.RemembersRight)
    (twins : moment.Twins collection collectionToo) (keyTwins : moment.Twins key keyToo) :
    ∃ enough, ∀ machine : Machine, enough ≤ machine.limit →
      AgreeAt machine moment.world (collection.containsKey key) (collectionToo.containsKey keyToo)
        Eq := by
  rcases twins.mapLookup_agrees remembers keyTwins with ⟨forMaps, mapsAgree⟩
  rcases twins.setMember_agrees remembers keyTwins with ⟨forSets, setsAgree⟩
  refine ⟨forMaps + forSets, fun machine enough => ?_⟩
  have isSome_eq : ∀ {found other : Option Value},
      Option.Rel (Alike moment.world.deferred) found other → found.isSome = other.isSome := by
    intro found other same
    cases same <;> rfl
  rcases twins.alike.vector_or with ⟨_, _, _, _, _, _, rfl, rfl, alike⟩ | ⟨other, otherToo⟩
  · exact AgreeAt.pure (isSome_eq (alike.elementAt? keyTwins.alike))
  · cases isMap : collection.isMap with
    | true =>
        rw [Value.containsKey_of_isMap isMap,
          Value.containsKey_of_isMap (twins.alike.isMap_eq ▸ isMap)]
        exact (mapsAgree machine (by omega)).map fun _ _ => isSome_eq
    | false =>
        rw [Value.containsKey_of_not_isMap isMap other,
          Value.containsKey_of_not_isMap (twins.alike.isMap_eq ▸ isMap) otherToo]
        exact setsAgree machine (by omega)

end Moment.Twins

/-! ## What is being built in place -/

/-- The collection as it is in this world. -/
def Editable.contentsIn (world : World) : Editable → Value
  | .arrayMap handle => .arrayMap handle (world.maps.entries handle) none
  | .hashMap entries => .hashMap 0 entries none
  | .sortedMap entries => .sortedMap 0 entries none
  | .vector items => .vector 0 items none
  | .hashSet items => .hashSet 0 items none
  | .sortedSet items => .sortedSet 0 items none

theorem Editable.contents_run (editable : Editable) (machine : Machine) (world : World) :
    editable.contents machine world = some (editable.contentsIn world, world) := by
  cases editable <;> rfl

/-- Whatever is in it can be looked for. -/
structure Moment.Searchable (moment : Moment) (collection : Value) : Prop where
  keys : ∀ entries, collection.mapEntries? = some entries → ∃ keys,
    moment.ReadsAll (entries.map Prod.fst) keys ∧ collection.IsLawful moment.world keys
  elements : ∀ elements, collection.setItems? = some elements → ∃ items,
    moment.ReadsAll elements items ∧ collection.IsLawful moment.world items

theorem Moment.Searchable.exists_keys {collection : Value}
    (searchable : moment.Searchable collection) (contents : collection.mapEntries? = some entries) :
    ∃ keys enough, ∀ machine : Machine, enough ≤ machine.limit →
      moment.HasKeys machine collection entries keys := by
  rcases searchable.keys entries contents with ⟨keys, read, lawful⟩
  refine ⟨keys, Datum.costAll keys, fun machine enough => ⟨contents, read, ?_, lawful⟩⟩
  exact fun key member => ((Datum.cost_lt_costAll member).trans_le enough).le

theorem Moment.Searchable.exists_elements {collection : Value}
    (searchable : moment.Searchable collection)
    (contents : collection.setItems? = some elements) :
    ∃ items enough, ∀ machine : Machine, enough ≤ machine.limit →
      moment.HasElements machine collection elements items := by
  rcases searchable.elements elements contents with ⟨items, read, lawful⟩
  refine ⟨items, Datum.costAll items, fun machine enough => ⟨contents, read, ?_, lawful⟩⟩
  exact fun item member => ((Datum.cost_lt_costAll member).trans_le enough).le

namespace Moment.Twins

variable {keyToo default defaultToo collection : Value}

theorem lookup_agrees (remembers : moment.RemembersRight) (keyTwins : moment.Twins key keyToo)
    (searchable : moment.Searchable collection) (contents : collection.mapEntries? = some entries) :
    ∃ enough, ∀ machine : Machine, enough ≤ machine.limit → AgreeAt machine moment.world
      (Value.lookupWith Value.equal machine.limit collection key)
      (Value.lookupWith Value.equal machine.limit collection keyToo)
      (Option.Rel (Alike moment.world.deferred)) := by
  rcases keyTwins.exists_datum with ⟨datum, read, readToo⟩
  rcases searchable.exists_keys contents with ⟨keys, enough, hasKeys⟩
  refine ⟨enough + datum.cost, fun machine within => ?_⟩
  have hasKeys := hasKeys machine (by omega)
  refine AgreeAt.of_gives (hasKeys.lookup_gives remembers read (by omega))
    (hasKeys.lookup_gives remembers readToo (by omega)) ?_
  rintro _ _ rfl rfl
  exact lookup_ofKeys_alike (List.forall₂_same.mpr fun value _ => .same value) keys datum

theorem member_agrees (remembers : moment.RemembersRight) (keyTwins : moment.Twins key keyToo)
    (searchable : moment.Searchable collection) (contents : collection.setItems? = some elements) :
    ∃ enough, ∀ machine : Machine, enough ≤ machine.limit → AgreeAt machine moment.world
      (Value.memberWith Value.equal machine.limit collection key)
      (Value.memberWith Value.equal machine.limit collection keyToo) Eq := by
  rcases keyTwins.exists_datum with ⟨datum, read, readToo⟩
  rcases searchable.exists_elements contents with ⟨items, enough, hasItems⟩
  refine ⟨enough + datum.cost, fun machine within => ?_⟩
  have hasItems := hasItems machine (by omega)
  refine AgreeAt.of_gives (hasItems.member_gives remembers read (by omega))
    (hasItems.member_gives remembers readToo (by omega)) ?_
  rintro _ _ rfl rfl
  rfl

/-- What is found in a collection that is being built does not depend on metadata of the key. -/
theorem get?_agrees (remembers : moment.RemembersRight) (keyTwins : moment.Twins key keyToo)
    {editable : Editable} (searchable : moment.Searchable (editable.contentsIn moment.world)) :
    ∃ enough, ∀ machine : Machine, enough ≤ machine.limit →
      AgreeAt machine moment.world (editable.get? key) (editable.get? keyToo)
        (Option.Rel (Alike moment.world.deferred)) := by
  have looked : ∀ (key : Value) (machine : Machine), editable.get? key machine moment.world = _ :=
    fun _ machine => Run.run_bind (editable.contents_run machine moment.world)
  cases editable with
  | vector items =>
      have found : ∀ (key : Value) (machine : Machine),
          (Editable.vector items).get? key machine moment.world =
            some (Value.elementAt? items key, moment.world) := by
        intro key machine
        cases key <;> rfl
      exact ⟨0, fun machine _ => ⟨_, _, _, _, found key machine, found keyToo machine,
        (AllAlike.refl _ items).elementAt? keyTwins.alike⟩⟩
  | arrayMap | hashMap | sortedMap =>
      rcases keyTwins.lookup_agrees remembers searchable rfl with ⟨enough, agree⟩
      refine ⟨enough, fun machine within => ?_⟩
      rcases agree machine within with ⟨found, other, after, afterToo, ran, ranToo, same⟩
      exact ⟨found, other, after, afterToo, (looked key machine).trans ran,
        (looked keyToo machine).trans ranToo, same⟩
  | hashSet | sortedSet =>
      rcases keyTwins.member_agrees remembers searchable rfl with ⟨enough, agree⟩
      refine ⟨enough, fun machine within => ?_⟩
      rcases agree machine within with ⟨found, _, after, afterToo, ran, ranToo, rfl⟩
      have here := (looked key machine).trans ((Run.run_bind rfl).trans (Run.run_bind ran))
      have there := (looked keyToo machine).trans ((Run.run_bind rfl).trans (Run.run_bind ranToo))
      cases found with
      | true => exact ⟨_, _, after, afterToo, here, there, .some keyTwins.alike⟩
      | false => exact ⟨_, _, after, afterToo, here, there, .none⟩

/-- So it is with what is got out of a transient, and out of one that is sealed nothing is. -/
theorem getOr_transient_agrees (remembers : moment.RemembersRight)
    (keyTwins : moment.Twins key keyToo)
    (alikeDefault : Alike moment.world.deferred default defaultToo) {cell : Ref .transient}
    {state : TransientCell} (here : moment.world.transients.get? cell.index = some state)
    (searchable : ∀ editable, state = some editable →
      moment.Searchable (editable.contentsIn moment.world)) :
    ∃ enough, ∀ machine : Machine, enough ≤ machine.limit →
      AgreeAt machine moment.world ((Value.transient cell).getOr key default)
        ((Value.transient cell).getOr keyToo defaultToo) (Alike moment.world.deferred) := by
  have looked : ∀ machine : Machine,
      Run.transientAt cell machine moment.world = some (state, moment.world) := by
    intro machine
    change Run.found (moment.world.transients.get? cell.index) machine moment.world = _
    rw [here]
    rfl
  cases state with
  | none =>
      have isSealed : ∀ (machine : Machine) (key default : Value),
          (Value.transient cell).getOr key default machine moment.world =
            some (default, moment.world) := by
        intro machine key default
        exact Run.run_bind ((Attempt.run_bind_error (Attempt.run_first (looked machine))))
      exact ⟨0, fun machine _ => ⟨_, _, _, _, isSealed machine key default,
        isSealed machine keyToo defaultToo, alikeDefault⟩⟩
  | some editable =>
      rcases keyTwins.get?_agrees remembers (searchable editable rfl) with ⟨enough, agree⟩
      refine ⟨enough, fun machine within => ?_⟩
      rcases agree machine within with ⟨found, other, after, afterToo, ran, ranToo, same⟩
      have opened : ∀ {key default : Value} {found : Option Value} {after : World},
          editable.get? key machine moment.world = some (found, after) →
          (Value.transient cell).getOr key default machine moment.world =
            some (found.getD default, after) := by
        intro key default found after ran
        have got : (Transient.get? cell key).run machine moment.world = some (.ok found, after) :=
          (Attempt.run_bind_ok (Attempt.run_first (looked machine))).trans (Attempt.run_lift ran)
        refine (Run.run_bind got).trans ?_
        cases found <;> rfl
      exact ⟨_, _, after, afterToo, opened ran, opened ranToo, getD_alike same alikeDefault⟩

end Moment.Twins

end

end LispRuntime
